import BenchOS.ConsoleRuns

/-!
The console as a terminal. In a monospaced text every character takes one cell of a grid
of whole lines and columns. The terminal writes cells from left to right, goes on in the
next line when a line is full, and moves all lines but the last up when there is no next
one. The last line keeps its old characters until new ones are written over them.
-/
namespace BenchOS

/-- The cells by line and column, and where the next character goes. -/
structure Terminal where
  cells : Nat → Nat → Option (UInt32 × Colour)
  row : Nat
  col : Nat

/-- The size of a grid: how many lines and columns, the pixels of a cell, and how much of
it a character fills. -/
structure Grid where
  lines : Nat
  cols : Nat
  lineHeight : Nat
  advance : Nat
  width : Nat
  height : Nat
  linesPos : 0 < lines
  colsPos : 0 < cols
  linePos : 0 < lineHeight
  advancePos : 0 < advance
  widthLe : width ≤ advance
  heightLe : height ≤ lineHeight

namespace Terminal

def empty : Terminal where
  cells := fun _ _ => none
  row := 0
  col := 0

/-- Past the last line, all lines but the last take what stood in the next one. -/
def scroll (g : Grid) (t : Terminal) : Terminal :=
  if g.lines ≤ t.row then
    { t with
      cells := fun r q => if r + 1 < g.lines then t.cells (r + 1) q else t.cells r q
      row := g.lines - 1 }
  else t

/-- A full line is left. -/
def wrap (g : Grid) (t : Terminal) : Terminal :=
  if g.cols ≤ t.col then { t with row := t.row + 1, col := 0 } else t

def write (g : Grid) (c : UInt32) (fg : Colour) (t : Terminal) : Terminal :=
  let t := (t.wrap g).scroll g
  { t with
    cells := fun r q => if r = t.row ∧ q = t.col then some (c, fg) else t.cells r q
    col := t.col + 1 }

/-- How many lines a newline goes down: two, when a character of width `width` would not
fit in the line any more. -/
def down (g : Grid) (w width : Nat) (t : Terminal) : Nat :=
  if w < t.col * g.advance + width then 2 else 1

def newline (g : Grid) (w width : Nat) (t : Terminal) : Terminal :=
  { ({ t with row := t.row + t.down g w width } : Terminal).scroll g with col := 0 }

end Terminal

/-- The pixel of a character in column `x` and row `y` of its cell. -/
def Face.pixel (face : Face) (bg base : Colour) (cell : Option (UInt32 × Colour)) (x y : Nat) :
    Colour :=
  match cell with
  | none => base
  | some (c, fg) =>
    match face.shape c with
    | none => base
    | some sh => (((sh.cells fg bg)[y]?).bind fun row => row[x]?).getD base

/-- The picture of the cells on a page of the colour `base`. -/
def Terminal.picture (face : Face) (g : Grid) (bg base : Colour) (t : Terminal) :
    Picture Colour := fun x y =>
  face.pixel bg base (t.cells (y / g.lineHeight) (x / g.advance)) (x % g.advance)
    (y % g.lineHeight)

/-- The shape of `c` fills the same part of its cell as the others do. -/
structure Face.Cell (face : Face) (g : Grid) (c : UInt32) : Prop where
  notTab : c ≠ 0x09
  notFeed : c ≠ 0x0A
  notReturn : c ≠ 0x0D
  shape : ∃ sh, face.shape c = some sh ∧ sh.advanceX = g.advance ∧ sh.advanceY = 0 ∧
    ∀ fg bg, (sh.cells fg bg).length = g.height ∧ ∀ row ∈ sh.cells fg bg, row.length = g.width

/-- The page shows the terminal: its picture, with the pen where the next cell begins. -/
structure Displays (face : Face) (g : Grid) (base : Colour) (t : Terminal) (pg : Page) : Prop where
  picture : pg.pic = t.picture face g pg.bg base
  x : pg.x = t.col * g.advance
  y : pg.y = t.row * g.lineHeight

/-- What every terminal keeps: it is in the grid, and so is what was written. -/
structure Terminal.Legal (face : Face) (g : Grid) (t : Terminal) : Prop where
  row : t.row < g.lines
  col : t.col ≤ g.cols
  within : ∀ r q, t.cells r q ≠ none → r < g.lines ∧ q < g.cols
  chars : ∀ r q c fg, t.cells r q = some (c, fg) → face.Cell g c

section Pictures
variable {face : Face} {g : Grid} {bg base : Colour} {t : Terminal}

theorem picture_scroll (hrow : g.lines ≤ t.row) :
    (t.scroll g).picture face g bg base =
      (t.picture face g bg base).moveUp g.lineHeight ((g.lines - 1) * g.lineHeight) := by
  funext x y
  have hline : y < (g.lines - 1) * g.lineHeight ↔ y / g.lineHeight + 1 < g.lines := by
    rw [← Nat.div_lt_iff_lt_mul g.linePos]
    exact Nat.lt_sub_iff_add_lt
  rw [Terminal.scroll, if_pos hrow, Picture.moveUp, Terminal.picture]
  simp only
  by_cases hmoved : y < (g.lines - 1) * g.lineHeight
  · rw [if_pos hmoved, if_pos (hline.mp hmoved), Terminal.picture,
      Nat.add_div_right y g.linePos, Nat.add_mod_right]
  · rw [if_neg hmoved, if_neg fun h => hmoved (hline.mpr h), Terminal.picture]

/-- Outside its part of the cell a character leaves the page as it was cleared. -/
theorem pixel_outside {c : UInt32} {fg : Colour} (hcell : face.Cell g c) {x y : Nat}
    (h : g.width ≤ x ∨ g.height ≤ y) : face.pixel bg base (some (c, fg)) x y = base := by
  obtain ⟨sh, hsh, -, -, hbox⟩ := hcell.shape
  obtain ⟨hlen, hrows⟩ := hbox fg bg
  simp only [Face.pixel, hsh]
  cases hrow : (sh.cells fg bg)[y]? with
  | none => rfl
  | some row =>
      have hy : y < g.height := hlen ▸ (List.getElem?_eq_some_iff.mp hrow).1
      have hx : row.length ≤ x := (hrows row (List.mem_of_getElem? hrow)).symm ▸ by omega
      rw [Option.bind_some, List.getElem?_eq_none hx, Option.getD_none]

theorem cell_iff {n k a : Nat} (ha : 0 < a) : n / a = k ↔ k * a ≤ n ∧ n < (k + 1) * a := by
  rw [Nat.div_eq_iff ha]
  constructor
  · rintro ⟨hlow, hhigh⟩
    exact ⟨hlow, by rw [Nat.succ_mul]; omega⟩
  · rintro ⟨hlow, hhigh⟩
    rw [Nat.succ_mul] at hhigh
    exact ⟨hlow, by omega⟩

theorem picture_write {c : UInt32} {fg : Colour} (hcell : face.Cell g c)
    {sh : Shape} (hsh : face.shape c = some sh)
    (chars : ∀ r q c fg, t.cells r q = some (c, fg) → face.Cell g c)
    (row col : Nat) :
    Terminal.picture face g bg base
        ⟨fun r q => if r = row ∧ q = col then some (c, fg) else t.cells r q, t.row, t.col⟩ =
      (t.picture face g bg base).stamp (col * g.advance) (row * g.lineHeight)
        (sh.cells fg bg) := by
  obtain ⟨sh', hsh', -, -, hbox⟩ := hcell.shape
  cases Option.some.inj (hsh.symm.trans hsh')
  obtain ⟨hlen, hrows⟩ := hbox fg bg
  have hwidth := g.widthLe
  have hheight := g.heightLe
  funext x y
  simp only [Terminal.picture]
  by_cases hhere : y / g.lineHeight = row ∧ x / g.advance = col
  · have hx := Nat.div_add_mod x g.advance
    have hy := Nat.div_add_mod y g.lineHeight
    rw [hhere.2, Nat.mul_comm] at hx
    rw [hhere.1, Nat.mul_comm] at hy
    rw [if_pos hhere, Picture.stamp, if_pos ⟨by omega, by omega⟩,
      show x - col * g.advance = x % g.advance by omega,
      show y - row * g.lineHeight = y % g.lineHeight by omega]
    simp only [Face.pixel, hsh]
    by_cases hin : x % g.advance < g.width ∧ y % g.lineHeight < g.height
    · have hrow := List.getElem?_eq_getElem (hlen.symm ▸ hin.2)
      have hlen' := hrows _ (List.getElem_mem (hlen.symm ▸ hin.2))
      rw [hrow, Option.bind_some, List.getElem?_eq_getElem (hlen'.symm ▸ hin.1)]
      rfl
    · have hnew : face.pixel bg base (some (c, fg)) (x % g.advance) (y % g.lineHeight) = base :=
        pixel_outside hcell (by omega)
      have hold : Terminal.picture face g bg base t x y = base := by
        rw [Terminal.picture]
        cases hc : t.cells (y / g.lineHeight) (x / g.advance) with
        | none => rfl
        | some old => exact pixel_outside (chars _ _ old.1 old.2 hc) (by omega)
      simp only [Face.pixel, hsh] at hnew
      rw [hold, hnew]
  · rw [if_neg hhere]
    have hrow := not_congr (cell_iff (n := y) (k := row) g.linePos)
    have hcol := not_congr (cell_iff (n := x) (k := col) g.advancePos)
    rw [Nat.succ_mul] at hrow hcol
    symm
    by_cases hx : x / g.advance = col
    · have hy := hrow.mp fun hy => hhere ⟨hy, hx⟩
      by_cases habove : y < row * g.lineHeight
      · exact Picture.stamp_above _ _ _ _ habove _
      · exact Picture.stamp_below _ _ _ _ (by omega)
    · have hx' := hcol.mp hx
      by_cases hleft : x < col * g.advance
      · exact Picture.stamp_left _ _ _ hleft _ _
      · exact Picture.stamp_right _ _ _ (n := g.width) (by omega) _ fun r hr => (hrows r hr).le

end Pictures

/-- The grid is what of a screen of `w` columns and `h` rows is whole lines and cells. -/
structure Grid.Fits (g : Grid) (face : Face) (w h : Nat) : Prop where
  lineHeight : g.lineHeight = face.lineHeight
  lines : g.lines = h / g.lineHeight
  cols : g.cols = w / g.advance

section Steps
variable {face : Face} {g : Grid} {w h : Nat} {base : Colour} {t : Terminal}
  {pg : Page}

theorem Grid.Fits.lastLine (fits : g.Fits face w h) :
    face.lastLine h = (g.lines - 1) * g.lineHeight := by
  have hdiv := Nat.div_add_mod h g.lineHeight
  rw [← fits.lines, Nat.mul_comm] at hdiv
  rw [Face.lastLine, ← fits.lineHeight, Nat.sub_one_mul]
  omega

theorem Grid.Fits.full (fits : g.Fits face w h) (col : Nat) :
    w < col * g.advance + g.advance ↔ g.cols ≤ col := by
  rw [← Nat.succ_mul, ← Nat.div_lt_iff_lt_mul g.advancePos, ← fits.cols]
  exact Nat.lt_succ_iff

theorem Grid.Fits.below (fits : g.Fits face w h) (row : Nat) :
    face.lastLine h < row * g.lineHeight ↔ g.lines ≤ row := by
  have hlines := g.linesPos
  rw [fits.lastLine, Nat.mul_lt_mul_right g.linePos]
  omega

theorem displays_scroll (fits : g.Fits face w h) (shows : Displays face g base t pg) :
    Displays face g base (t.scroll g) (pg.scroll face.lineHeight (face.lastLine h)) := by
  rw [Page.scroll, shows.y]
  by_cases hbelow : g.lines ≤ t.row
  · rw [if_pos ((fits.below t.row).mpr hbelow)]
    refine ⟨?_, ?_, ?_⟩
    · rw [picture_scroll hbelow, ← shows.picture, fits.lastLine, fits.lineHeight]
    · rw [Terminal.scroll, if_pos hbelow]
      exact shows.x
    · rw [Terminal.scroll, if_pos hbelow]
      exact fits.lastLine
  · rw [if_neg (mt (fits.below t.row).mp hbelow), Terminal.scroll, if_neg hbelow]
    exact shows

theorem displays_wrap (fits : g.Fits face w h) (shows : Displays face g base t pg) :
    Displays face g base (t.wrap g) (pg.fit w face.lineHeight false g.advance) := by
  have hstop : pg.stop false g.advance = t.col * g.advance := shows.x
  rw [Page.fit, hstop, Terminal.wrap]
  by_cases hfull : g.cols ≤ t.col
  · rw [if_pos ((fits.full t.col).mpr hfull), if_pos hfull]
    refine ⟨shows.picture, (Nat.zero_mul _).symm, ?_⟩
    rw [Nat.succ_mul, ← shows.y, fits.lineHeight]
  · rw [if_neg (mt (fits.full t.col).mp hfull), if_neg hfull]
    exact ⟨shows.picture, rfl, shows.y⟩

theorem scroll_legal (chars : ∀ r q c fg, t.cells r q = some (c, fg) →
      face.Cell g c)
    (within : ∀ r q, t.cells r q ≠ none → r < g.lines ∧ q < g.cols) (col : t.col ≤ g.cols) :
    (t.scroll g).Legal face g := by
  have hlines := g.linesPos
  rw [Terminal.scroll]
  by_cases hbelow : g.lines ≤ t.row
  · rw [if_pos hbelow]
    refine ⟨Nat.sub_lt hlines Nat.one_pos, col, ?_, ?_⟩
    · intro r q hne
      simp only at hne
      by_cases hmoved : r + 1 < g.lines
      · rw [if_pos hmoved] at hne
        exact ⟨Nat.lt_of_succ_lt hmoved, (within _ _ hne).2⟩
      · rw [if_neg hmoved] at hne
        exact within _ _ hne
    · intro r q c fg hsome
      simp only at hsome
      by_cases hmoved : r + 1 < g.lines
      · rw [if_pos hmoved] at hsome
        exact chars _ _ _ _ hsome
      · rw [if_neg hmoved] at hsome
        exact chars _ _ _ _ hsome
  · rw [if_neg hbelow]
    exact ⟨Nat.lt_of_not_le hbelow, col, within, chars⟩

theorem wrap_cells : (t.wrap g).cells = t.cells := by
  rw [Terminal.wrap]
  split <;> rfl

theorem wrap_col : (t.wrap g).col < g.cols := by
  rw [Terminal.wrap]
  by_cases hfull : g.cols ≤ t.col
  · rw [if_pos hfull]
    exact g.colsPos
  · rw [if_neg hfull]
    exact Nat.lt_of_not_le hfull

theorem scroll_first :
    { t.scroll g with col := 0 } = ({ t with col := 0 } : Terminal).scroll g := by
  rw [Terminal.scroll, Terminal.scroll]
  split <;> rfl

@[simp] theorem scroll_col : (t.scroll g).col = t.col := by
  rw [Terminal.scroll]
  split <;> rfl

/-- Before a character is written there is room for it. -/
theorem room_legal (legal : t.Legal face g) :
    ((t.wrap g).scroll g).Legal face g ∧ ((t.wrap g).scroll g).col < g.cols := by
  have hcol := wrap_col (g := g) (t := t)
  have hcells := wrap_cells (g := g) (t := t)
  refine ⟨scroll_legal ?_ ?_ hcol.le, scroll_col.symm ▸ hcol⟩
  · rw [hcells]
    exact legal.chars
  · rw [hcells]
    exact legal.within

theorem write_legal {c : UInt32} {fg : Colour} (hcell : face.Cell g c)
    (legal : t.Legal face g) :
    (t.write g c fg).Legal face g := by
  obtain ⟨hroom, hcol⟩ := room_legal legal
  refine ⟨hroom.row, hcol, ?_, ?_⟩
  · intro r q hne
    simp only [Terminal.write] at hne
    by_cases hhere : r = ((t.wrap g).scroll g).row ∧ q = ((t.wrap g).scroll g).col
    · exact ⟨hhere.1 ▸ hroom.row, hhere.2 ▸ hcol⟩
    · rw [if_neg hhere] at hne
      exact hroom.within r q hne
  · intro r q c' fg' hsome
    simp only [Terminal.write] at hsome
    by_cases hhere : r = ((t.wrap g).scroll g).row ∧ q = ((t.wrap g).scroll g).col
    · rw [if_pos hhere] at hsome
      cases hsome
      exact hcell
    · rw [if_neg hhere] at hsome
      exact hroom.chars r q c' fg' hsome

theorem newline_legal (feed : Nat) (legal : t.Legal face g) :
    (t.newline g w feed).Legal face g := by
  have hscrolled := scroll_legal (t := { t with row := t.row + t.down g w feed })
    legal.chars legal.within legal.col
  exact ⟨hscrolled.row, Nat.zero_le _, hscrolled.within, hscrolled.chars⟩

/-- A character of the grid is written where the pen is. -/
theorem displays_write {c : UInt32} {fg : Colour} (hcell : face.Cell g c)
    (fits : g.Fits face w h)
    (legal : t.Legal face g) (shows : Displays face g base t pg) :
    Displays face g base (t.write g c fg) (pg.put face w h c fg) := by
  obtain ⟨sh, hsh, hadvance, hdown, -⟩ := hcell.shape
  have hsettle : Displays face g base ((t.wrap g).scroll g) (pg.settle face w h c) := by
    rw [Page.settle, hsh, Page.fitTo, decide_eq_false hcell.notTab, hadvance, Page.newline,
      if_neg hcell.notFeed]
    exact displays_scroll fits (displays_wrap fits shows)
  have hchars := (room_legal legal).1.chars
  rw [Page.put, if_neg (not_or.mpr ⟨hcell.notReturn, hcell.notFeed⟩), hsh]
  refine ⟨?_, ?_, ?_⟩
  · show (pg.settle face w h c).pic.stamp _ _ _ = _
    rw [hsettle.picture, hsettle.x, hsettle.y]
    exact (picture_write hcell hsh hchars _ _).symm
  · show (pg.settle face w h c).x + sh.advanceX = _
    rw [hsettle.x, hadvance]
    exact (Nat.succ_mul _ _).symm
  · show (pg.settle face w h c).y + sh.advanceY = _
    rw [hsettle.y, hdown]
    rfl

/-- The width that counts for a newline: that of its own shape. -/
def Face.feedWidth (face : Face) : Nat :=
  match face.shape 0x0A with
  | none => 0
  | some sh => sh.advanceX

theorem fitTo_feed (fits : g.Fits face w h) (legal : t.Legal face g)
    (shows : Displays face g base t pg) :
    (pg.fitTo w face.lineHeight false (face.shape 0x0A)).y + face.lineHeight =
      (t.row + t.down g w face.feedWidth) * g.lineHeight := by
  have hx := shows.x
  rw [Nat.add_mul, ← shows.y, ← fits.lineHeight, Terminal.down, Face.feedWidth]
  cases face.shape 0x0A with
  | none =>
      have hfit : t.col * g.advance ≤ w :=
        calc t.col * g.advance ≤ g.cols * g.advance := Nat.mul_le_mul_right _ legal.col
          _ ≤ w := fits.cols ▸ Nat.div_mul_le_self w g.advance
      rw [Page.fitTo, if_neg (by simpa using hfit), Nat.one_mul]
  | some sh =>
      have hstop : pg.stop false sh.advanceX = t.col * g.advance := hx
      rw [Page.fitTo, Page.fit, hstop]
      by_cases hfull : w < t.col * g.advance + sh.advanceX
      · simp only [if_pos hfull]
        rw [Nat.two_mul, Nat.add_assoc]
      · simp only [if_neg hfull]
        rw [Nat.one_mul]

/-- A newline shows on the page what it does on the terminal. -/
theorem displays_newline (fits : g.Fits face w h) (legal : t.Legal face g)
    (shows : Displays face g base t pg) (fg : Colour) :
    Displays face g base (t.newline g w face.feedWidth) (pg.put face w h 0x0A fg) := by
  have hput : pg.put face w h 0x0A fg =
      ({ pg.fitTo w face.lineHeight false (face.shape 0x0A) with
          x := 0
          y := (pg.fitTo w face.lineHeight false (face.shape 0x0A)).y + face.lineHeight } :
        Page).scroll face.lineHeight (face.lastLine h) := by
    rw [Page.put, if_pos (.inr rfl)]
    exact Page.scroll_left _ _ _
  have hnewline : t.newline g w face.feedWidth =
      (⟨t.cells, t.row + t.down g w face.feedWidth, 0⟩ : Terminal).scroll g :=
    scroll_first
  rw [hput, hnewline]
  refine displays_scroll fits ⟨?_, (Nat.zero_mul _).symm, fitTo_feed fits legal shows⟩
  simp only [Page.fitTo_pic, Page.fitTo_bg]
  exact shows.picture

end Steps

end BenchOS
