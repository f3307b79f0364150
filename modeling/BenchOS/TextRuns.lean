import BenchOS.Terminal

/-!
Text on the console over whole runs: what is on the screen after a clear and any text, and
which characters of a text without newlines are still to be seen.
-/
namespace BenchOS
open Renderer

/-- A glyph of a monospaced text: a newline, or a character that fills its cell. -/
def Face.Text (face : Face) (g : Grid) (c : UInt32) : Prop := c = 0x0A ∨ face.Cell g c

/-- A character that is a newline or fills its cell. -/
def Terminal.type (face : Face) (g : Grid) (w : Nat) (t : Terminal) (gl : Glyph) : Terminal :=
  if unicodeOf gl.char = 0x0A then t.newline g w face.feedWidth
  else t.write g (unicodeOf gl.char) gl.fg

def Terminal.text (face : Face) (g : Grid) (w : Nat) (text : List Glyph) : Terminal :=
  text.foldl (Terminal.type face g w) .empty

section Runs
variable {font : Font} {face : Face} {g : Grid} {sc : Screen} {m₀ : Mem Object} {base : Colour}

theorem displays_type {t : Terminal} {pg : Page} {w h : Nat} (fits : g.Fits face w h)
    (legal : t.Legal face g) (shows : Displays face g base t pg) {gl : Glyph}
    (htext : face.Text g (unicodeOf gl.char)) :
    (t.type face g w gl).Legal face g ∧
      Displays face g base (t.type face g w gl) (pg.put face w h (unicodeOf gl.char) gl.fg) := by
  rw [Terminal.type]
  rcases htext with hfeed | hcell
  · rw [if_pos hfeed, hfeed]
    exact ⟨newline_legal _ legal, displays_newline fits legal shows gl.fg⟩
  · rw [if_neg hcell.notFeed]
    exact ⟨write_legal hcell legal, displays_write hcell fits legal shows⟩

theorem displays_text {w h : Nat} (fits : g.Fits face w h) (text : List Glyph)
    (htext : ∀ gl ∈ text, face.Text g (unicodeOf gl.char)) {t : Terminal} {pg : Page}
    (legal : t.Legal face g) (shows : Displays face g base t pg) :
    (text.foldl (Terminal.type face g w) t).Legal face g ∧
      Displays face g base (text.foldl (Terminal.type face g w) t)
        (pg.run face w h (text.map .put)) ∧
      (pg.run face w h (text.map .put)).bg = pg.bg := by
  induction text generalizing t pg with
  | nil => exact ⟨legal, shows, rfl⟩
  | cons gl text ih =>
      obtain ⟨hlegal, hshows⟩ := displays_type fits legal shows (htext gl (List.mem_cons_self ..))
      obtain ⟨hlegal', hshows', hbg⟩ :=
        ih (fun x hx => htext x (List.mem_cons_of_mem _ hx)) hlegal hshows
      exact ⟨hlegal', hshows', hbg.trans (Page.put_bg ..)⟩

theorem legal_empty : Terminal.empty.Legal face g :=
  ⟨g.linesPos, Nat.zero_le _, fun _ _ h => absurd rfl h, fun _ _ _ _ h => by cases h⟩

theorem displays_blank : Displays face g base .empty (Page.blank base) :=
  ⟨rfl, (Nat.zero_mul _).symm, (Nat.zero_mul _).symm⟩

end Runs

/-- The screen shows the terminal on a background, and the pen stands where the next cell
begins. -/
structure OnScreen (face : Face) (g : Grid) (sc : Screen) (color : Colour) (t : Terminal)
    (s : Machine) : Prop where
  pixels : ∀ x y, x < sc.w → y < sc.h →
    s.mem.Block (sc.place x y)
      (bytes32 (t.picture face g (0xff000000 ||| color) color x y))
  penX : s.ssfnDst.x.toInt = (t.col * g.advance : Nat)
  penY : s.ssfnDst.y.toInt = (t.row * g.lineHeight : Nat)

/-- A page that began blank shows the terminal on which its text was typed. -/
theorem presents_text {face : Face} {sc : Screen} {g : Grid} (fits : g.Fits face sc.w sc.h)
    {text : List Glyph} (htext : ∀ gl ∈ text, face.Text g (unicodeOf gl.char)) {m₀ : Mem Object}
    {s : Machine} {color : UInt32}
    (h : Presents sc m₀ s.canvas ((Page.blank color).run face sc.w sc.h (text.map .put))) :
    (Terminal.text face g sc.w text).Legal face g ∧
      OnScreen face g sc color (Terminal.text face g sc.w text) s := by
  obtain ⟨hlegal, hshows, hbg⟩ := displays_text fits text htext legal_empty
    (displays_blank : Displays face g color .empty (Page.blank color))
  refine ⟨hlegal, ?_, ?_, ?_⟩
  · have hdepicts := h.painted.depicts
    rw [hshows.picture, hbg] at hdepicts
    exact hdepicts
  · exact h.tracks.pen.x.trans (congrArg _ hshows.x)
  · exact h.tracks.pen.y.trans (congrArg _ hshows.y)

theorem screenRun_text {font : Font} {face : Face} (readable : Readable font face)
    {fb : LimineFramebuffer} {sc : Screen} (backs : Backs fb sc)
    (tall : 2 * face.lineHeight ≤ sc.h) {g : Grid} (fits : g.Fits face sc.w sc.h) (s : Machine)
    (color : UInt32) {text : List Glyph}
    (htext : ∀ gl ∈ text, face.Text g (unicodeOf gl.char)) :
    (∃ s', ScreenRun font (s.drawingOn fb) (.clear color :: text.map .put) s') ∧
      ∀ s', ScreenRun font (s.drawingOn fb) (.clear color :: text.map .put) s' →
        (Terminal.text face g sc.w text).Legal face g ∧
          OnScreen face g sc color (Terminal.text face g sc.w text) s' := by
  have hlive : Live face sc s.mem (s.drawingOn fb) ⟨pictureOf sc s.mem, 0, 0, 0xff000000⟩ :=
    ⟨backs, consoleInit_presents backs s, Nat.zero_le _, Nat.zero_le _⟩
  obtain ⟨hexists, hall⟩ :=
    screenRun_live readable tall (.clear color :: text.map .put) hlive
  exact ⟨hexists, fun s' hrun => presents_text fits htext (hall s' hrun).presents⟩

/-- The terminal after `text` without a newline has moved `top` lines up. Each cell holds
the character that is due there, or in the last line the one that was due there before. -/
structure Written (g : Grid) (text : List (UInt32 × Colour)) (top : Nat) (t : Terminal) :
    Prop where
  count : (top + t.row) * g.cols + t.col = text.length
  row : t.row < g.lines
  scrolled : 0 < top → t.row + 1 = g.lines
  cells : ∀ r q, r < g.lines → q < g.cols →
    t.cells r q =
      if (top + r) * g.cols + q < text.length ∨ top = 0 then text[(top + r) * g.cols + q]?
      else text[(top + r) * g.cols + q - g.cols]?

/-- How many lines a text of `n` characters begins. -/
def Grid.begun (g : Grid) (n : Nat) : Nat := (n + g.cols - 1) / g.cols

/-- The index of the character that line `r` shows in column `q` after `n` characters. What
the last line has not got yet, it shows from the line before. -/
def Grid.shown (g : Grid) (n r q : Nat) : Nat :=
  let k := (r + (g.begun n - g.lines)) * g.cols + q
  if k < n ∨ g.begun n ≤ g.lines then k else k - g.cols

section Text
variable {g : Grid} {text : List (UInt32 × Colour)} {top : Nat} {t : Terminal}

theorem written_empty : Written g [] 0 .empty where
  count := by simp [Terminal.empty]
  row := g.linesPos
  scrolled := fun h => absurd h (Nat.lt_irrefl 0)
  cells := fun r q _ _ => by simp [Terminal.empty]

/-- A full last line makes the others move up. -/
theorem written_scroll (h : Written g text top t) (full : t.col = g.cols)
    (last : t.row + 1 = g.lines) :
    Written g text (top + 1) (({ t with row := t.row + 1, col := 0 } : Terminal).scroll g) := by
  have hcount : (top + t.row + 1) * g.cols = text.length := by
    rw [Nat.succ_mul, ← h.count, full]
  rw [Terminal.scroll, if_pos last.ge]
  refine ⟨?_, Nat.sub_lt g.linesPos Nat.one_pos, fun _ => Nat.sub_add_cancel g.linesPos, ?_⟩
  · rw [← hcount, Nat.add_zero]
    congr 1
    simp only
    omega
  intro r q hr hq
  have hsame : top + 1 + r = top + (r + 1) := by omega
  simp only [hsame, Nat.succ_ne_zero, or_false]
  by_cases hmoved : r + 1 < g.lines
  · have hlines : (top + (r + 1) + 1) * g.cols ≤ text.length := by
      rw [← hcount]
      exact Nat.mul_le_mul_right _ (by omega)
    rw [Nat.succ_mul] at hlines
    rw [if_pos hmoved, h.cells _ _ hmoved hq, if_pos (.inl (by omega)), if_pos (by omega)]
  · have hlines : text.length ≤ (top + (r + 1)) * g.cols := by
      rw [← hcount]
      exact Nat.mul_le_mul_right _ (by omega)
    have hprev : (top + (r + 1)) * g.cols = (top + r) * g.cols + g.cols := Nat.succ_mul ..
    have hin : (top + r) * g.cols + q < text.length :=
      calc (top + r) * g.cols + q < (top + r + 1) * g.cols := by
            rw [Nat.succ_mul]
            omega
        _ ≤ (top + t.row + 1) * g.cols := Nat.mul_le_mul_right _ (by omega)
        _ = text.length := hcount
    rw [if_neg hmoved, h.cells _ _ hr hq, if_pos (.inl hin), if_neg (by omega), hprev]
    congr 1
    omega

/-- Where there is room for a character the count of lines is right again. -/
theorem written_room (h : Written g text top t) (hcol : t.col ≤ g.cols) :
    ∃ top', Written g text top' ((t.wrap g).scroll g) ∧ ((t.wrap g).scroll g).col < g.cols := by
  by_cases hfull : g.cols ≤ t.col
  · have heq : t.col = g.cols := Nat.le_antisymm hcol hfull
    rw [Terminal.wrap, if_pos hfull]
    by_cases hlast : t.row + 1 = g.lines
    · refine ⟨_, written_scroll h heq hlast, ?_⟩
      rw [scroll_col]
      exact g.colsPos
    · have hrow := h.row
      have htop : top = 0 := by
        by_contra hne
        exact hlast (h.scrolled (Nat.pos_of_ne_zero hne))
      subst htop
      have hcount := h.count
      rw [heq, ← Nat.succ_mul] at hcount
      rw [Terminal.scroll, if_neg (show ¬ g.lines ≤ t.row + 1 by omega)]
      exact ⟨0, ⟨hcount, by show t.row + 1 < g.lines; omega, fun h => absurd h (Nat.lt_irrefl 0),
        h.cells⟩, g.colsPos⟩
  · have hrow := h.row
    rw [Terminal.wrap, if_neg hfull, Terminal.scroll, if_neg (by omega)]
    exact ⟨top, h, by omega⟩

theorem written_put (h : Written g text top t) (hcol : t.col < g.cols)
    (entry : UInt32 × Colour) :
    Written g (text ++ [entry]) top
      ⟨fun r q => if r = t.row ∧ q = t.col then some entry else t.cells r q, t.row,
        t.col + 1⟩ := by
  have hcount := h.count
  have hrow := h.row
  refine ⟨?_, hrow, h.scrolled, ?_⟩
  · rw [List.length_append, ← hcount]
    rfl
  intro r q hr hq
  simp only [List.length_append, List.length_singleton]
  by_cases hhere : r = t.row ∧ q = t.col
  · rw [if_pos hhere, hhere.1, hhere.2, hcount, if_pos (.inl (Nat.lt_succ_self _)),
      List.getElem?_concat_length]
  -- Another cell: its character is not the new one.
  have hne : (top + r) * g.cols + q ≠ text.length := by
    rw [← hcount]
    intro heq
    have hline : top + r = top + t.row := by
      have hdiv := congrArg (· / g.cols) heq
      simpa [Nat.mul_add_div g.colsPos, Nat.mul_comm _ g.cols, Nat.div_eq_of_lt hq,
        Nat.div_eq_of_lt hcol] using hdiv
    exact hhere ⟨by omega, by rw [hline] at heq; omega⟩
  rw [if_neg hhere, h.cells r q hr hq]
  by_cases hbefore : (top + r) * g.cols + q < text.length
  · rw [if_pos (.inl hbefore), if_pos (.inl (by omega)), List.getElem?_append_left hbefore]
  by_cases htop : top = 0
  · rw [if_pos (.inr htop), if_pos (.inr htop),
      List.getElem?_eq_none (l := text) (by omega),
      List.getElem?_eq_none (by simp; omega)]
  · have hlast := h.scrolled (Nat.pos_of_ne_zero htop)
    have hold : (top + r) * g.cols + q - g.cols < text.length := by
      have hle : (top + r) * g.cols ≤ (top + t.row) * g.cols :=
        Nat.mul_le_mul_right _ (by omega)
      have hpos : 1 * g.cols ≤ (top + r) * g.cols := Nat.mul_le_mul_right _ (by omega)
      omega
    rw [if_neg (by omega), if_neg (by omega), List.getElem?_append_left hold]

theorem written_text (text : List (UInt32 × Colour)) :
    ∃ top, Written g text top (text.foldl (fun t e => t.write g e.1 e.2) .empty) ∧
      (text.foldl (fun t e => t.write g e.1 e.2) Terminal.empty).col ≤ g.cols ∧
      (text ≠ [] → 0 < (text.foldl (fun t e => t.write g e.1 e.2) Terminal.empty).col) := by
  induction text using List.reverseRecOn with
  | nil => exact ⟨0, written_empty, Nat.zero_le _, fun h => absurd rfl h⟩
  | append_singleton text entry ih =>
      obtain ⟨top, hwritten, hcol, -⟩ := ih
      obtain ⟨top', hroom, hcol'⟩ := written_room hwritten hcol
      rw [List.foldl_append]
      exact ⟨top', written_put hroom hcol' entry, hcol', fun _ => Nat.succ_pos _⟩

theorem written_top (h : Written g text top t) (hcol : t.col ≤ g.cols)
    (hpos : text ≠ [] → 0 < t.col) : top = g.begun text.length - g.lines := by
  have hcount := h.count
  have hrow := h.row
  have hcols := g.colsPos
  by_cases hempty : text = []
  · rw [hempty, List.length_nil, Nat.add_eq_zero_iff, Nat.mul_eq_zero] at hcount
    rw [hempty, Grid.begun, List.length_nil, Nat.zero_add, Nat.div_eq_of_lt (by omega)]
    omega
  have hpen := hpos hempty
  have hbegun : g.begun text.length = top + t.row + 1 := by
    rw [Grid.begun, ← hcount, Nat.div_eq_iff hcols, Nat.succ_mul]
    omega
  rw [hbegun]
  by_cases htop : top = 0
  · omega
  · have hlast := h.scrolled (Nat.pos_of_ne_zero htop)
    omega

/-- What is in each cell after a text without a newline. -/
theorem cells_text (text : List (UInt32 × Colour)) {r q : Nat} (hr : r < g.lines)
    (hq : q < g.cols) :
    (text.foldl (fun t e => t.write g e.1 e.2) Terminal.empty).cells r q =
      text[g.shown text.length r q]? := by
  obtain ⟨top, hwritten, hcol, hpos⟩ := written_text (g := g) text
  have htop := written_top hwritten hcol hpos
  have hscrolled : top = 0 ↔ g.begun text.length ≤ g.lines := by omega
  simp only [hwritten.cells r q hr hq, Grid.shown, Nat.add_comm r, ← htop, ← hscrolled]
  split <;> rfl

end Text

def Glyph.entry (gl : Glyph) : UInt32 × Colour := (unicodeOf gl.char, gl.fg)

theorem text_write {face : Face} {g : Grid} {w : Nat} (text : List Glyph)
    (htext : ∀ gl ∈ text, face.Cell g (unicodeOf gl.char)) (t : Terminal) :
    text.foldl (Terminal.type face g w) t =
      (text.map Glyph.entry).foldl (fun t e => t.write g e.1 e.2) t := by
  induction text generalizing t with
  | nil => rfl
  | cons gl text ih =>
      have hfeed := (htext gl (List.mem_cons_self ..)).notFeed
      rw [List.foldl_cons, List.map_cons, List.foldl_cons, Terminal.type, if_neg hfeed,
        ih fun x hx => htext x (List.mem_cons_of_mem _ hx)]
      rfl

/-- After `consoleInit`, a clear and any monospaced text the framebuffer shows the terminal
the text was typed on, and nothing is outside the whole lines and columns. -/
theorem console_shows_terminal {font : Font} {face : Face} (readable : Readable font face)
    {fb : LimineFramebuffer} {sc : Screen} (backs : Backs fb sc)
    (tall : 2 * face.lineHeight ≤ sc.h) {g : Grid} (fits : g.Fits face sc.w sc.h) (s : Machine)
    (color : UInt32) {text : List Glyph}
    (htext : ∀ gl ∈ text, face.Text g (unicodeOf gl.char)) :
    ∃ s₀ s', (consoleInit fb).Returns s () s₀ ∧
      ScreenRun font s₀ (.clear color :: text.map .put) s' ∧
      ∀ s'', ScreenRun font s₀ (.clear color :: text.map .put) s'' →
        (Terminal.text face g sc.w text).Legal face g ∧
          OnScreen face g sc color (Terminal.text face g sc.w text) s'' := by
  obtain ⟨⟨s', hrun⟩, hall⟩ := screenRun_text readable backs tall fits s color htext
  exact ⟨_, s', consoleInit_returns fb s, hrun, hall⟩

/-- Two columns and four lines. -/
def cardGrid : Grid where
  lines := cardScreen.h
  cols := 2
  lineHeight := letterFace.lineHeight
  advance := 8
  width := 8
  height := 1
  linesPos := cardScreen.high
  colsPos := by decide
  linePos := letterFace.linePos
  advancePos := by decide
  widthLe := by decide
  heightLe := by decide

theorem cardGrid_fits : cardGrid.Fits letterFace 16 4 := ⟨rfl, rfl, rfl⟩

theorem letter_cells (fg bg : Colour) : letterShape.cells fg bg = [ink fg bg (byteBits 0x18)] :=
  rfl

theorem letter_cells_fill (fg bg : Colour) :
    (letterShape.cells fg bg).length = cardGrid.height ∧
      ∀ row ∈ letterShape.cells fg bg, row.length = cardGrid.width := by
  rw [letter_cells]
  refine ⟨rfl, ?_⟩
  rw [List.forall_mem_singleton]
  rfl

theorem letter_cell : letterFace.Cell cardGrid 65 :=
  ⟨by decide, by decide, by decide, letterShape, rfl, rfl, rfl, letter_cells_fill⟩

theorem console_shows_terminal_letter :
    ∃ s₀ s', (consoleInit cardFramebuffer).Returns Machine.reset () s₀ ∧
      ScreenRun letterFont s₀ (.clear 7 :: ([⟨65, 1⟩, ⟨10, 1⟩, ⟨65, 2⟩] : List Glyph).map .put)
        s' ∧
      ∀ s'', ScreenRun letterFont s₀
          (.clear 7 :: ([⟨65, 1⟩, ⟨10, 1⟩, ⟨65, 2⟩] : List Glyph).map .put) s'' →
        (Terminal.text letterFace cardGrid 16 [⟨65, 1⟩, ⟨10, 1⟩, ⟨65, 2⟩]).Legal letterFace
          cardGrid ∧
        OnScreen letterFace cardGrid cardScreen 7
          (Terminal.text letterFace cardGrid 16 [⟨65, 1⟩, ⟨10, 1⟩, ⟨65, 2⟩]) s'' := by
  refine console_shows_terminal letterFont_readable cardScreen_backs (by decide) cardGrid_fits
    Machine.reset 7 ?_
  rw [List.forall_mem_cons, List.forall_mem_cons, List.forall_mem_singleton]
  exact ⟨.inr letter_cell, .inl rfl, .inr letter_cell⟩

/-- The screen after a text without a newline, cell by cell: the last lines that the text
begins, and in the last line, right of the pen, what stood there before it moved up. -/
theorem console_shows_text {font : Font} {face : Face} (readable : Readable font face)
    {fb : LimineFramebuffer} {sc : Screen} (backs : Backs fb sc)
    (tall : 2 * face.lineHeight ≤ sc.h) {g : Grid} (fits : g.Fits face sc.w sc.h) (s : Machine)
    (color : UInt32) {text : List Glyph}
    (htext : ∀ gl ∈ text, face.Cell g (unicodeOf gl.char)) :
    ∃ s₀ s', (consoleInit fb).Returns s () s₀ ∧
      ScreenRun font s₀ (.clear color :: text.map .put) s' ∧
      ∀ s'', ScreenRun font s₀ (.clear color :: text.map .put) s'' →
        ∀ r q i j, r < g.lines → q < g.cols → i < g.advance → j < g.lineHeight →
          s''.mem.Block (sc.place (q * g.advance + i) (r * g.lineHeight + j))
            (bytes32 (face.pixel (0xff000000 ||| color) color
              ((text.map Glyph.entry)[g.shown text.length r q]?) i j)) := by
  obtain ⟨⟨s', hrun⟩, hall⟩ := screenRun_text readable backs tall fits s color
    fun gl hgl => .inr (htext gl hgl)
  refine ⟨_, s', consoleInit_returns fb s, hrun, ?_⟩
  intro s'' hrun' r q i j hr hq hi hj
  have hx : q * g.advance + i < sc.w :=
    calc q * g.advance + i < (q + 1) * g.advance := by
          rw [Nat.succ_mul]
          omega
      _ ≤ g.cols * g.advance := Nat.mul_le_mul_right _ hq
      _ ≤ sc.w := fits.cols ▸ Nat.div_mul_le_self sc.w g.advance
  have hy : r * g.lineHeight + j < sc.h :=
    calc r * g.lineHeight + j < (r + 1) * g.lineHeight := by
          rw [Nat.succ_mul]
          omega
      _ ≤ g.lines * g.lineHeight := Nat.mul_le_mul_right _ hr
      _ ≤ sc.h := fits.lines ▸ Nat.div_mul_le_self sc.h g.lineHeight
  have hpixel := (hall s'' hrun').2.pixels _ _ hx hy
  have hcell := cells_text (text.map Glyph.entry) hr hq
  rw [List.length_map] at hcell
  rw [Terminal.text, text_write text htext, Terminal.picture, Nat.mul_comm q, Nat.mul_comm r,
    Nat.mul_add_div g.advancePos, Nat.mul_add_div g.linePos, Nat.div_eq_of_lt hi,
    Nat.div_eq_of_lt hj, Nat.add_zero, Nat.add_zero, hcell, Nat.mul_add_mod, Nat.mul_add_mod,
    Nat.mod_eq_of_lt hi, Nat.mod_eq_of_lt hj] at hpixel
  rw [Nat.mul_comm q, Nat.mul_comm r]
  exact hpixel

/-- Nine letters on a grid of eight cells: the first line is gone, and the last one still
shows the eighth letter. -/
theorem console_shows_text_letters :
    ∃ s₀ s', (consoleInit cardFramebuffer).Returns Machine.reset () s₀ ∧
      ScreenRun letterFont s₀
        (.clear 7 :: ((List.range 9).map fun n => ⟨65, UInt32.ofNat n⟩).map .put) s' ∧
      ∀ s'', ScreenRun letterFont s₀
          (.clear 7 :: ((List.range 9).map fun n => ⟨65, UInt32.ofNat n⟩).map .put) s'' →
        ∀ i, i < 8 →
          s''.mem.Block (cardScreen.place i 3)
            (bytes32 (letterFace.pixel 0xff000007 7 (some (65, 8)) i 0)) ∧
          s''.mem.Block (cardScreen.place (8 + i) 3)
            (bytes32 (letterFace.pixel 0xff000007 7 (some (65, 7)) i 0)) := by
  have htext : ∀ gl ∈ (List.range 9).map fun n => (⟨65, UInt32.ofNat n⟩ : Glyph),
      letterFace.Cell cardGrid (unicodeOf gl.char) := by
    intro gl hgl
    obtain ⟨n, -, rfl⟩ := List.mem_map.mp hgl
    exact letter_cell
  obtain ⟨s₀, s', hinit, hrun, hall⟩ := console_shows_text letterFont_readable cardScreen_backs
    (by decide) cardGrid_fits Machine.reset 7 htext
  refine ⟨s₀, s', hinit, hrun, ?_⟩
  intro s'' hrun' i hi
  have hfirst := hall s'' hrun' 3 0 i 0 (by decide) (by decide) hi (by decide)
  have hsecond := hall s'' hrun' 3 1 i 0 (by decide) (by decide) hi (by decide)
  rw [Nat.zero_mul, Nat.zero_add] at hfirst
  exact ⟨hfirst, hsecond⟩

end BenchOS
