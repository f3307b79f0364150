import BenchOS.Library.Picture

/-!
What the text console is for, over pictures. A font is a table of shapes: strips of bits,
each from some row on, in a box. A page is a picture and a pen. A character that does not
fit in the line goes to the next one; below the last whole line the page moves up; then
the shape is stamped and the pen advances.

Moving up leaves the last line as it was. What stood there is drawn over only where new
characters come.
-/
namespace BenchOS

abbrev Colour : Type := UInt32

structure Strip where
  top : Nat
  rows : List (List Bool)

structure Shape where
  width : Nat
  height : Nat
  advanceX : Nat
  advanceY : Nat
  strips : List Strip

/-- The colours of a row of bits. -/
def ink (fg bg : Colour) (row : List Bool) : List Colour :=
  row.map fun bit => if bit then fg else bg

/-- The rows of the strips with background between them, from row `row` on. -/
def stripRows (width : Nat) (fg bg : Colour) : Nat → List Strip → List (List Colour)
  | _, [] => []
  | row, s :: rest =>
    List.replicate (s.top - row) (List.replicate width bg) ++ s.rows.map (ink fg bg) ++
      stripRows width fg bg (max row s.top + s.rows.length) rest

/-- The pixels of a shape, with background down to its height. -/
def Shape.cells (sh : Shape) (fg bg : Colour) : List (List Colour) :=
  stripRows sh.width fg bg 0 sh.strips ++
    List.replicate (sh.height - (stripRows sh.width fg bg 0 sh.strips).length)
      (List.replicate sh.width bg)

/-- A font: the shapes by code point. A tab needs a width to be aligned to. -/
structure Face where
  lineHeight : Nat
  shape : UInt32 → Option Shape
  linePos : 0 < lineHeight
  tabPos : ∀ sh, shape 0x09 = some sh → 0 < sh.advanceX

structure Page where
  pic : Picture Colour
  x : Nat
  y : Nat
  bg : Colour

namespace Page

/-- Where a character begins that stays in its line; a tab goes back to its stop. -/
def stop (tab : Bool) (advance : Nat) (pg : Page) : Nat :=
  if tab then pg.x - pg.x % advance else pg.x

/-- What does not fit in the line goes to the next. -/
def fit (w lineHeight : Nat) (tab : Bool) (advance : Nat) (pg : Page) : Page :=
  if w < pg.stop tab advance + advance then { pg with x := 0, y := pg.y + lineHeight }
  else { pg with x := pg.stop tab advance }

def fitTo (w lineHeight : Nat) (tab : Bool) (pg : Page) : Option Shape → Page
  | none => pg
  | some sh => pg.fit w lineHeight tab sh.advanceX

/-- Below the line at `last` the page moves up by one line. -/
def scroll (lineHeight last : Nat) (pg : Page) : Page :=
  if last < pg.y then { pg with pic := pg.pic.moveUp lineHeight last, y := last } else pg

def newline (lineHeight : Nat) (c : UInt32) (pg : Page) : Page :=
  if c = 0x0A then { pg with y := pg.y + lineHeight } else pg

end Page

/-- The top of the last whole line of a screen of `h` rows. -/
def Face.lastLine (face : Face) (h : Nat) : Nat := h - h % face.lineHeight - face.lineHeight

/-- What a character does before it is drawn. -/
def Page.settle (face : Face) (w h : Nat) (c : UInt32) (pg : Page) : Page :=
  ((pg.fitTo w face.lineHeight (c = 0x09) (face.shape c)).newline face.lineHeight c).scroll
    face.lineHeight (face.lastLine h)

/-- A character on a screen of `w` columns and `h` rows. -/
def Page.put (face : Face) (w h : Nat) (c : UInt32) (fg : Colour) (pg : Page) : Page :=
  let pg := pg.settle face w h c
  if c = 0x0D ∨ c = 0x0A then { pg with x := 0 }
  else
    match face.shape c with
    | none => pg
    | some sh =>
      { pg with
        pic := pg.pic.stamp pg.x pg.y (sh.cells fg pg.bg)
        x := pg.x + sh.advanceX
        y := pg.y + sh.advanceY }

section Settle
variable (face : Face) (w h : Nat) (c : UInt32) (pg : Page)

theorem Page.fit_x (lineHeight : Nat) (tab : Bool) (advance : Nat) :
    (pg.fit w lineHeight tab advance).x = 0 ∨
      (pg.fit w lineHeight tab advance).x + advance ≤ w := by
  rw [Page.fit]
  by_cases hwrap : w < pg.stop tab advance + advance
  · rw [if_pos hwrap]
    exact .inl rfl
  · rw [if_neg hwrap]
    exact .inr (by simpa using hwrap)

theorem Page.fitTo_y (lineHeight : Nat) (tab : Bool) (sh : Option Shape) :
    (pg.fitTo w lineHeight tab sh).y ≤ pg.y + lineHeight := by
  cases sh with
  | none => exact Nat.le_add_right _ _
  | some sh =>
      rw [Page.fitTo, Page.fit]
      split
      · exact Nat.le_refl _
      · exact Nat.le_add_right _ _

@[simp] theorem Page.fitTo_pic (lineHeight : Nat) (tab : Bool) (sh : Option Shape) :
    (pg.fitTo w lineHeight tab sh).pic = pg.pic := by
  cases sh with
  | none => rfl
  | some sh =>
      rw [Page.fitTo, Page.fit]
      split <;> rfl

@[simp] theorem Page.fitTo_bg (lineHeight : Nat) (tab : Bool) (sh : Option Shape) :
    (pg.fitTo w lineHeight tab sh).bg = pg.bg := by
  cases sh with
  | none => rfl
  | some sh =>
      rw [Page.fitTo, Page.fit]
      split <;> rfl

@[simp] theorem Page.newline_pic (lineHeight : Nat) :
    (pg.newline lineHeight c).pic = pg.pic := by
  rw [Page.newline]
  split <;> rfl

@[simp] theorem Page.newline_bg (lineHeight : Nat) : (pg.newline lineHeight c).bg = pg.bg := by
  rw [Page.newline]
  split <;> rfl

@[simp] theorem Page.scroll_bg (lineHeight last : Nat) :
    (pg.scroll lineHeight last).bg = pg.bg := by
  rw [Page.scroll]
  split <;> rfl

@[simp] theorem Page.scroll_x (lineHeight last : Nat) : (pg.scroll lineHeight last).x = pg.x := by
  rw [Page.scroll]
  split <;> rfl

theorem Page.scroll_left (lineHeight last : Nat) :
    { pg.scroll lineHeight last with x := 0 } =
      ({ pg with x := 0 } : Page).scroll lineHeight last := by
  rw [Page.scroll, Page.scroll]
  split <;> rfl

theorem Page.scroll_y (lineHeight last : Nat) : (pg.scroll lineHeight last).y ≤ last := by
  rw [Page.scroll]
  by_cases hlow : last < pg.y
  · exact Nat.le_of_eq (by rw [if_pos hlow])
  · rw [if_neg hlow]
    exact Nat.le_of_not_lt hlow

@[simp] theorem Page.newline_x (lineHeight : Nat) : (pg.newline lineHeight c).x = pg.x := by
  rw [Page.newline]
  split <;> rfl

@[simp] theorem Page.settle_bg : (pg.settle face w h c).bg = pg.bg := by
  rw [Page.settle, Page.scroll_bg, Page.newline_bg, Page.fitTo_bg]

@[simp] theorem Page.put_bg (fg : Colour) : (pg.put face w h c fg).bg = pg.bg := by
  rw [Page.put]
  by_cases hreturn : c = 0x0D ∨ c = 0x0A
  · rw [if_pos hreturn, Page.settle_bg]
  · rw [if_neg hreturn]
    cases face.shape c with
    | none => exact pg.settle_bg face w h c
    | some sh => exact pg.settle_bg face w h c

/-- Before a character is drawn the pen is not below the last line. -/
theorem Page.settle_y : (pg.settle face w h c).y ≤ face.lastLine h :=
  Page.scroll_y _ _ _

/-- Before a character is drawn it has room up to the right edge, or the pen is at the
left edge. -/
theorem Page.settle_x {sh : Shape} (hsh : face.shape c = some sh) :
    (pg.settle face w h c).x = 0 ∨ (pg.settle face w h c).x + sh.advanceX ≤ w := by
  simp only [Page.settle, hsh, Page.fitTo, Page.scroll_x, Page.newline_x]
  exact pg.fit_x w _ _ _

theorem Page.settle_x_le : (pg.settle face w h c).x ≤ pg.x := by
  simp only [Page.settle, Page.scroll_x, Page.newline_x]
  cases face.shape c with
  | none => exact Nat.le_refl _
  | some sh =>
      rw [Page.fitTo, Page.fit]
      split
      · exact Nat.zero_le _
      · show pg.stop _ _ ≤ pg.x
        rw [Page.stop]
        split
        · exact Nat.sub_le _ _
        · exact Nat.le_refl _

end Settle

/-- A page in one colour with the pen at the top. -/
def Page.blank (colour : Colour) : Page where
  pic := fun _ _ => colour
  x := 0
  y := 0
  bg := 0xff000000 ||| colour

end BenchOS
