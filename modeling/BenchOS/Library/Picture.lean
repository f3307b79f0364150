import Mathlib.Data.List.Basic
import Mathlib.Tactic.Common

/-!
Pictures without bounds, as functions of a column and a row. A block of rows, ragged on
the right, is stamped onto a picture; a picture is moved up by some rows above a line.
-/

abbrev Picture (V : Type) : Type := Nat → Nat → V

namespace Picture
variable {V : Type}

/-- One pixel is replaced. -/
def put (pic : Picture V) (x y : Nat) (v : V) : Picture V := fun a b =>
  if a = x ∧ b = y then v else pic a b

/-- The rows `rows` from row `y` on, each from column `x` on. -/
def stamp (pic : Picture V) (x y : Nat) (rows : List (List V)) : Picture V := fun a b =>
  if x ≤ a ∧ y ≤ b then ((rows[b - y]?).bind fun row => row[a - x]?).getD (pic a b) else pic a b

/-- The rows above `limit` show what was `d` rows below them. -/
def moveUp (pic : Picture V) (d limit : Nat) : Picture V := fun a b =>
  if b < limit then pic a (b + d) else pic a b

variable (pic : Picture V) (x y : Nat)

theorem stamp_left {a : Nat} (h : a < x) (b : Nat) (rows : List (List V)) :
    pic.stamp x y rows a b = pic a b :=
  if_neg fun hin => absurd hin.1 (Nat.not_le.mpr h)

theorem stamp_above {b : Nat} (a : Nat) (h : b < y) (rows : List (List V)) :
    pic.stamp x y rows a b = pic a b :=
  if_neg fun hin => absurd hin.2 (Nat.not_le.mpr h)

theorem stamp_below {b : Nat} (a : Nat) {rows : List (List V)} (h : y + rows.length ≤ b) :
    pic.stamp x y rows a b = pic a b := by
  have hrow : rows[b - y]? = none := List.getElem?_eq_none (by omega)
  rw [stamp]
  split
  · rw [hrow, Option.bind_none, Option.getD_none]
  · rfl

theorem stamp_right {a : Nat} {n : Nat} (h : x + n ≤ a) (b : Nat) {rows : List (List V)}
    (width : ∀ row ∈ rows, row.length ≤ n) : pic.stamp x y rows a b = pic a b := by
  rw [stamp]
  split
  · cases hrow : rows[b - y]? with
    | none => rw [Option.bind_none, Option.getD_none]
    | some row =>
        have hlen := width row (List.mem_of_getElem? hrow)
        rw [Option.bind_some, List.getElem?_eq_none (by omega), Option.getD_none]
  · rfl

theorem stamp_at {i j : Nat} {rows : List (List V)} {row : List V} {v : V}
    (hrow : rows[j]? = some row) (hv : row[i]? = some v) :
    pic.stamp x y rows (x + i) (y + j) = v := by
  rw [stamp, if_pos ⟨Nat.le_add_right x i, Nat.le_add_right y j⟩, Nat.add_sub_cancel_left,
    Nat.add_sub_cancel_left, hrow, Option.bind_some, hv, Option.getD_some]

@[simp] theorem stamp_nil : pic.stamp x y [] = pic := by
  funext a b
  simp [stamp]

@[simp] theorem stamp_empty_row : pic.stamp x y [[]] = pic := by
  funext a b
  by_cases ha : x ≤ a
  · exact pic.stamp_right x y (n := 0) ha b (by simp)
  · exact pic.stamp_left x y (Nat.lt_of_not_le ha) b _

/-- Row after row, the upper ones first. -/
theorem stamp_append (rows rows' : List (List V)) :
    pic.stamp x y (rows ++ rows') = (pic.stamp x y rows).stamp x (y + rows.length) rows' := by
  funext a b
  by_cases hb : b < y + rows.length
  · rw [stamp_above _ _ _ _ hb, stamp, stamp]
    by_cases hin : x ≤ a ∧ y ≤ b
    · rw [if_pos hin, if_pos hin, List.getElem?_append_left (by omega)]
    · rw [if_neg hin, if_neg hin]
  · rw [stamp, stamp]
    by_cases ha : x ≤ a
    · rw [if_pos ⟨ha, by omega⟩, if_pos ⟨ha, by omega⟩, List.getElem?_append_right (by omega),
        stamp_below _ _ _ _ (by omega), Nat.sub_sub]
    · rw [if_neg fun h => ha h.1, if_neg fun h => ha h.1, stamp_left _ _ _ (by omega)]

/-- Pixel after pixel, from the left. -/
theorem stamp_cons_row (v : V) (row : List V) :
    pic.stamp x y [v :: row] = (pic.put x y v).stamp (x + 1) y [row] := by
  funext a b
  by_cases hrow : b = y
  · subst hrow
    by_cases hleft : a < x
    · rw [stamp_left _ _ _ hleft, stamp_left _ _ _ (by omega), put, if_neg (by omega)]
    · by_cases hhere : a = x
      · subst hhere
        rw [stamp_left _ _ _ (Nat.lt_succ_self a), put, if_pos ⟨rfl, rfl⟩]
        exact pic.stamp_at a b (i := 0) (j := 0) rfl rfl
      · obtain ⟨i, rfl⟩ : ∃ i, a = x + 1 + i := ⟨a - (x + 1), by omega⟩
        have hput : pic.put x b v (x + 1 + i) b = pic (x + 1 + i) b := if_neg (by omega)
        rw [stamp, stamp, if_pos ⟨by omega, Nat.le_refl b⟩, if_pos ⟨by omega, Nat.le_refl b⟩,
          hput, Nat.sub_self, show x + 1 + i - x = i + 1 by omega, Nat.add_sub_cancel_left]
        rfl
  · have hput : pic.put x y v a b = pic a b := if_neg fun h => hrow h.2
    by_cases habove : b < y
    · rw [stamp_above _ _ _ _ habove, stamp_above _ _ _ _ habove, hput]
    · rw [stamp_below _ _ _ _ (by simp; omega), stamp_below _ _ _ _ (by simp; omega), hput]

end Picture
