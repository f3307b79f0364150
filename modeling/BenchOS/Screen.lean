import BenchOS.Library.Blocks
import BenchOS.Library.Picture
import BenchOS.Library.Overlap
import BenchOS.Pixels
import BenchOS.Renderer

/-!
The screen between bytes and pictures. A screen is a framebuffer whose geometry fits the
renderer's record; its memory depicts a picture when each pixel holds the colour. A store
at a pixel is a change of one place of the picture, and the row copies of the scrolling
move the picture up.
-/
namespace BenchOS
namespace Renderer

/-- A framebuffer of 32-bit pixels that the renderer's `int`s can address. -/
structure Screen where
  base : UInt64
  w : Nat
  h : Nat
  p : Nat
  base_ne : base ≠ 0
  wide : 0 < w
  high : 0 < h
  aligned : 4 ∣ p
  rowHolds : 4 * w ≤ p
  pitch : p < 2 ^ 16
  size : p * h < 2 ^ 31

namespace Screen
variable (sc : Screen)

def start : Location := ⟨.ram, sc.base⟩

/-- Where the pixel in column `x` of row `y` stands. -/
def place (x y : Nat) : Location := sc.start.add (y * sc.p + 4 * x)

theorem place_right (x y j : Nat) :
    (sc.place x y).off + UInt64.ofNat (4 * j) = (sc.place (x + j) y).off := by
  have hsum : y * sc.p + 4 * (x + j) = y * sc.p + 4 * x + 4 * j := by omega
  simp only [place, Loc.add, hsum, UInt64.ofNat_add, UInt64.add_assoc]

theorem place_down (x y : Nat) :
    (sc.place x y).off + UInt64.ofNat (4 * (sc.p / 4)) = (sc.place x (y + 1)).off := by
  have hsum : (y + 1) * sc.p + 4 * x = y * sc.p + 4 * x + 4 * (sc.p / 4) := by
    rw [Nat.mul_div_cancel' sc.aligned, Nat.succ_mul]
    omega
  simp only [place, Loc.add, hsum, UInt64.ofNat_add, UInt64.add_assoc]

variable {sc} {x y : Nat}

/-- The row of a pixel ends within the framebuffer. -/
theorem row_within (hy : y < sc.h) : y * sc.p + sc.p ≤ sc.p * sc.h := by
  calc y * sc.p + sc.p = (y + 1) * sc.p := (Nat.succ_mul y sc.p).symm
    _ ≤ sc.h * sc.p := Nat.mul_le_mul_right _ hy
    _ = sc.p * sc.h := Nat.mul_comm _ _

theorem offset_within (hx : x < sc.w) (hy : y < sc.h) :
    y * sc.p + 4 * x + 4 ≤ sc.p * sc.h := by
  have hrow := sc.row_within hy
  have hholds := sc.rowHolds
  omega

theorem place_within (hx : x < sc.w) (hy : y < sc.h) {b : Location}
    (hb : (sc.place x y).Covers 4 b) : sc.start.Covers (sc.p * sc.h) b :=
  hb.of_add (offset_within hx hy) (by have := sc.size; omega)

/-- Different pixels have no byte in common. -/
theorem places_apart {x' y' : Nat} (hx : x < sc.w) (hy : y < sc.h) (hx' : x' < sc.w)
    (hy' : y' < sc.h) (hne : ¬ (x = x' ∧ y = y')) :
    (sc.place x y).Apart 4 (sc.place x' y') 4 := by
  have hsize := sc.size
  have hin := offset_within hx hy
  have hin' := offset_within hx' hy'
  have hholds := sc.rowHolds
  apply sc.start.apart_add (by omega) (by omega)
  obtain hlt | heq | hgt := Nat.lt_trichotomy y y'
  · have hrow : (y + 1) * sc.p ≤ y' * sc.p := Nat.mul_le_mul_right _ hlt
    rw [Nat.succ_mul] at hrow
    omega
  · subst heq
    omega
  · have hrow : (y' + 1) * sc.p ≤ y * sc.p := Nat.mul_le_mul_right _ hgt
    rw [Nat.succ_mul] at hrow
    omega

end Screen

/-- Every pixel of the screen holds the colour of the picture. -/
def Depicts (sc : Screen) (m : Mem Object) (pic : Picture UInt32) : Prop :=
  ∀ x y, x < sc.w → y < sc.h → m.Block (sc.place x y) (bytes32 (pic x y))

/-- `m` depicts `pic` and agrees with `m₀` outside the framebuffer. -/
structure Painted (sc : Screen) (m₀ m : Mem Object) (pic : Picture UInt32) : Prop where
  depicts : Depicts sc m pic
  outside : ∀ b, ¬ sc.start.Covers (sc.p * sc.h) b → m b = m₀ b

section Painted
variable {sc : Screen} {m₀ m : Mem Object} {pic pic' : Picture UInt32}

theorem Painted.congr (h : Painted sc m₀ m pic)
    (same : ∀ x y, x < sc.w → y < sc.h → pic' x y = pic x y) : Painted sc m₀ m pic' :=
  ⟨fun x y hx hy => by rw [same x y hx hy]; exact h.depicts x y hx hy, h.outside⟩

theorem Painted.store {x y : Nat} (h : Painted sc m₀ m pic) (hx : x < sc.w) (hy : y < sc.h)
    (v : UInt32) : Painted sc m₀ (store32 m (sc.place x y).off v) (pic.put x y v) := by
  have hplace : (⟨.ram, (sc.place x y).off⟩ : Location) = sc.place x y := rfl
  constructor
  · intro a b ha hb
    rw [store32, hplace, Picture.put]
    by_cases hsame : a = x ∧ b = y
    · rw [if_pos hsame, hsame.1, hsame.2]
      exact m.block_blit _ (by simp)
    · rw [if_neg hsame]
      have hapart := Screen.places_apart ha hb hx hy hsame
      intro i hi
      have hcover := (sc.place a b).add_covers hi (by simp)
      rw [m.blit_outside _ fun hc => hapart _ ⟨hcover, hc⟩]
      exact h.depicts a b ha hb i hi
  · intro b hb
    rw [store32, hplace, m.blit_outside _ fun hc => hb (Screen.place_within hx hy hc)]
    exact h.outside b hb

/-- What is stamped right of the screen or below it is not seen. -/
theorem Painted.stamp_beyond {x y : Nat} (h : Painted sc m₀ m pic) (rows : List (List UInt32))
    (hbeyond : sc.w ≤ x ∨ sc.h ≤ y) : Painted sc m₀ m (pic.stamp x y rows) := by
  apply h.congr
  intro a b ha hb
  obtain hright | hbelow := hbeyond
  · exact pic.stamp_left x y (Nat.lt_of_lt_of_le ha hright) b rows
  · exact pic.stamp_above x y a (Nat.lt_of_lt_of_le hb hbelow) rows

end Painted

section Scroll
open Overlap
variable (base : Location) (p i : Nat)

/-- The copies of all rows are one copy, byte after byte. -/
theorem copyRows_eq (j : Nat) (m : Mem Object) :
    copyRows base p i j m = copied m base.add (fun t => base.add (i * p + t)) (j * p) := by
  induction j with
  | zero => rw [Nat.zero_mul]; rfl
  | succ j ih =>
      have hsrc : ∀ l, (j + i) * p + l = i * p + (j * p + l) := by
        intro l
        rw [Nat.add_mul]
        omega
      have hstep : copyRows base p i (j + 1) m = copyRow base p i j (copyRows base p i j m) := by
        rw [copyRows, List.range_succ, List.foldl_append]
        rfl
      rw [hstep, copyRow, ih, foldl_copied, Nat.succ_mul, copied_add]
      simp only [hsrc]

theorem copyRows_at {j : Nat} (m : Mem Object) (hsize : (i + j) * p < 2 ^ 64) {t : Nat}
    (ht : t < j * p) : copyRows base p i j m (base.add t) = m (base.add (i * p + t)) := by
  have hsum : (i + j) * p = i * p + j * p := Nat.add_mul i j p
  have htraced : Traced (fun t => base.add t) (fun t => base.add (i * p + t))
      (fun t => base.add (i * p + t)) (j * p) := by
    intro a ha
    refine .inl ⟨rfl, ?_⟩
    intro b hb heq
    have hsame := (base.add_inj (by omega) (by omega)).mp heq
    omega
  rw [copyRows_eq]
  refine copied_at ?_ htraced ht
  intro a ha b hb heq
  have ha' : a < j * p := ha
  have hb' : b < j * p := hb
  exact (base.add_inj (by omega) (by omega)).mp heq

theorem copyRows_outside {j : Nat} (m : Mem Object) {b : Location}
    (hb : ∀ t, t < j * p → base.add t ≠ b) : copyRows base p i j m b = m b := by
  rw [copyRows_eq]
  exact copied_outside hb

end Scroll

/-- The row copies of the scrolling move the picture. -/
theorem Painted.copyRows {sc : Screen} {m₀ m : Mem Object} {pic : Picture UInt32}
    (h : Painted sc m₀ m pic) {i j : Nat} (hij : j + i ≤ sc.h) :
    Painted sc m₀ (copyRows sc.start sc.p i j m) (pic.moveUp i j) := by
  have hsize := sc.size
  have hall : (i + j) * sc.p ≤ sc.p * sc.h := by
    rw [Nat.mul_comm sc.p]
    exact Nat.mul_le_mul_right _ (by omega)
  have hsplit : (i + j) * sc.p = i * sc.p + j * sc.p := Nat.add_mul i j sc.p
  constructor
  · intro x y hx hy b hb
    have hb4 : b < 4 := hb
    have hholds := sc.rowHolds
    rw [Picture.moveUp, Screen.place, Loc.add_add]
    by_cases hmoved : y < j
    · have hrow : (y + 1) * sc.p ≤ j * sc.p := Nat.mul_le_mul_right _ hmoved
      rw [Nat.succ_mul] at hrow
      have hfrom : i * sc.p + (y * sc.p + 4 * x + b) = (y + i) * sc.p + 4 * x + b := by
        rw [Nat.add_mul]
        omega
      rw [if_pos hmoved, copyRows_at sc.start sc.p i m (by omega) (by omega), hfrom, ← Loc.add_add]
      exact h.depicts x (y + i) hx (by omega) b (by simpa using hb4)
    · have hrow : j * sc.p ≤ y * sc.p := Nat.mul_le_mul_right _ (by omega)
      have hin := Screen.offset_within hx hy
      rw [if_neg hmoved, copyRows_outside sc.start sc.p i m, ← Loc.add_add]
      · exact h.depicts x y hx hy b (by simpa using hb4)
      · intro t ht heq
        have hsame := (sc.start.add_inj (by omega) (by omega)).mp heq
        omega
  · intro b hb
    rw [copyRows_outside sc.start sc.p i m]
    · exact h.outside b hb
    · rintro t ht rfl
      exact hb (sc.start.add_covers (by omega) (by omega))

end Renderer
end BenchOS
