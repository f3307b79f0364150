import Mathlib.Data.List.ProdSigma
import Mathlib.Tactic.Common

/-!
A raster of `h` rows of `w` elements in an array. An element takes `c` bytes and a row
`p`, which need not be a multiple of `c`: a row begins at the element that its first byte
falls into. Rows still follow each other without overlap and none leaves the array.
-/
namespace Raster

/-- The element in column `j` of row `i`. -/
def index (c p i j : Nat) : Nat := i * p / c + j

/-- Rows and columns, row by row. -/
def cells (h w : Nat) : List (Nat × Nat) := List.range h ×ˢ List.range w

variable {c p w h : Nat}

/-- The next row begins where this one ends or later. -/
theorem index_next_row (hc : 0 < c) (hw : c * w ≤ p) (i : Nat) :
    index c p i w ≤ index c p (i + 1) 0 := by
  rw [index, index, Nat.add_zero, ← Nat.add_mul_div_left _ _ hc, Nat.succ_mul]
  exact Nat.div_le_div_right (Nat.add_le_add_left hw _)

theorem index_row_mono {i i' : Nat} (hi : i ≤ i') : index c p i 0 ≤ index c p i' 0 :=
  Nat.div_le_div_right (Nat.mul_le_mul_right p hi)

theorem index_lt_of_row_lt (hc : 0 < c) (hw : c * w ≤ p) {i i' j : Nat} (hi : i < i')
    (hj : j < w) (j' : Nat) : index c p i j < index c p i' j' := by
  calc index c p i j < index c p i w := Nat.add_lt_add_left hj _
    _ ≤ index c p (i + 1) 0 := index_next_row hc hw i
    _ ≤ index c p i' 0 := index_row_mono hi
    _ ≤ index c p i' j' := Nat.add_le_add_left (Nat.zero_le j') _

/-- Every element lies in the array. -/
theorem index_within (hc : 0 < c) (hw : c * w ≤ p) {i j : Nat} (hi : i < h) (hj : j < w) :
    c * index c p i j + c ≤ p * h := by
  have hnext : index c p i j + 1 ≤ index c p h 0 := index_lt_of_row_lt hc hw hi hj 0
  calc c * index c p i j + c = c * (index c p i j + 1) := (Nat.mul_succ c _).symm
    _ ≤ c * (h * p / c) := Nat.mul_le_mul_left c hnext
    _ ≤ h * p := Nat.mul_div_le _ _
    _ = p * h := Nat.mul_comm h p

/-- Where `c` divides `p` no row begins inside an element. -/
theorem mul_index (hc : c ∣ p) (i j : Nat) : c * index c p i j = i * p + c * j := by
  rw [index, Nat.mul_add, Nat.mul_div_cancel' (Nat.dvd_mul_left_of_dvd hc i)]

theorem cells_succ (h w : Nat) :
    cells (h + 1) w = cells h w ++ (List.range w).map fun j => (h, j) := by
  show (List.range (h + 1)).flatMap _ = (List.range h).flatMap _ ++ _
  rw [List.range_succ, List.flatMap_append, List.flatMap_singleton]

theorem length_cells (h w : Nat) : (cells h w).length = w * h := by
  rw [cells, List.length_product, List.length_range, List.length_range, Nat.mul_comm]

theorem mem_cells {x : Nat × Nat} : x ∈ cells h w ↔ x.1 < h ∧ x.2 < w := by
  rw [cells, List.mem_product, List.mem_range, List.mem_range]

/-- Row by row the elements follow each other in the array. -/
theorem cells_increase (hc : 0 < c) (hw : c * w ≤ p) (h : Nat) :
    (cells h w).Pairwise fun x y => index c p x.1 x.2 < index c p y.1 y.2 := by
  refine List.pairwise_flatMap.mpr ⟨fun i _ => ?_, ?_⟩
  · rw [List.pairwise_map]
    exact List.pairwise_lt_range.imp fun hj => Nat.add_lt_add_left hj _
  · refine List.pairwise_lt_range.imp fun {i i'} hi x hx y hy => ?_
    obtain ⟨j, hj, rfl⟩ := List.mem_map.mp hx
    obtain ⟨j', -, rfl⟩ := List.mem_map.mp hy
    exact index_lt_of_row_lt hc hw hi (List.mem_range.mp hj) j'

end Raster
