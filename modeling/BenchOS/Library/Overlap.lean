import Mathlib.Data.Set.Function
import Mathlib.Logic.Function.Basic
import Mathlib.Tactic.Common

/-!
A sequence of copies inside one store, each from a place to a place, when a copy may
read what an earlier one has written.

`Traced` names for every copy the place whose first value it moves. Once that is
known the result is the same for every order and every overlap, so a loop is settled
by its origins alone.
-/
namespace Overlap
variable {A V : Type} [DecidableEq A]

/-- The store after the copies from `src i` to `dst i` for the `i` below the count. -/
def copied (m : A → V) (dst src : Nat → A) : Nat → A → V
  | 0 => m
  | i + 1 => Function.update (copied m dst src i) (dst i) (copied m dst src i (src i))

/-- Copy `i` moves what first stood at `origin i`: it reads a place that no earlier copy
wrote, or what an earlier copy has moved. -/
def Traced (dst src origin : Nat → A) (n : Nat) : Prop :=
  ∀ i, i < n → (origin i = src i ∧ ∀ j, j < i → dst j ≠ src i) ∨
    ∃ j, j < i ∧ dst j = src i ∧ origin i = origin j

theorem copied_add (m : A → V) (dst src : Nat → A) (n k : Nat) :
    copied m dst src (n + k) =
      copied (copied m dst src n) (fun j => dst (n + j)) (fun j => src (n + j)) k := by
  induction k with
  | zero => rfl
  | succ k ih => rw [← Nat.add_assoc, copied, copied, ih]

theorem foldl_copied (m : A → V) (dst src : Nat → A) (n : Nat) :
    (List.range n).foldl (fun m i => Function.update m (dst i) (m (src i))) m =
      copied m dst src n := by
  induction n with
  | zero => rfl
  | succ n ih => rw [List.range_succ, List.foldl_append, ih]; rfl

variable {m : A → V} {dst src origin : Nat → A} {n : Nat}

theorem copied_outside {a : A} (h : ∀ i, i < n → dst i ≠ a) : copied m dst src n a = m a := by
  induction n with
  | zero => rfl
  | succ n ih =>
      have hne : a ≠ dst n := (h n (Nat.lt_succ_self n)).symm
      rw [copied, Function.update_of_ne hne]
      exact ih fun i hi => h i (Nat.lt_succ_of_lt hi)

/-- Every written place ends with the first value of its origin. -/
theorem copied_at (hd : Set.InjOn dst {i | i < n}) (h : Traced dst src origin n) {i : Nat}
    (hi : i < n) : copied m dst src n (dst i) = m (origin i) := by
  induction n generalizing i with
  | zero => exact absurd hi (Nat.not_lt_zero i)
  | succ n ih =>
      have hd' : Set.InjOn dst {i | i < n} := hd.mono fun j hj => Nat.lt_succ_of_lt hj
      have h' : Traced dst src origin n := fun j hj => h j (Nat.lt_succ_of_lt hj)
      rw [copied]
      cases Nat.lt_succ_iff_lt_or_eq.mp hi with
      | inl hlt =>
          have hne : dst i ≠ dst n := by
            intro heq
            exact absurd (hd hi (Nat.lt_succ_self n) heq) (Nat.ne_of_lt hlt)
          rw [Function.update_of_ne hne]
          exact ih hd' h' hlt
      | inr heq =>
          subst heq
          rw [Function.update_self]
          cases h i hi with
          | inl hold => rw [copied_outside hold.2, hold.1]
          | inr hcopied =>
              obtain ⟨j, hj, hread, horigin⟩ := hcopied
              rw [← hread, ih hd' h' hj, horigin]

end Overlap
