import Mathlib.Algebra.BigOperators.Group.List.Basic
import Mathlib.Algebra.GroupWithZero.Nat
import Mathlib.Tactic.Common

/-!
A sparse table written as one run of items: a record describes one position and a gap
skips several. Which gaps can be written depends on the format, so how a distance is
cut into gaps is a parameter. Looking a position up is a walk that counts positions.
-/
namespace SparseTable
variable {R : Type}

inductive Item (R : Type) where
  | gap (n : Nat)
  | record (r : R)

def Item.size : Item R → Nat
  | .gap n => n
  | .record _ => 1

def span (items : List (Item R)) : Nat := (items.map Item.size).sum

/-- The record for position `u`, when the first item describes position `i`. -/
def seek (u : Nat) : List (Item R) → Nat → Option R
  | [], _ => none
  | .gap n :: items, i => seek u items (i + n)
  | .record r :: items, i => if i = u then some r else seek u items (i + 1)

section Seek
variable {u i : Nat}

theorem seek_gaps (ns : List Nat) (items : List (Item R)) :
    seek u (ns.map .gap ++ items) i = seek u items (i + ns.sum) := by
  induction ns generalizing i with
  | nil => rfl
  | cons n ns ih => rw [List.map_cons, List.cons_append, seek, ih, List.sum_cons, Nat.add_assoc]

/-- A walk that is past a position does not come back to it. -/
theorem seek_past (h : u < i) (items : List (Item R)) : seek u items i = none := by
  induction items generalizing i with
  | nil => rfl
  | cons item items ih =>
      cases item with
      | gap n => exact ih (Nat.lt_add_right n h)
      | record r =>
          rw [seek, if_neg (Nat.ne_of_gt h)]
          exact ih (Nat.lt_succ_of_lt h)

end Seek

section Pack
variable (split : Nat → List Nat)

/-- The items of a table that is sorted by position, from position `next` up to `limit`. -/
def pack (limit : Nat) : Nat → List (Nat × R) → List (Item R)
  | next, [] => (split (limit - next)).map .gap
  | next, (u, r) :: t => (split (u - next)).map .gap ++ .record r :: pack limit (u + 1) t

variable {split}

theorem seek_pack (hsplit : ∀ n, (split n).sum = n) {limit u : Nat} {t : List (Nat × R)}
    (sorted : t.Pairwise fun a b => a.1 < b.1) {next : Nat} (hnext : ∀ e ∈ t, next ≤ e.1) :
    seek u (pack split limit next t) next = t.lookup u := by
  induction t generalizing next with
  | nil =>
      have hgaps := seek_gaps (R := R) (u := u) (i := next) (split (limit - next)) []
      rw [List.append_nil] at hgaps
      rw [pack, hgaps]
      rfl
  | cons e t ih =>
      obtain ⟨v, r⟩ := e
      rw [List.pairwise_cons] at sorted
      have hv : next ≤ v := hnext (v, r) List.mem_cons_self
      rw [pack, seek_gaps, hsplit, Nat.add_sub_cancel' hv, seek, List.lookup_cons]
      by_cases heq : v = u
      · rw [if_pos heq, heq]
        simp
      · have hne : (u == v) = false := by simpa using Ne.symm heq
        rw [if_neg heq, hne]
        exact ih sorted.2 fun e he => sorted.1 e he

theorem span_append (a b : List (Item R)) : span (a ++ b) = span a + span b := by
  rw [span, List.map_append, List.sum_append]
  rfl

theorem span_gaps (ns : List Nat) : span (ns.map (.gap : Nat → Item R)) = ns.sum := by
  rw [span, List.map_map]
  exact congrArg List.sum (List.map_id ns)

/-- A packed table describes every position below its limit. -/
theorem span_pack (hsplit : ∀ n, (split n).sum = n) {limit : Nat} {t : List (Nat × R)}
    (sorted : t.Pairwise fun a b => a.1 < b.1) {next : Nat} (hnext : ∀ e ∈ t, next ≤ e.1)
    (hlimit : ∀ e ∈ t, e.1 < limit) (hle : next ≤ limit) :
    next + span (pack split limit next t) = limit := by
  induction t generalizing next with
  | nil => rw [pack, span_gaps, hsplit, Nat.add_sub_cancel' hle]
  | cons e t ih =>
      obtain ⟨v, r⟩ := e
      rw [List.pairwise_cons] at sorted
      have hv : next ≤ v := hnext (v, r) List.mem_cons_self
      have hlast : v + 1 ≤ limit := hlimit (v, r) List.mem_cons_self
      have hrest : v + 1 + span (pack split limit (v + 1) t) = limit :=
        ih sorted.2 (fun e he => sorted.1 e he)
          (fun e he => hlimit e (List.mem_cons_of_mem _ he)) hlast
      rw [pack, span_append, span_gaps, hsplit]
      rw [show span (Item.record r :: pack split limit (v + 1) t) =
        1 + span (pack split limit (v + 1) t) from rfl]
      omega

end Pack
end SparseTable
