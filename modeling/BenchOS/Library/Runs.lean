import Mathlib.Data.List.Chain
import Mathlib.Tactic.Common

/-!
A list cut into its maximal blocks of equal consecutive elements, each block given
by its element and its length, and the block that a position lies in.
-/
namespace Runs
variable {α : Type}

def expand (bs : List (α × Nat)) : List α := bs.flatMap fun b => List.replicate b.2 b.1

/-- No block is empty and neighbours differ. -/
structure Maximal (bs : List (α × Nat)) : Prop where
  positive : ∀ b ∈ bs, 0 < b.2
  apart : bs.IsChain fun a b => a.1 ≠ b.1

def blocks [DecidableEq α] : List α → List (α × Nat)
  | [] => []
  | a :: l =>
    match blocks l with
    | [] => [(a, 1)]
    | (b, k) :: bs => if a = b then (b, k + 1) :: bs else (a, 1) :: (b, k) :: bs

/-- The number of the block in which position `j` lies. -/
def blockAt : List (α × Nat) → Nat → Nat
  | [], _ => 0
  | b :: bs, j => if j < b.2 then 0 else blockAt bs (j - b.2) + 1

@[simp] theorem expand_nil : expand ([] : List (α × Nat)) = [] := rfl

@[simp] theorem expand_cons (b : α × Nat) (bs : List (α × Nat)) :
    expand (b :: bs) = List.replicate b.2 b.1 ++ expand bs := by
  simp [expand]

theorem expand_append (as bs : List (α × Nat)) :
    expand (as ++ bs) = expand as ++ expand bs := by
  simp [expand]

theorem expand_blocks [DecidableEq α] (l : List α) : expand (blocks l) = l := by
  induction l with
  | nil => rfl
  | cons a l ih =>
      unfold blocks
      split
      · rename_i h
        rw [h] at ih
        simp [← ih]
      · rename_i b k bs h
        rw [h] at ih
        split
        · rename_i hab
          subst hab
          simpa [List.replicate_succ] using ih
        · simpa using ih

theorem Maximal.tail {b : α × Nat} {bs : List (α × Nat)} (h : Maximal (b :: bs)) :
    Maximal bs :=
  ⟨fun c hc => h.positive c (by simp [hc]), h.apart.tail⟩

theorem Maximal.cons {a b : α × Nat} {bs : List (α × Nat)} (h : Maximal (b :: bs))
    (ha : 0 < a.2) (hab : a.1 ≠ b.1) : Maximal (a :: b :: bs) := by
  refine ⟨fun c hc => ?_, .cons_cons hab h.apart⟩
  cases hc with
  | head => exact ha
  | tail _ hc => exact h.positive c hc

theorem Maximal.grow {b : α} {k : Nat} {bs : List (α × Nat)} (h : Maximal ((b, k) :: bs)) :
    Maximal ((b, k + 1) :: bs) := by
  cases bs with
  | nil => exact ⟨by simp, .singleton _⟩
  | cons c bs =>
      cases h.apart with
      | cons_cons hbc _ => exact h.tail.cons (Nat.succ_pos k) hbc

theorem maximal_blocks [DecidableEq α] (l : List α) : Maximal (blocks l) := by
  induction l with
  | nil => exact ⟨by simp [blocks], .nil⟩
  | cons a l ih =>
      unfold blocks
      split
      · exact ⟨by simp, .singleton _⟩
      · rename_i b k bs h
        rw [h] at ih
        split
        · exact ih.grow
        · rename_i hab
          exact ih.cons Nat.one_pos hab

theorem blockAt_append (as bs : List (α × Nat)) (j : Nat) :
    blockAt (as ++ bs) ((expand as).length + j) = as.length + blockAt bs j := by
  induction as with
  | nil => simp
  | cons a as ih =>
      have hlen : (expand (a :: as)).length + j = a.2 + ((expand as).length + j) := by
        simp [Nat.add_assoc]
      rw [hlen, List.cons_append, blockAt, if_neg (by omega), Nat.add_sub_cancel_left, ih,
        List.length_cons]
      omega

end Runs
