import BenchOS.Library.Program

/-!
One program follows another. Whatever the first comes to from a state, the second comes to
from every state related to it, with the same value or the same reason to stop, and again in
related states. The states of the two need not be of one type. A run of the first that stops
for one of the reasons `E` need not be followed.

A run of the first counts under a single budget, and the second has to end for good, so a
chain of programs is followed along one run and no budget is matched with another.
-/

section
variable {ε σ τ α β : Type}

/-- The same value, one that satisfies `P`, or the same reason, in related states. -/
inductive Outcome.Matches (R : σ → τ → Prop) (P : α → Prop) :
    Outcome ε σ α → Outcome ε τ α → Prop where
  | returned {a : α} {s : σ} {t : τ} (value : P a) (states : R s t) :
      Matches R P (.returned a s) (.returned a t)
  | stopped {e : ε} {s : σ} {t : τ} (states : R s t) : Matches R P (.stopped e s) (.stopped e t)

/-- The outcome is none of those that stop for a reason in `E`. -/
def Outcome.Counts (E : ε → Prop) : Outcome ε σ α → Prop
  | .returned _ _ => True
  | .stopped e _ => ¬ E e

/-- A loop turn that goes on satisfies `I`, one that leaves satisfies `P`. -/
def Turn.All (I : β → Prop) (P : α → Prop) : Turn β α → Prop
  | .again b => I b
  | .leave a => P a

end

namespace Prog
variable {ε σ τ α β : Type}

def Follows (E : ε → Prop) (R : σ → τ → Prop) (P : α → Prop) (c : Prog ε σ α)
    (d : Prog ε τ α) : Prop :=
  ∀ n s t o, R s t → c n s = some o → o.Counts E → ∃ o', d.Ends t o' ∧ o.Matches R P o'

/-- Nothing is asked of the value. -/
abbrev Mimics (E : ε → Prop) (R : σ → τ → Prop) (c : Prog ε σ α) (d : Prog ε τ α) : Prop :=
  Follows E R (fun _ => True) c d

section Rules
variable {E : ε → Prop} {R : σ → τ → Prop} {P : α → Prop} {Q : β → Prop} {c : Prog ε σ α}
  {d : Prog ε τ α}

theorem follows_pure {a : α} (h : P a) :
    Follows E R P (pure a : Prog ε σ α) (pure a : Prog ε τ α) := by
  intro n s t o hst ho _
  cases ho
  exact ⟨_, returns_pure a t, .returned h hst⟩

theorem follows_stop (e : ε) : Follows E R P (stop e : Prog ε σ α) (stop e : Prog ε τ α) := by
  intro n s t o hst ho _
  cases ho
  exact ⟨_, stops_stop e t, .stopped hst⟩

theorem follows_modify {f : σ → σ} {g : τ → τ} (h : ∀ s t, R s t → R (f s) (g t)) :
    Mimics E R (modify f : Prog ε σ Unit) (modify g : Prog ε τ Unit) := by
  intro n s t o hst ho _
  cases ho
  exact ⟨_, returns_modify g t, .returned trivial (h s t hst)⟩

theorem Follows.bind {f : α → Prog ε σ β} {g : α → Prog ε τ β} (hc : Follows E R P c d)
    (hf : ∀ a, P a → Follows E R Q (f a) (g a)) : Follows E R Q (c >>= f) (d >>= g) := by
  intro n s t o hst ho hcounts
  rw [bind_apply] at ho
  split at ho
  · cases ho
  · rename_i e s' hs
    cases ho
    obtain ⟨o', hend, hmatch⟩ := hc n s t _ hst hs hcounts
    cases hmatch with
    | stopped hst' => exact ⟨_, Ends.bind_stopped g hend, .stopped hst'⟩
  · rename_i a s' hs
    obtain ⟨o', hend, hmatch⟩ := hc n s t _ hst hs trivial
    cases hmatch with
    | returned ha hst' =>
        obtain ⟨o'', hrest, hmatch'⟩ := hf a ha n s' _ o hst' ho hcounts
        exact ⟨o'', hend.bind hrest, hmatch'⟩

/-- The two states that are read differ, so what is done with them is compared. -/
theorem follows_get {f : σ → Prog ε σ β} {g : τ → Prog ε τ β}
    (h : ∀ s t, R s t → Follows E R Q (f s) (g t)) : Follows E R Q (get >>= f) (get >>= g) := by
  intro n s t o hst ho hcounts
  obtain ⟨o', hend, hmatch⟩ := h s t hst n s t o hst ho hcounts
  exact ⟨o', (returns_get t).bind hend, hmatch⟩

theorem Follows.ite {b : Prop} [Decidable b] {c' : Prog ε σ α} {d' : Prog ε τ α}
    (hthen : b → Follows E R P c d) (helse : ¬ b → Follows E R P c' d') :
    Follows E R P (if b then c else c') (if b then d else d') := by
  by_cases hb : b
  · rw [if_pos hb, if_pos hb]
    exact hthen hb
  · rw [if_neg hb, if_neg hb]
    exact helse hb

theorem Follows.post {P' : α → Prop} (h : Follows E R P c d) (hP : ∀ a, P a → P' a) :
    Follows E R P' c d := by
  intro n s t o hst ho hcounts
  obtain ⟨o', hend, hmatch⟩ := h n s t o hst ho hcounts
  refine ⟨o', hend, ?_⟩
  cases hmatch with
  | returned ha hst' => exact .returned (hP _ ha) hst'
  | stopped hst' => exact .stopped hst'

theorem Follows.loop {I : β → Prop} {body : β → Prog ε σ (Turn β α)}
    {body' : β → Prog ε τ (Turn β α)}
    (turn : ∀ b, I b → Follows E R (Turn.All I P) (body b) (body' b)) {b : β} (h : I b) :
    Follows E R P (Prog.loop body b) (Prog.loop body' b) := by
  intro n
  induction n generalizing b with
  | zero =>
      intro s t o hst ho _
      cases ho
  | succ n ih =>
      intro s t o hst ho hcounts
      simp only [Prog.loop, loopAt] at ho
      split at ho
      · cases ho
      · rename_i e s' hs
        cases ho
        obtain ⟨o', hend, hmatch⟩ := turn b h n s t _ hst hs hcounts
        cases hmatch with
        | stopped hst' => exact ⟨_, loop_stop hend, .stopped hst'⟩
      · rename_i a s' hs
        cases ho
        obtain ⟨o', hend, hmatch⟩ := turn b h n s t _ hst hs trivial
        cases hmatch with
        | returned ha hst' => exact ⟨_, loop_leave hend, .returned ha hst'⟩
      · rename_i b' s' hs
        obtain ⟨o', hend, hmatch⟩ := turn b h n s t _ hst hs trivial
        cases hmatch with
        | returned hb' hst' =>
            obtain ⟨o'', hrest, hmatch'⟩ := ih hb' s' _ o hst' ho hcounts
            exact ⟨o'', loop_again hend hrest, hmatch'⟩

variable {s s' : σ} {t : τ}

theorem Follows.returns {a : α} (h : Follows E R P c d) (hst : R s t) (hc : c.Returns s a s') :
    ∃ t', d.Returns t a t' ∧ R s' t' := by
  obtain ⟨N, hN⟩ := hc
  obtain ⟨o', hend, hmatch⟩ := h N s t _ hst (hN N (Nat.le_refl N)) trivial
  cases hmatch with
  | returned _ hst' => exact ⟨_, hend, hst'⟩

theorem Follows.stops {e : ε} (h : Follows E R P c d) (hst : R s t) (hc : c.Stops s e s')
    (he : ¬ E e) : ∃ t', d.Stops t e t' ∧ R s' t' := by
  obtain ⟨N, hN⟩ := hc
  obtain ⟨o', hend, hmatch⟩ := h N s t _ hst (hN N (Nat.le_refl N)) he
  cases hmatch with
  | stopped hst' => exact ⟨_, hend, hst'⟩

end Rules
end Prog
