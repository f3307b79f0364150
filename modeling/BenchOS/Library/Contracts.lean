import BenchOS.Library.Program

/-!
Contracts for sequential programs. From a start state every outcome that a budget allows
is related to the start by `R`, a stop has a reason that `E` admits, and a return satisfies
the postcondition. `R` is carried through the sequence, so a postcondition only names what
the next step needs.

Nothing is said about whether the program ends.
-/

section
variable {ε σ α β : Type}

def Outcome.Sat (E : ε → Prop) (Q : α → σ → Prop) : Outcome ε σ α → Prop
  | .returned a s => Q a s
  | .stopped e _ => E e

/-- A loop turn that goes on keeps `I`, one that leaves satisfies `Q`. -/
def Turn.Sat (I : β → σ → Prop) (Q : α → σ → Prop) : Turn β α → σ → Prop
  | .again b, s => I b s
  | .leave a, s => Q a s

end

namespace Prog
variable {ε σ α β : Type}

def Meets (R : σ → σ → Prop) (E : ε → Prop) (c : Prog ε σ α) (s : σ) (Q : α → σ → Prop) :
    Prop :=
  ∀ n o, c n s = some o → R s o.state ∧ o.Sat E Q

section Rules
variable {R R' : σ → σ → Prop} {E : ε → Prop} {s : σ}

theorem meets_pure [Std.Refl R] {a : α} {Q : α → σ → Prop} (h : Q a s) :
    Meets R E (pure a) s Q := by
  intro n o ho
  cases ho
  exact ⟨refl_of R s, h⟩

theorem meets_get [Std.Refl R] {Q : σ → σ → Prop} (h : Q s s) : Meets R E get s Q := by
  intro n o ho
  cases ho
  exact ⟨refl_of R s, h⟩

theorem meets_modify {f : σ → σ} {Q : Unit → σ → Prop} (hR : R s (f s)) (h : Q () (f s)) :
    Meets R E (modify f) s Q := by
  intro n o ho
  cases ho
  exact ⟨hR, h⟩

theorem meets_stop [Std.Refl R] {e : ε} {Q : α → σ → Prop} (h : E e) :
    Meets R E (stop e : Prog ε σ α) s Q := by
  intro n o ho
  cases ho
  exact ⟨refl_of R s, h⟩

/-- Code without a loop meets what its one outcome does. -/
theorem meets_of_forall {c : Prog ε σ α} {Q : α → σ → Prop} {o : Outcome ε σ α}
    (h : ∀ n, c n s = some o) (hR : R s o.state) (ho : o.Sat E Q) : Meets R E c s Q := by
  intro n o' ho'
  rw [h n] at ho'
  cases ho'
  exact ⟨hR, ho⟩

theorem Meets.weaken {c : Prog ε σ α} {P Q : α → σ → Prop} (h : Meets R E c s P)
    (hR : ∀ s', R s s' → R' s s') (hQ : ∀ a s', R s s' → P a s' → Q a s') :
    Meets R' E c s Q := by
  intro n o ho
  obtain ⟨hrel, hsat⟩ := h n o ho
  refine ⟨hR _ hrel, ?_⟩
  cases o with
  | returned a s' => exact hQ a s' hrel hsat
  | stopped e s' => exact hsat

theorem Meets.post {c : Prog ε σ α} {P Q : α → σ → Prop} (h : Meets R E c s P)
    (hQ : ∀ a s', R s s' → P a s' → Q a s') : Meets R E c s Q :=
  h.weaken (fun _ hrel => hrel) hQ

theorem Meets.bind [IsTrans σ R] {c : Prog ε σ α} {f : α → Prog ε σ β} {P : α → σ → Prop}
    {Q : β → σ → Prop} (hc : Meets R E c s P)
    (hf : ∀ a s', R s s' → P a s' → Meets R E (f a) s' Q) : Meets R E (c >>= f) s Q := by
  intro n o ho
  rw [bind_apply] at ho
  split at ho
  · cases ho
  · rename_i e s' hs
    cases ho
    exact hc n _ hs
  · rename_i a s' hs
    obtain ⟨hrel, hpost⟩ := hc n _ hs
    obtain ⟨hrest, hsat⟩ := hf a s' hrel hpost n o ho
    exact ⟨trans_of R hrel hrest, hsat⟩

theorem Meets.loop [IsTrans σ R] {body : β → Prog ε σ (Turn β α)} {I : β → σ → Prop}
    {Q : α → σ → Prop} (turn : ∀ b s, I b s → Meets R E (body b) s (Turn.Sat I Q)) {b : β}
    (h : I b s) : Meets R E (Prog.loop body b) s Q := by
  intro n
  induction n generalizing b s with
  | zero =>
      intro o ho
      cases ho
  | succ n ih =>
      intro o ho
      simp only [Prog.loop, loopAt] at ho
      split at ho
      · cases ho
      · rename_i e s' hs
        cases ho
        exact turn b s h n _ hs
      · rename_i a s' hs
        cases ho
        exact turn b s h n _ hs
      · rename_i b' s' hs
        obtain ⟨hrel, hkept⟩ := turn b s h n _ hs
        obtain ⟨hrest, hsat⟩ := ih hkept o ho
        exact ⟨trans_of R hrel hrest, hsat⟩

end Rules
end Prog
