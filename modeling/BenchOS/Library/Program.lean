import Mathlib.Logic.Function.Basic
import Mathlib.Tactic.Common

/-!
Sequential programs that read and write a state, may end for good in the middle
(a halt, a wait that nothing ends) and may run for ever.

A program is run with a budget of loop turns. `none` says that some loop used up
the budget; every other answer is final, and `Ends` states it for all budgets
from some point on, so no statement about a program mentions a budget. Nothing
here depends on what the state is.
-/

inductive Outcome (ε σ α : Type) where
  | returned (value : α) (state : σ)
  | stopped (reason : ε) (state : σ)

def Outcome.state {ε σ α : Type} : Outcome ε σ α → σ
  | .returned _ s => s
  | .stopped _ s => s

def Prog (ε σ α : Type) : Type := Nat → σ → Option (Outcome ε σ α)

/-- What the body of a loop asks for after a turn. -/
inductive Turn (β α : Type) where
  | again (next : β)
  | leave (value : α)

namespace Prog
variable {ε σ α β γ : Type}

protected def pure (a : α) : Prog ε σ α := fun _ s => some (.returned a s)

protected def bind (c : Prog ε σ α) (f : α → Prog ε σ β) : Prog ε σ β := fun n s =>
  match c n s with
  | none => none
  | some (.stopped e s') => some (.stopped e s')
  | some (.returned a s') => f a n s'

instance : Monad (Prog ε σ) where
  pure := Prog.pure
  bind := Prog.bind

def get : Prog ε σ σ := fun _ s => some (.returned s s)

def modify (f : σ → σ) : Prog ε σ Unit := fun _ s => some (.returned () (f s))

def stop (e : ε) : Prog ε σ α := fun _ s => some (.stopped e s)

/-- A loop spends one unit of the budget on every turn. -/
def loopAt (body : β → Prog ε σ (Turn β α)) :
    Nat → β → σ → Option (Outcome ε σ α)
  | 0, _, _ => none
  | n + 1, b, s =>
    match body b n s with
    | none => none
    | some (.stopped e s') => some (.stopped e s')
    | some (.returned (.leave a) s') => some (.returned a s')
    | some (.returned (.again b') s') => loopAt body n b' s'

def loop (body : β → Prog ε σ (Turn β α)) (b : β) : Prog ε σ α := fun n s =>
  loopAt body n b s

/-- Every budget from some point on gives the outcome `o`. -/
def Ends (c : Prog ε σ α) (s : σ) (o : Outcome ε σ α) : Prop :=
  ∃ N, ∀ n, N ≤ n → c n s = some o

abbrev Returns (c : Prog ε σ α) (s : σ) (a : α) (s' : σ) : Prop :=
  c.Ends s (.returned a s')

abbrev Stops (c : Prog ε σ α) (s : σ) (e : ε) (s' : σ) : Prop :=
  c.Ends s (.stopped e s')

/-- No budget is enough. -/
def Diverges (c : Prog ε σ α) (s : σ) : Prop := ∀ n, c n s = none

@[simp] theorem pure_apply (a : α) (n : Nat) (s : σ) :
    (pure a : Prog ε σ α) n s = some (.returned a s) :=
  rfl

@[simp] theorem get_apply (n : Nat) (s : σ) :
    (get : Prog ε σ σ) n s = some (.returned s s) :=
  rfl

@[simp] theorem modify_apply (f : σ → σ) (n : Nat) (s : σ) :
    (modify f : Prog ε σ Unit) n s = some (.returned () (f s)) :=
  rfl

@[simp] theorem stop_apply (e : ε) (n : Nat) (s : σ) :
    (stop e : Prog ε σ α) n s = some (.stopped e s) :=
  rfl

@[simp] theorem bind_apply (c : Prog ε σ α) (f : α → Prog ε σ β) (n : Nat) (s : σ) :
    (c >>= f) n s =
      match c n s with
      | none => none
      | some (.stopped e s') => some (.stopped e s')
      | some (.returned a s') => f a n s' :=
  rfl

theorem bind_assoc (c : Prog ε σ α) (f : α → Prog ε σ β) (g : β → Prog ε σ γ) :
    c >>= f >>= g = c >>= fun a => f a >>= g := by
  funext n s
  simp only [bind_apply]
  cases c n s with
  | none => rfl
  | some o => cases o <;> rfl

/-- A program has one outcome: two that hold from some budget on meet. -/
theorem Ends.unique {c : Prog ε σ α} {s : σ} {o o' : Outcome ε σ α}
    (h : c.Ends s o) (h' : c.Ends s o') : o = o' := by
  obtain ⟨N, hN⟩ := h
  obtain ⟨M, hM⟩ := h'
  have one := hN (max N M) (Nat.le_max_left N M)
  have two := hM (max N M) (Nat.le_max_right N M)
  exact Option.some.inj (one.symm.trans two)

/-- Code without a loop has the same outcome under every budget. -/
theorem Ends.of_forall {c : Prog ε σ α} {s : σ} {o : Outcome ε σ α}
    (h : ∀ n, c n s = some o) : c.Ends s o :=
  ⟨0, fun n _ => h n⟩

theorem returns_pure (a : α) (s : σ) : (pure a : Prog ε σ α).Returns s a s :=
  .of_forall fun _ => rfl

theorem returns_get (s : σ) : (get : Prog ε σ σ).Returns s s s :=
  .of_forall fun _ => rfl

theorem returns_modify (f : σ → σ) (s : σ) :
    (modify f : Prog ε σ Unit).Returns s () (f s) :=
  .of_forall fun _ => rfl

theorem stops_stop (e : ε) (s : σ) : (stop e : Prog ε σ α).Stops s e s :=
  .of_forall fun _ => rfl

theorem Ends.bind {c : Prog ε σ α} {f : α → Prog ε σ β} {s s' : σ} {a : α}
    {o : Outcome ε σ β} (hc : c.Returns s a s') (hf : (f a).Ends s' o) :
    (c >>= f).Ends s o := by
  obtain ⟨N, hN⟩ := hc
  obtain ⟨M, hM⟩ := hf
  refine ⟨max N M, ?_⟩
  intro n hn
  rw [bind_apply, hN n (by omega)]
  exact hM n (by omega)

theorem Ends.bind_stopped {c : Prog ε σ α} (f : α → Prog ε σ β) {s s' : σ} {e : ε}
    (hc : c.Stops s e s') : (c >>= f).Stops s e s' := by
  obtain ⟨N, hN⟩ := hc
  refine ⟨N, ?_⟩
  intro n hn
  rw [bind_apply, hN n hn]

theorem Diverges.not_ends {c : Prog ε σ α} {s : σ} (h : c.Diverges s) (o : Outcome ε σ α) :
    ¬ c.Ends s o := by
  rintro ⟨N, hN⟩
  have hend := hN N (Nat.le_refl N)
  rw [h N] at hend
  cases hend

theorem Diverges.bind {c : Prog ε σ α} {s : σ} (h : c.Diverges s) (f : α → Prog ε σ β) :
    (c >>= f).Diverges s := by
  intro n
  rw [bind_apply, h n]

section Loop
variable {body : β → Prog ε σ (Turn β α)} {b b' : β} {s s' : σ}

theorem loop_leave {a : α} (h : (body b).Returns s (.leave a) s') :
    (loop body b).Returns s a s' := by
  obtain ⟨N, hN⟩ := h
  refine ⟨N + 1, ?_⟩
  intro n hn
  obtain ⟨k, rfl⟩ : ∃ k, n = k + 1 := ⟨n - 1, by omega⟩
  simp only [loop, loopAt, hN k (by omega)]

theorem loop_stop {e : ε} (h : (body b).Stops s e s') : (loop body b).Stops s e s' := by
  obtain ⟨N, hN⟩ := h
  refine ⟨N + 1, ?_⟩
  intro n hn
  obtain ⟨k, rfl⟩ : ∃ k, n = k + 1 := ⟨n - 1, by omega⟩
  simp only [loop, loopAt, hN k (by omega)]

theorem loop_again {o : Outcome ε σ α} (h : (body b).Returns s (.again b') s')
    (rest : (loop body b').Ends s' o) : (loop body b).Ends s o := by
  obtain ⟨N, hN⟩ := h
  obtain ⟨M, hM⟩ := rest
  refine ⟨max N M + 1, ?_⟩
  intro n hn
  obtain ⟨k, rfl⟩ : ∃ k, n = k + 1 := ⟨n - 1, by omega⟩
  simp only [loop, loopAt, hN k (by omega)]
  exact hM k (by omega)

theorem Ends.of_loop_again {o : Outcome ε σ α} (h : (body b).Returns s (.again b') s')
    (hl : (loop body b).Ends s o) : (loop body b').Ends s' o := by
  obtain ⟨N, hN⟩ := h
  obtain ⟨M, hM⟩ := hl
  refine ⟨max N M, ?_⟩
  intro n hn
  have hend := hM (n + 1) (by omega)
  simpa only [loop, loopAt, hN n (by omega)] using hend

/-- The loop comes from `b` in `s` to `b'` in `s'` in some number of turns. -/
inductive Reaches (body : β → Prog ε σ (Turn β α)) : β → σ → β → σ → Prop where
  | refl (b : β) (s : σ) : Reaches body b s b s
  | turn {b b₁ b' : β} {s s₁ s' : σ} : (body b).Returns s (.again b₁) s₁ →
    Reaches body b₁ s₁ b' s' → Reaches body b s b' s'

theorem Reaches.ends_iff (h : Reaches body b s b' s') (o : Outcome ε σ α) :
    (loop body b).Ends s o ↔ (loop body b').Ends s' o := by
  induction h with
  | refl => exact Iff.rfl
  | turn hturn _ ih =>
      refine Iff.trans ⟨?_, loop_again hturn⟩ ih
      exact Ends.of_loop_again hturn

theorem Reaches.append {b₁ : β} {s₁ : σ} (h : Reaches body b s b₁ s₁)
    (k : Reaches body b₁ s₁ b' s') : Reaches body b s b' s' := by
  induction h with
  | refl => exact k
  | turn hturn _ ih => exact .turn hturn (ih k)

/-- A loop that counts: turn `i` goes from `index i` to the next index and keeps `I`. -/
theorem Reaches.counting (index : Nat → β) (I : Nat → σ → Prop) {n : Nat}
    (turn : ∀ i s, i < n → I i s →
      ∃ s', (body (index i)).Returns s (.again (index (i + 1))) s' ∧ I (i + 1) s')
    (h : I 0 s) : ∃ s', Reaches body (index 0) s (index n) s' ∧ I n s' := by
  induction n with
  | zero => exact ⟨s, .refl _ _, h⟩
  | succ n ih =>
      obtain ⟨s₁, hreach, hn⟩ := ih fun i s hi => turn i s (Nat.lt_succ_of_lt hi)
      obtain ⟨s', hturn, hnext⟩ := turn n s₁ (Nat.lt_succ_self n) hn
      exact ⟨s', hreach.append (.turn hturn (.refl _ _)), hnext⟩

theorem ofNat_lt {i : Nat} {n : UInt64} (h : i < n.toNat) : UInt64.ofNat i < n :=
  (UInt64.ofNat_lt_iff (Nat.lt_trans h n.toNat_lt_size)).mpr h

/-- `for (i = 0; i < n; i++)` with an index of 64 bits, as far as index `k`. -/
theorem Reaches.countingUp {body : UInt64 → Prog ε σ (Turn UInt64 α)} {n : UInt64}
    (I : Nat → σ → Prop) {k : Nat} (hk : k ≤ n.toNat)
    (turn : ∀ i s, i < k → UInt64.ofNat i < n → I i s →
      ∃ s', (body (UInt64.ofNat i)).Returns s (.again (UInt64.ofNat i + 1)) s' ∧ I (i + 1) s')
    (h : I 0 s) : ∃ s', Reaches body 0 s (UInt64.ofNat k) s' ∧ I k s' := by
  apply Reaches.counting UInt64.ofNat I _ h
  intro i s hi hs
  obtain ⟨s', hturn, hnext⟩ := turn i s hi (ofNat_lt (Nat.lt_of_lt_of_le hi hk)) hs
  have hsucc : UInt64.ofNat i + 1 = UInt64.ofNat (i + 1) := (UInt64.ofNat_add i 1).symm
  exact ⟨s', hsucc ▸ hturn, hnext⟩

theorem loop_countingUp {body : UInt64 → Prog ε σ (Turn UInt64 α)} {a : α} (n : UInt64)
    (I : Nat → σ → Prop)
    (turn : ∀ i s, i < n.toNat → UInt64.ofNat i < n → I i s →
      ∃ s', (body (UInt64.ofNat i)).Returns s (.again (UInt64.ofNat i + 1)) s' ∧ I (i + 1) s')
    (last : ∀ s, I n.toNat s → (body n).Returns s (.leave a) s) (h : I 0 s) :
    ∃ s', (loop body 0).Returns s a s' ∧ I n.toNat s' := by
  obtain ⟨s', hreach, hs'⟩ := Reaches.countingUp I (Nat.le_refl _) turn h
  rw [UInt64.ofNat_toNat] at hreach
  exact ⟨s', (hreach.ends_iff _).mpr (loop_leave (last s' hs')), hs'⟩

/-- A loop whose turns keep an invariant and always ask for another turn has no end. -/
theorem loop_diverges (I : β → σ → Prop)
    (turn : ∀ n b s, I b s → ∃ b' s', body b n s = some (.returned (.again b') s') ∧ I b' s')
    (h : I b s) : (loop body b).Diverges s := by
  intro n
  induction n generalizing b s with
  | zero => rfl
  | succ n ih =>
      obtain ⟨b', s', hturn, hkept⟩ := turn n b s h
      simp only [loop, loopAt, hturn]
      exact ih hkept

end Loop

/-- Every outcome is related to the state the program started in. -/
def Keeps (R : σ → σ → Prop) (c : Prog ε σ α) : Prop :=
  ∀ n s o, c n s = some o → R s o.state

section Keeps
variable {R : σ → σ → Prop}

theorem keeps_pure [Std.Refl R] (a : α) : Keeps R (pure a : Prog ε σ α) := by
  intro n s o h
  cases h
  exact refl_of R s

theorem keeps_get [Std.Refl R] : Keeps R (get : Prog ε σ σ) := by
  intro n s o h
  cases h
  exact refl_of R s

theorem keeps_stop [Std.Refl R] (e : ε) : Keeps R (stop e : Prog ε σ α) := by
  intro n s o h
  cases h
  exact refl_of R s

theorem keeps_modify {f : σ → σ} (h : ∀ s, R s (f s)) :
    Keeps R (modify f : Prog ε σ Unit) := by
  intro n s o ho
  cases ho
  exact h s

theorem Keeps.bind [IsTrans σ R] {c : Prog ε σ α} {f : α → Prog ε σ β} (hc : Keeps R c)
    (hf : ∀ a, Keeps R (f a)) : Keeps R (c >>= f) := by
  intro n s o h
  rw [bind_apply] at h
  split at h
  · cases h
  · rename_i e s' hs
    cases h
    exact hc n s _ hs
  · rename_i a s' hs
    exact trans_of R (hc n s _ hs) (hf a n s' o h)

theorem Keeps.loop [IsTrans σ R] {body : β → Prog ε σ (Turn β α)}
    (h : ∀ b, Keeps R (body b)) (b : β) :
    Keeps R (Prog.loop body b) := by
  intro n
  induction n generalizing b with
  | zero =>
      intro s o ho
      cases ho
  | succ n ih =>
      intro s o ho
      simp only [Prog.loop, loopAt] at ho
      split at ho
      · cases ho
      · rename_i e s' hs
        cases ho
        exact h b n s _ hs
      · rename_i a s' hs
        cases ho
        exact h b n s _ hs
      · rename_i b' s' hs
        exact trans_of R (h b n s _ hs) (ih b' s' o ho)

end Keeps
end Prog
