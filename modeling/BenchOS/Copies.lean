import BenchOS.Library.Overlap
import BenchOS.Necessities

/-!
`memcpy`, `memmove` and `memset`. Both copies are followed through the overlap rule:
what each loop leaves is known once it is known which byte of the old memory every
copied byte comes from.
-/
namespace BenchOS
open Overlap

/-- Memory `m'` has in the `n` bytes from `dest` on what `m` had at `origin 0`, `origin 1`
and so on, and agrees with `m` elsewhere. -/
structure Placed (m m' : Mem Object) (dest : Location) (n : Nat) (origin : Nat → Location) :
    Prop where
  content : ∀ i, i < n → m' (dest.add i) = m (origin i)
  outside : ∀ l, ¬ dest.Covers n l → m' l = m l

theorem placed_eq_iff {m m₁ m₂ : Mem Object} {dest : Location} {n : Nat}
    {origin₁ origin₂ : Nat → Location} (h₁ : Placed m m₁ dest n origin₁)
    (h₂ : Placed m m₂ dest n origin₂) :
    m₁ = m₂ ↔ ∀ i, i < n → m (origin₁ i) = m (origin₂ i) := by
  constructor
  · intro heq i hi
    rw [← h₁.content i hi, heq, h₂.content i hi]
  · intro hsame
    funext l
    by_cases hc : dest.Covers n l
    · obtain ⟨i, hi, -, rfl⟩ := hc.exists_add
      rw [h₁.content i hi, h₂.content i hi, hsame i hi]
    · rw [h₁.outside l hc, h₂.outside l hc]

theorem ram_add_eq_iff {a b : UInt64} {i j : Nat} (hi : a.toNat + i < 2 ^ 64)
    (hj : b.toNat + j < 2 ^ 64) :
    (ram a).add i = (ram b).add j ↔ a.toNat + i = b.toNat + j := by
  have hoff : ∀ (c : UInt64) (k : Nat), c.toNat + k < 2 ^ 64 →
      ((ram c).add k).off.toNat = c.toNat + k := by
    intro c k hk
    simp only [Loc.add, ram, UInt64.toNat_add, UInt64.toNat_ofNat']
    omega
  constructor
  · intro h
    rw [← hoff a i hi, h, hoff b j hj]
  · intro h
    have hsame : ((ram a).add i).off = ((ram b).add j).off := by
      rw [← UInt64.toNat_inj, hoff a i hi, hoff b j hj, h]
    exact congrArg (Loc.mk Object.ram) hsame

/-- The machine after the byte at `l'` has been copied to `l`. -/
def Machine.copying (s : Machine) (l l' : Location) : Machine :=
  { s with
    mem := Function.update s.mem l (s.mem l')
    bus := s.bus ++ [.read (.loc l'), .write l (s.mem l')] }

theorem copyByte_returns {α : Type} (l l' : Location) (a : α) (s : Machine) :
    (load (.loc l') >>= fun c => store l c >>= fun _ => pure a : Kernel α).Returns s a
      (s.copying l l') :=
  .of_forall fun _ => by simp [load, store, Mem.read, Machine.copying]

/-- The copies from `src j` to `dst j` for the `j` below `i` lead from `s` to `s'`. -/
def AfterCopies (s : Machine) (dst src : Nat → Location) (i : Nat) (s' : Machine) : Prop :=
  ∃ t, s' = { s with mem := copied s.mem dst src i, bus := s.bus ++ t }

theorem afterCopies_zero (s : Machine) (dst src : Nat → Location) : AfterCopies s dst src 0 s :=
  ⟨[], by simp [copied]⟩

theorem AfterCopies.next {s s' : Machine} {dst src : Nat → Location} {i : Nat}
    (h : AfterCopies s dst src i s') :
    AfterCopies s dst src (i + 1) (s'.copying (dst i) (src i)) := by
  obtain ⟨t, rfl⟩ := h
  exact ⟨_, by simp only [Machine.copying, copied, List.append_assoc]; rfl⟩

section Loops
variable (dest src n : UInt64) (s : Machine)

theorem copyUp_loop :
    ∃ s', (Prog.loop (copyUpTurn dest src n) 0).Returns s () s' ∧
      AfterCopies s (ram dest).add (ram src).add n.toNat s' := by
  apply Prog.loop_countingUp n (AfterCopies s (ram dest).add (ram src).add)
  · intro i s₁ _ hmore hs₁
    refine ⟨_, ?_, hs₁.next⟩
    rw [copyUpTurn, if_pos hmore]
    exact copyByte_returns _ _ _ s₁
  · intro s₁ _
    exact .of_forall fun _ => by simp [copyUpTurn]
  · exact afterCopies_zero s _ _

/-- The downward loop makes copy `j` at index `n - 1 - j`. -/
theorem copyDown_loop :
    ∃ s', (Prog.loop (copyDownTurn dest src) n).Returns s () s' ∧
      AfterCopies s (fun j => (ram dest).add (n.toNat - 1 - j))
        (fun j => (ram src).add (n.toNat - 1 - j)) n.toNat s' := by
  let index (j : Nat) : UInt64 := UInt64.ofNat (n.toNat - j)
  have hturn : ∀ j s₁, j < n.toNat →
      AfterCopies s (fun j => (ram dest).add (n.toNat - 1 - j))
        (fun j => (ram src).add (n.toNat - 1 - j)) j s₁ →
      ∃ s₂, (copyDownTurn dest src (index j)).Returns s₁ (.again (index (j + 1))) s₂ ∧
        AfterCopies s (fun j => (ram dest).add (n.toNat - 1 - j))
          (fun j => (ram src).add (n.toNat - 1 - j)) (j + 1) s₂ := by
    intro j s₁ hj hs₁
    have hsize : n.toNat - j < UInt64.size := Nat.lt_of_le_of_lt (by omega) n.toNat_lt_size
    have hmore : index j > 0 := by
      rw [gt_iff_lt, UInt64.lt_iff_toNat_lt, UInt64.toNat_ofNat_of_lt' hsize]
      exact Nat.sub_pos_of_lt hj
    have hpred : index j - 1 = UInt64.ofNat (n.toNat - 1 - j) := by
      have hsplit : n.toNat - j = n.toNat - 1 - j + 1 := by omega
      simp only [index, hsplit, UInt64.ofNat_add]
      simp
    have hnext : index (j + 1) = UInt64.ofNat (n.toNat - 1 - j) :=
      congrArg UInt64.ofNat (by omega)
    refine ⟨_, ?_, hs₁.next⟩
    rw [copyDownTurn, if_pos hmore, hpred, hnext]
    exact copyByte_returns _ _ _ s₁
  obtain ⟨s', hreach, hs'⟩ := Prog.Reaches.counting index _ hturn (afterCopies_zero s _ _)
  have hfirst : index 0 = n := by simp [index]
  have hlast : index n.toNat = 0 := by simp [index]
  rw [hfirst, hlast] at hreach
  refine ⟨s', (hreach.ends_iff _).mpr (Prog.loop_leave (.of_forall fun _ => ?_)), hs'⟩
  simp [copyDownTurn]

end Loops

/-- The copies of a loop leave the bytes of the origins when every byte from `dest` on is
written by one of them; `order` is the order in which they are. -/
theorem placed_copied {m : Mem Object} {dest : Location} {src origin : Nat → Location} {n : Nat}
    (hn : n ≤ 2 ^ 64) (order : Nat → Nat) (horder : ∀ i, i < n → order i < n ∧ order (order i) = i)
    (h : Traced (fun j => dest.add (order j)) src (fun j => origin (order j)) n) :
    Placed m (copied m (fun j => dest.add (order j)) src n) dest n origin := by
  have hinj : Set.InjOn (fun j => dest.add (order j)) {i | i < n} := by
    intro i hi j hj heq
    have hoi := horder i hi
    have hoj := horder j hj
    have hsame := (dest.add_inj (by omega) (by omega)).mp heq
    rw [← hoi.2, hsame, hoj.2]
  constructor
  · intro i hi
    obtain ⟨hlt, hback⟩ := horder i hi
    have hat := copied_at (m := m) hinj h hlt
    simpa only [hback] using hat
  · intro l hl
    apply copied_outside
    intro i hi heq
    exact hl (heq ▸ dest.add_covers (horder i hi).1 hn)

/-- The destination starts inside the source, after its first byte. -/
def StartsInside (dest src n : UInt64) : Prop :=
  src < dest ∧ dest.toNat < src.toNat + n.toNat

instance (dest src n : UInt64) : Decidable (StartsInside dest src n) :=
  inferInstanceAs (Decidable (_ ∧ _))

/-- The index of the source byte that `memcpy` leaves at index `i`. -/
def copyIndex (dest src n : UInt64) (i : Nat) : Nat :=
  if StartsInside dest src n then i % (dest.toNat - src.toNat) else i

theorem traced_down {dest src n : UInt64} (hdest : dest.toNat + n.toNat ≤ 2 ^ 64)
    (hlt : src < dest) :
    Traced (fun j => (ram dest).add (n.toNat - 1 - j)) (fun j => (ram src).add (n.toNat - 1 - j))
      (fun j => (ram src).add (n.toNat - 1 - j)) n.toNat := by
  rw [UInt64.lt_iff_toNat_lt] at hlt
  intro i hi
  refine .inl ⟨rfl, ?_⟩
  intro j hj heq
  have hsame := (ram_add_eq_iff (by omega) (by omega)).mp heq
  omega

section Copies
variable (dest src n : UInt64) (hsrc : src.toNat + n.toNat ≤ 2 ^ 64)
  (hdest : dest.toNat + n.toNat ≤ 2 ^ 64)
include hsrc hdest

theorem traced_up :
    Traced (ram dest).add (ram src).add (fun i => (ram src).add (copyIndex dest src n i))
      n.toNat := by
  intro i hi
  have happart : ∀ j, j < i → (dest.toNat + j ≠ src.toNat + i) →
      (ram dest).add j ≠ (ram src).add i := by
    intro j hj hne heq
    exact hne ((ram_add_eq_iff (by omega) (by omega)).mp heq)
  by_cases hin : StartsInside dest src n
  · obtain ⟨hlt, -⟩ := id hin
    rw [UInt64.lt_iff_toNat_lt] at hlt
    by_cases hfirst : i < dest.toNat - src.toNat
    · -- Below the distance the byte read is still the old one.
      refine .inl ⟨by simp only [copyIndex, if_pos hin, Nat.mod_eq_of_lt hfirst], ?_⟩
      intro j hj
      exact happart j hj (by omega)
    · -- From the distance on it is the byte copied one distance before.
      refine .inr ⟨i - (dest.toNat - src.toNat), by omega, ?_, ?_⟩
      · exact (ram_add_eq_iff (by omega) (by omega)).mpr (by omega)
      · simp only [copyIndex, if_pos hin]
        rw [Nat.mod_eq_sub_mod (by omega)]
  · refine .inl ⟨by simp only [copyIndex, if_neg hin], ?_⟩
    intro j hj
    apply happart j hj
    rw [StartsInside, UInt64.lt_iff_toNat_lt] at hin
    omega

theorem copyUp_placed (s : Machine) :
    ∃ s', (Prog.loop (copyUpTurn dest src n) 0).Returns s () s' ∧
      Placed s.mem s'.mem (ram dest) n.toNat fun i => (ram src).add (copyIndex dest src n i) := by
  have hn := UInt64.toNat_lt n
  obtain ⟨s', hloop, t, rfl⟩ := copyUp_loop dest src n s
  refine ⟨_, hloop, ?_⟩
  exact placed_copied (by omega) id (fun i hi => ⟨hi, rfl⟩) (traced_up dest src n hsrc hdest)

theorem memcpy_placed (s : Machine) :
    ∃ s', (memcpy dest src n).Returns s dest s' ∧
      Placed s.mem s'.mem (ram dest) n.toNat fun i => (ram src).add (copyIndex dest src n i) := by
  obtain ⟨s', hloop, hplaced⟩ := copyUp_placed dest src n hsrc hdest s
  exact ⟨s', hloop.bind (Prog.returns_pure _ _), hplaced⟩

theorem memmove_placed (s : Machine) :
    ∃ s', (memmove dest src n).Returns s dest s' ∧
      Placed s.mem s'.mem (ram dest) n.toNat (ram src).add := by
  have hn := UInt64.toNat_lt n
  by_cases hup : dest < src
  · obtain ⟨s', hloop, hplaced⟩ := copyUp_placed dest src n hsrc hdest s
    have hnot : ¬ StartsInside dest src n := fun hin =>
      absurd hin.1 (UInt64.not_lt.mpr (UInt64.le_of_lt hup))
    simp only [copyIndex, if_neg hnot] at hplaced
    refine ⟨s', ?_, hplaced⟩
    rw [memmove, if_pos hup]
    exact hloop.bind (Prog.returns_pure _ _)
  · by_cases hdown : src < dest
    · obtain ⟨s', hloop, t, rfl⟩ := copyDown_loop dest src n s
      have hplaced := placed_copied (m := s.mem) (by omega) (fun j => n.toNat - 1 - j)
        (fun i hi => by omega) (traced_down hdest hdown)
      refine ⟨{ s with mem := _, bus := s.bus ++ t }, ?_, hplaced⟩
      rw [memmove, if_neg hup, if_pos hdown]
      exact hloop.bind (Prog.returns_pure _ _)
    · -- Neither address is below the other: nothing is moved.
      have heq : src = dest := UInt64.le_antisymm (UInt64.not_lt.mp hup) (UInt64.not_lt.mp hdown)
      refine ⟨s, ?_, fun i _ => by rw [heq], fun l _ => rfl⟩
      rw [memmove, if_neg hup, if_neg hdown]
      exact (Prog.returns_pure _ _).bind (Prog.returns_pure _ _)

end Copies

/-- `memset` stores the low byte of `c` in every byte of the range and nothing else. -/
theorem memset_returns (address : UInt64) (c : Int32) (n : UInt64) (s : Machine) :
    ∃ t, (memset address c n).Returns s address
      { s with
        mem := s.mem.blit (ram address) (List.replicate n.toNat c.toUInt32.toUInt8)
        bus := s.bus ++ t } := by
  have hn := UInt64.toNat_lt n
  let byte := c.toUInt32.toUInt8
  let filled (i : Nat) (s' : Machine) : Prop := ∃ t, s' =
    { s with mem := s.mem.blit (ram address) (List.replicate i byte), bus := s.bus ++ t }
  have hloop : ∃ s', (Prog.loop (memsetTurn address c n) 0).Returns s () s' ∧
      filled n.toNat s' := by
    apply Prog.loop_countingUp n filled
    · rintro i _ hi hmore ⟨t, rfl⟩
      let e : List BusEvent := [.write ((ram address).add i) byte]
      refine ⟨_, ?_, t ++ e, rfl⟩
      have hblit := s.mem.blit_blit (ram address) (List.replicate i byte) [byte] (by simp; omega)
      rw [Mem.blit_singleton, List.length_replicate, ← List.replicate_succ'] at hblit
      rw [memsetTurn, if_pos hmore, ← hblit, ← List.append_assoc]
      exact (store_returns _ byte _).bind (Prog.returns_pure _ _)
    · intro s' _
      exact .of_forall fun _ => by simp [memsetTurn]
    · exact ⟨[], by simp⟩
  obtain ⟨s', hreturn, t, rfl⟩ := hloop
  exact ⟨t, hreturn.bind (Prog.returns_pure _ _)⟩

/-- `memmove` moves the bytes as they were before the call, however the ranges lie. -/
theorem memmove_snapshot (dest src n : UInt64) (hsrc : src.toNat + n.toNat ≤ 2 ^ 64)
    (hdest : dest.toNat + n.toNat ≤ 2 ^ 64) (s : Machine) :
    ∃ s', (memmove dest src n).Returns s dest s' ∧
      (∀ i, i < n.toNat → s'.mem ((ram dest).add i) = s.mem ((ram src).add i)) ∧
      ∀ l, ¬ (ram dest).Covers n.toNat l → s'.mem l = s.mem l := by
  obtain ⟨s', hreturns, hplaced⟩ := memmove_placed dest src n hsrc hdest s
  exact ⟨s', hreturns, hplaced.content, hplaced.outside⟩

theorem memmove_snapshot_up_by_one :
    ∃ s', (memmove 0x1001 0x1000 3).Returns rampMachine 0x1001 s' ∧
      s'.mem (ram 0x1003) = rampMachine.mem (ram 0x1002) ∧
      s'.mem (ram 0x1000) = rampMachine.mem (ram 0x1000) := by
  obtain ⟨s', hreturns, hcontent, houtside⟩ :=
    memmove_snapshot 0x1001 0x1000 3 (by decide) (by decide) rampMachine
  exact ⟨s', hreturns, hcontent 2 (by decide), houtside _ (by decide)⟩

/-- `memcpy` repeats the first `dest - src` bytes when the destination starts inside the
source and otherwise moves the old bytes. It does what `memmove` does except where the
first kind of copy meets bytes that do not repeat already. -/
theorem memcpy_exact (dest src n : UInt64) (hsrc : src.toNat + n.toNat ≤ 2 ^ 64)
    (hdest : dest.toNat + n.toNat ≤ 2 ^ 64) (s : Machine) :
    ∃ s₁ s₂, (memcpy dest src n).Returns s dest s₁ ∧ (memmove dest src n).Returns s dest s₂ ∧
      (∀ i, i < n.toNat → s₁.mem ((ram dest).add i) =
        s.mem ((ram src).add
          (if StartsInside dest src n then i % (dest.toNat - src.toNat) else i))) ∧
      (∀ l, ¬ (ram dest).Covers n.toNat l → s₁.mem l = s.mem l) ∧
      (s₁.mem = s₂.mem ↔ ¬ StartsInside dest src n ∨
        ∀ i, i < n.toNat → s.mem ((ram src).add i) =
          s.mem ((ram src).add (i % (dest.toNat - src.toNat)))) := by
  obtain ⟨s₁, hcpy, hplaced₁⟩ := memcpy_placed dest src n hsrc hdest s
  obtain ⟨s₂, hmove, hplaced₂⟩ := memmove_placed dest src n hsrc hdest s
  refine ⟨s₁, s₂, hcpy, hmove, hplaced₁.content, hplaced₁.outside, ?_⟩
  rw [placed_eq_iff hplaced₁ hplaced₂]
  by_cases hin : StartsInside dest src n
  · simp only [copyIndex, hin, if_true, not_true_eq_false, false_or, eq_comm]
  · simp only [copyIndex, hin, if_false, not_false_eq_true, true_or, implies_true]

theorem memcpy_exact_up_by_one :
    ∃ s₁ s₂, (memcpy 0x1001 0x1000 3).Returns rampMachine 0x1001 s₁ ∧
      (memmove 0x1001 0x1000 3).Returns rampMachine 0x1001 s₂ ∧
      s₁.mem (ram 0x1003) = 0 ∧ s₁.mem ≠ s₂.mem := by
  obtain ⟨s₁, s₂, hcpy, hmove, hcontent, -, hiff⟩ :=
    memcpy_exact 0x1001 0x1000 3 (by decide) (by decide) rampMachine
  have hinside : StartsInside 0x1001 0x1000 3 := by decide
  refine ⟨s₁, s₂, hcpy, hmove, hcontent 2 (by decide), ?_⟩
  intro heq
  cases hiff.mp heq with
  | inl hnot => exact hnot hinside
  | inr hperiod => exact absurd (hperiod 1 (by decide)) (by decide)

end BenchOS
