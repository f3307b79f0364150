import BenchOS.Keyboard
import BenchOS.Library.Runs

/-!
The polled reader over a whole history of port samples, called again and again.

`Ear` is the reader as an automaton that is given one sample at a time; its state is
the wait that the reader is in. The calls are shown to store what the automaton
hears, and the automaton is then followed from one block of equal samples to the
next. A block that is met in the release wait loses its first sample.
-/
namespace BenchOS

inductive Ear where
  | polling
  | releasing (v : UInt8)

/-- The accepted scan codes with the number of the sample, from sample `n` on. -/
def Ear.hear : Ear → Nat → List UInt8 → List (Nat × UInt8)
  | _, _, [] => []
  | .polling, n, w :: l =>
    if w < 59 then (n, w) :: (Ear.releasing w).hear (n + 1) l else Ear.polling.hear (n + 1) l
  | .releasing v, n, w :: l =>
    if w = v then (Ear.releasing v).hear (n + 1) l else Ear.polling.hear (n + 1) l

def callTurn (place : Nat → Location) (fg : Nat → UInt32) (i : Nat) :
    Kernel (Turn Nat Unit) := do
  consoleInputCharacter (place i) (fg i)
  pure (.again (i + 1))

/-- `consoleInputCharacter` again and again; call `i` is given `place i`. -/
def callForever (place : Nat → Location) (fg : Nat → UInt32) (i : Nat) : Kernel Unit :=
  Prog.loop (callTurn place fg) i

/-- The stores of a trace, each with the number of the keyboard sample before it. The
first sample of the trace has number `n`. -/
def storesFrom (n : Nat) : List BusEvent → List (Nat × UInt8)
  | [] => []
  | .inb port _ :: t => storesFrom (if port = 0x60 then n + 1 else n) t
  | .write _ c :: t => (n - 1, c) :: storesFrom n t
  | _ :: t => storesFrom n t

abbrev stores : List BusEvent → List (Nat × UInt8) := storesFrom 0

/-- The trace of a call that skips `pre`, accepts `v` and then takes `held`. -/
def keyTrace (input : Location) (pre : List UInt8) (v : UInt8) (held : List UInt8) :
    List BusEvent :=
  (pre ++ [v]).map (.inb 0x60) ++
    (List.replicate (if keyChar v > 1 then 3 else 2) (.read (.lit lowercase v.toNat)) ++
      (.write input (keyChar v) :: held.map (.inb 0x60)))

/-- The index of the key table that an event reads. -/
def BusEvent.lookup : BusEvent → Option Nat
  | .read (.lit text i) => if text = lowercase then some i else none
  | _ => none

def lookups (t : List BusEvent) : List Nat := t.filterMap BusEvent.lookup

def BusEvent.storedByte : BusEvent → Option UInt8
  | .write _ c => some c
  | _ => none

/-- The bytes that a trace stores. -/
def stored (t : List BusEvent) : List UInt8 := t.filterMap BusEvent.storedByte

/-- The lookups of a call that accepts `v`. -/
def looksAt (v : UInt8) : List Nat := List.replicate (if keyChar v > 1 then 3 else 2) v.toNat

theorem storesFrom_samples (n : Nat) (l : List UInt8) (t : List BusEvent) :
    storesFrom n (l.map (.inb 0x60) ++ t) = storesFrom (n + l.length) t := by
  induction l generalizing n with
  | nil => simp
  | cons v l ih => simp [storesFrom, ih, Nat.add_comm 1, Nat.add_assoc]

theorem storesFrom_reads (n k : Nat) (p : Pointer) (t : List BusEvent) :
    storesFrom n (List.replicate k (.read p) ++ t) = storesFrom n t := by
  induction k with
  | zero => simp
  | succ k ih => simpa [List.replicate_succ, storesFrom] using ih

theorem storesFrom_key (n : Nat) (input : Location) (pre : List UInt8) (v : UInt8)
    (held : List UInt8) (t : List BusEvent) :
    storesFrom n (keyTrace input pre v held ++ t) =
      (n + pre.length, keyChar v) :: storesFrom (n + pre.length + 1 + held.length) t := by
  rw [keyTrace, List.append_assoc, storesFrom_samples, List.append_assoc, storesFrom_reads,
    List.cons_append, storesFrom, storesFrom_samples, List.length_append, List.length_singleton]
  simp [Nat.add_assoc]

@[simp] theorem lookups_append (t u : List BusEvent) :
    lookups (t ++ u) = lookups t ++ lookups u :=
  List.filterMap_append

@[simp] theorem stored_append (t u : List BusEvent) : stored (t ++ u) = stored t ++ stored u :=
  List.filterMap_append

theorem stored_key (input : Location) (pre : List UInt8) (v : UInt8) (held : List UInt8) :
    stored (keyTrace input pre v held) = [keyChar v] := by
  have hsamples : ∀ l : List UInt8, stored (l.map (.inb 0x60)) = [] := fun l =>
    List.filterMap_eq_nil_iff.mpr (by simp [BusEvent.storedByte])
  have hreads : ∀ k, stored (List.replicate k (.read (.lit lowercase v.toNat))) = [] := fun k =>
    List.filterMap_eq_nil_iff.mpr (by simp [BusEvent.storedByte])
  have hwrite : stored (.write input (keyChar v) :: held.map (.inb 0x60)) =
      keyChar v :: stored (held.map (.inb 0x60)) := rfl
  rw [keyTrace, stored_append, stored_append, hsamples, hreads, hwrite, hsamples]
  rfl

theorem lookups_samples (l : List UInt8) : lookups (l.map (.inb 0x60)) = [] := by
  simp [lookups, BusEvent.lookup]

theorem lookups_key (input : Location) (pre : List UInt8) (v : UInt8) (held : List UInt8) :
    lookups (keyTrace input pre v held) = looksAt v := by
  have hreads : lookups (List.replicate (if keyChar v > 1 then 3 else 2)
      (.read (.lit lowercase v.toNat))) = looksAt v := by
    simp [lookups, BusEvent.lookup, looksAt]
  have hwrite : lookups (.write input (keyChar v) :: held.map (.inb 0x60)) = [] :=
    lookups_samples held
  rw [keyTrace, lookups_append, lookups_append, lookups_samples, hreads, hwrite,
    List.nil_append, List.append_nil]

theorem taking_bus (s : Machine) (taken rest : List UInt8) :
    (s.taking taken rest).bus = s.bus ++ taken.map (.inb 0x60) := rfl

theorem key_bus (s : Machine) (input : Location) (fg : UInt32) (pre : List UInt8) (v : UInt8)
    (after held rest : List UInt8) :
    (((s.taking (pre ++ [v]) after).keying input fg v).taking held rest).bus =
      s.bus ++ keyTrace input pre v held := by
  simp [Machine.taking, Machine.keying, keyTrace]

theorem hear_quiet {pre : List UInt8} (hpre : ∀ u ∈ pre, 59 ≤ u) (n : Nat) (l : List UInt8) :
    Ear.polling.hear n (pre ++ l) = Ear.polling.hear (n + pre.length) l := by
  induction pre generalizing n with
  | nil => rfl
  | cons u pre ih =>
      have hu : ¬ u < 59 := by simpa using hpre u (by simp)
      rw [List.cons_append, Ear.hear, if_neg hu, ih fun u' hu' => hpre u' (by simp [hu'])]
      simp [Nat.add_comm 1, Nat.add_assoc]

theorem hear_accept {v : UInt8} (hv : v < 59) (n : Nat) (l : List UInt8) :
    Ear.polling.hear n (v :: l) = (n, v) :: (Ear.releasing v).hear (n + 1) l := by
  rw [Ear.hear, if_pos hv]

theorem hear_held {v : UInt8} {held : List UInt8} (hheld : ∀ u ∈ held, u = v) (n : Nat)
    (l : List UInt8) :
    (Ear.releasing v).hear n (held ++ l) = (Ear.releasing v).hear (n + held.length) l := by
  induction held generalizing n with
  | nil => rfl
  | cons u held ih =>
      rw [List.cons_append, Ear.hear, if_pos (hheld u (by simp)),
        ih fun u' hu' => hheld u' (by simp [hu'])]
      simp [Nat.add_comm 1, Nat.add_assoc]

theorem hear_released {v w : UInt8} (hw : w ≠ v) (n : Nat) (l : List UInt8) :
    (Ear.releasing v).hear n (w :: l) = Ear.polling.hear (n + 1) l := by
  rw [Ear.hear, if_neg hw]

/-- The calls store what the automaton hears and look up nothing else, and in the end
they wait. -/
theorem callForever_stores (place : Nat → Location) (fg : Nat → UInt32) (i n : Nat)
    (s : Machine) :
    ∃ s' t, (callForever place fg i).Stops s .waiting s' ∧ s'.bus = s.bus ++ t ∧
      (storesFrom n t =
        (Ear.polling.hear n (s.samples 0x60)).map fun (j, v) => (j, keyChar v)) ∧
      lookups t = (Ear.polling.hear n (s.samples 0x60)).flatMap fun (_, v) => looksAt v := by
  rcases consoleInputCharacter_ends (place i) (fg i) s with
    ⟨hquiet, hstop⟩ | ⟨pre, v, after, hl, hpre, hv, hend⟩
  · refine ⟨_, _, Prog.loop_stop (Prog.Ends.bind_stopped _ hstop), taking_bus _ _ _, ?_⟩
    have htrace := storesFrom_samples n (s.samples 0x60) []
    have hhear := hear_quiet hquiet n []
    rw [List.append_nil] at htrace hhear
    rw [htrace, hhear]
    exact ⟨rfl, lookups_samples _⟩
  · rw [hl, hear_quiet hpre, hear_accept hv, List.map_cons, List.flatMap_cons]
    rcases hend with ⟨hheld, hstop⟩ | ⟨held, w, rest, rfl, hheld, hw, hreturn⟩
    · refine ⟨_, _, Prog.loop_stop (Prog.Ends.bind_stopped _ hstop), key_bus _ _ _ _ _ _ _ _, ?_⟩
      have htrace := storesFrom_key n (place i) pre v after []
      have hhear := hear_held hheld (n + pre.length + 1) []
      rw [List.append_nil] at htrace hhear
      rw [htrace, hhear, lookups_key]
      exact ⟨rfl, by simp [Ear.hear]⟩
    · have hturn : (callTurn place fg i).Returns s (.again (i + 1)) _ :=
        hreturn.bind (Prog.returns_pure _ _)
      obtain ⟨s', t, hrest, hbus, hstores, hlookups⟩ := callForever_stores place fg (i + 1)
        (n + pre.length + 1 + (held.length + 1))
        (((s.taking (pre ++ [v]) (held ++ w :: rest)).keying (place i) (fg i) v).taking
          (held ++ [w]) rest)
      rw [key_bus, List.append_assoc] at hbus
      rw [Machine.taking_samples] at hstores hlookups
      refine ⟨s', _, Prog.loop_again hturn hrest, hbus, ?_⟩
      rw [storesFrom_key, lookups_append, lookups_key, List.length_append,
        List.length_singleton, hstores, hlookups, hear_held hheld, hear_released hw]
      simp only [Nat.add_assoc, and_self]
termination_by (s.samples 0x60).length
decreasing_by
  rw [hl, Machine.taking_samples]
  simp
  omega

section Blocks
open Runs

/-- The delivered blocks: the number of each, the number of the sample that is accepted
and its scan code. `late` says that the block before was delivered, so that the first
sample of this one ends its release wait. -/
def delivered : Bool → Nat → Nat → List (UInt8 × Nat) → List (Nat × Nat × UInt8)
  | _, _, _, [] => []
  | late, i, n, (v, k) :: bs =>
    if v < 59 ∧ (2 ≤ k ∨ late = false) then
      (i, (if late then n + 1 else n), v) :: delivered true (i + 1) (n + k) bs
    else delivered false (i + 1) (n + k) bs

def Ear.late : Ear → Bool
  | .polling => false
  | .releasing _ => true

/-- The next block is not the one whose release is waited for. -/
def Ear.Meets : Ear → List (UInt8 × Nat) → Prop
  | .releasing v, b :: _ => b.1 ≠ v
  | _, _ => True

theorem meets_tail {v : UInt8} {k : Nat} {bs : List (UInt8 × Nat)}
    (h : Maximal ((v, k) :: bs)) : (Ear.releasing v).Meets bs := by
  cases bs with
  | nil => trivial
  | cons b bs =>
      cases h.apart with
      | cons_cons hne _ => exact hne.symm

/-- From the start of a block the automaton hears the delivered blocks. -/
theorem hear_blocks {bs : List (UInt8 × Nat)} (h : Maximal bs) {e : Ear} (he : e.Meets bs)
    (i n : Nat) : e.hear n (expand bs) = (delivered e.late i n bs).map (·.2) := by
  induction bs generalizing e i n with
  | nil => cases e <;> rfl
  | cons b bs ih =>
      obtain ⟨v, k⟩ := b
      obtain ⟨k, rfl⟩ : ∃ k', k = k' + 1 := ⟨k - 1, by have := h.positive (v, k) (by simp); omega⟩
      have hsame : ∀ m, ∀ u ∈ List.replicate m v, u = v := fun m u hu => List.eq_of_mem_replicate hu
      have hpress := ih h.tail (meets_tail h) (i + 1) (n + (k + 1))
      have hother := ih h.tail (e := .polling) trivial (i + 1) (n + (k + 1))
      have hcount : n + 1 + k = n + (k + 1) := by omega
      by_cases hv : v < 59
      · cases e with
        | polling =>
            rw [expand_cons, List.replicate_succ, List.cons_append, hear_accept hv,
              hear_held (hsame k), delivered, if_pos ⟨hv, .inr rfl⟩, List.length_replicate,
              hcount, hpress]
            rfl
        | releasing u =>
            rw [expand_cons, List.replicate_succ, List.cons_append, hear_released he]
            cases k with
            | zero =>
                rw [delivered, if_neg (by simp [Ear.late])]
                exact hother
            | succ k =>
                rw [List.replicate_succ, List.cons_append, hear_accept hv, hear_held (hsame k),
                  delivered, if_pos ⟨hv, .inl (by omega)⟩, List.length_replicate,
                  show n + 1 + 1 + k = n + (k + 1 + 1) by omega, hpress]
                rfl
      · have hquiet : ∀ m, ∀ u ∈ List.replicate m v, 59 ≤ u := fun m u hu => by
          rw [hsame m u hu]
          simpa using hv
        rw [delivered, if_neg fun hd => hv hd.1]
        cases e with
        | polling =>
            rw [expand_cons, hear_quiet (hquiet _), List.length_replicate]
            exact hother
        | releasing u =>
            rw [expand_cons, List.replicate_succ, List.cons_append, hear_released he,
              hear_quiet (hquiet _), List.length_replicate, hcount]
            exact hother

def deliveredBlocks (bs : List (UInt8 × Nat)) : List Nat := (delivered false 0 0 bs).map (·.1)

theorem delivered_ge {late : Bool} {i n : Nat} {bs : List (UInt8 × Nat)} {j : Nat}
    (h : j ∈ (delivered late i n bs).map (·.1)) : i ≤ j := by
  induction bs generalizing late i n with
  | nil => simp [delivered] at h
  | cons b bs ih =>
      obtain ⟨v, k⟩ := b
      rw [delivered] at h
      split at h
      · cases h with
        | head => exact Nat.le_refl _
        | tail _ h => exact Nat.le_of_succ_le (ih h)
      · exact Nat.le_of_succ_le (ih h)

theorem delivered_increasing (late : Bool) (i n : Nat) (bs : List (UInt8 × Nat)) :
    ((delivered late i n bs).map (·.1)).Pairwise (· < ·) := by
  induction bs generalizing late i n with
  | nil => simp [delivered]
  | cons b bs ih =>
      obtain ⟨v, k⟩ := b
      rw [delivered]
      split
      · exact List.Pairwise.cons (fun j hj => delivered_ge hj) (ih _ _ _)
      · exact ih _ _ _

/-- The head decides about block `i` alone; `late'` is what it passes on. -/
theorem delivered_head (late : Bool) (i n : Nat) (v : UInt8) (k : Nat)
    (bs : List (UInt8 × Nat)) :
    ∃ late' : Bool,
      (∀ m, i + m ∈ (delivered late i n ((v, k) :: bs)).map (·.1) ↔
        (m = 0 ∧ late' = true) ∨ i + m ∈ (delivered late' (i + 1) (n + k) bs).map (·.1)) ∧
      i ∉ (delivered late' (i + 1) (n + k) bs).map (·.1) ∧
      (late' = true ↔ v < 59 ∧ (2 ≤ k ∨ late = false)) := by
  have hnot : ∀ late', i ∉ (delivered late' (i + 1) (n + k) bs).map (·.1) :=
    fun late' h => absurd (delivered_ge h) (by omega)
  by_cases hcond : v < 59 ∧ (2 ≤ k ∨ late = false)
  · exact ⟨true, fun m => by rw [delivered, if_pos hcond]; simp, hnot true, by simp [hcond]⟩
  · exact ⟨false, fun m => by rw [delivered, if_neg hcond]; simp, hnot false, by simp [hcond]⟩

theorem mem_delivered_iff (late : Bool) (i n : Nat) (bs : List (UInt8 × Nat)) (j : Nat)
    (hj : j < bs.length) :
    i + j ∈ (delivered late i n bs).map (·.1) ↔
      bs[j].1 < 59 ∧ (2 ≤ bs[j].2 ∨
        if j = 0 then late = false else i + j - 1 ∉ (delivered late i n bs).map (·.1)) := by
  induction bs generalizing late i n j with
  | nil => simp at hj
  | cons b bs ih =>
      obtain ⟨v, k⟩ := b
      obtain ⟨late', hlist, hhead, hlate⟩ := delivered_head late i n v k bs
      cases j with
      | zero =>
          have hzero := hlist 0
          rw [Nat.add_zero] at hzero
          simpa [hzero, hhead] using hlate
      | succ j =>
          have hrest := ih late' (i + 1) (n + k) j (by simpa using hj)
          have hprev : i + j ∉ (delivered late i n ((v, k) :: bs)).map (·.1) ↔
              if j = 0 then late' = false
              else i + j ∉ (delivered late' (i + 1) (n + k) bs).map (·.1) := by
            by_cases hj0 : j = 0
            · subst hj0
              rw [if_pos rfl, hlist 0]
              simp only [Nat.add_zero, true_and, or_iff_left hhead, Bool.not_eq_true]
            · rw [if_neg hj0, hlist j]
              simp only [hj0, false_and, false_or]
          rw [Nat.add_right_comm, Nat.add_sub_cancel, ← hprev] at hrest
          rw [hlist (j + 1), if_neg (Nat.succ_ne_zero j)]
          simp only [Nat.succ_ne_zero, false_and, false_or]
          exact hrest

/-- A delivered block is known by its number, its accepted sample lies in it and the
scan code is its own. -/
theorem delivered_sound (as : List (UInt8 × Nat)) {bs : List (UInt8 × Nat)}
    (hpos : ∀ b ∈ bs, 0 < b.2) {late : Bool} {d : Nat × Nat × UInt8}
    (hd : d ∈ delivered late as.length (expand as).length bs) :
    ∃ h : d.1 < (as ++ bs).length, blockAt (as ++ bs) d.2.1 = d.1 ∧
      d.2.2 = (as ++ bs)[d.1].1 := by
  induction bs generalizing as late with
  | nil => simp [delivered] at hd
  | cons b bs ih =>
      obtain ⟨v, k⟩ := b
      have hk : 0 < k := hpos (v, k) (by simp)
      have htail : ∀ late', d ∈ delivered late' (as.length + 1) ((expand as).length + k) bs →
          ∃ h : d.1 < (as ++ (v, k) :: bs).length,
            blockAt (as ++ (v, k) :: bs) d.2.1 = d.1 ∧
              d.2.2 = (as ++ (v, k) :: bs)[d.1].1 := by
        intro late' hd'
        have hcons : as ++ (v, k) :: bs = (as ++ [(v, k)]) ++ bs := by simp
        have hlen : (expand (as ++ [(v, k)])).length = (expand as).length + k := by
          simp [expand_append]
        have hd'' : d ∈ delivered late' (as ++ [(v, k)]).length
            (expand (as ++ [(v, k)])).length bs := by simpa [hlen] using hd'
        have hrest := ih _ (fun b hb => hpos b (by simp [hb])) hd''
        simpa only [hcons] using hrest
      rw [delivered] at hd
      split at hd
      · rename_i hcond
        rcases List.mem_cons.mp hd with rfl | hd
        · refine ⟨by simp, ?_, by simp⟩
          cases late with
          | false => simpa [blockAt, hk] using blockAt_append as ((v, k) :: bs) 0
          | true =>
              have htwo : 2 ≤ k := by simpa using hcond.2
              have hone : 1 < k := htwo
              simpa [blockAt, hone] using blockAt_append as ((v, k) :: bs) 1
        · exact htail true hd
      · exact htail false hd

def Machine.keyBlocks (s : Machine) : List (UInt8 × Nat) := blocks (s.samples 0x60)

theorem callForever_blocks (place : Nat → Location) (fg : Nat → UInt32) (s : Machine) :
    ∃ s' t, (callForever place fg 0).Stops s .waiting s' ∧ s'.bus = s.bus ++ t ∧
      stores t = (delivered false 0 0 s.keyBlocks).map fun d => (d.2.1, keyChar d.2.2) := by
  obtain ⟨s', t, hstop, hbus, hstores, -⟩ := callForever_stores place fg 0 0 s
  have hhear := hear_blocks (maximal_blocks (s.samples 0x60)) (e := .polling) trivial 0 0
  rw [expand_blocks] at hhear
  refine ⟨s', t, hstop, hbus, hstores.trans ?_⟩
  rw [hhear, List.map_map]
  rfl

theorem keyBlocks_sound (s : Machine) {d : Nat × Nat × UInt8}
    (hd : d ∈ delivered false 0 0 s.keyBlocks) :
    ∃ h : d.1 < s.keyBlocks.length, blockAt s.keyBlocks d.2.1 = d.1 ∧
      d.2.2 = s.keyBlocks[d.1].1 :=
  delivered_sound [] (maximal_blocks (s.samples 0x60)).positive hd

theorem mem_deliveredBlocks_iff (s : Machine) (i : Nat) (hi : i < s.keyBlocks.length) :
    i ∈ deliveredBlocks s.keyBlocks ↔
      s.keyBlocks[i].1 < 59 ∧
        (2 ≤ s.keyBlocks[i].2 ∨ i = 0 ∨ i - 1 ∉ deliveredBlocks s.keyBlocks) := by
  have hmem := mem_delivered_iff false 0 0 s.keyBlocks i hi
  rw [Nat.zero_add, ← deliveredBlocks] at hmem
  by_cases hi0 : i = 0
  · subst hi0
    simpa using hmem
  · simpa only [hi0, if_false, false_or] using hmem

/-- The reader stores the character of each delivered block, once and in order. A block
is delivered if its scan code is below 59 and it has a second sample, or is the first
one, or follows a block that was not delivered. -/
theorem callForever_exact (place : Nat → Location) (fg : Nat → UInt32) (s : Machine) :
    ∃ s' t, (callForever place fg 0).Stops s .waiting s' ∧ s'.bus = s.bus ++ t ∧
      ∃ ds : List Nat, ds.Pairwise (· < ·) ∧
        List.Forall₂ (fun i d => ∃ h : i < s.keyBlocks.length,
          blockAt s.keyBlocks d.1 = i ∧ d.2 = keyChar s.keyBlocks[i].1) ds (stores t) ∧
        ∀ i (h : i < s.keyBlocks.length), i ∈ ds ↔
          s.keyBlocks[i].1 < 59 ∧ (2 ≤ s.keyBlocks[i].2 ∨ i = 0 ∨ i - 1 ∉ ds) := by
  obtain ⟨s', t, hstop, hbus, hstores⟩ := callForever_blocks place fg s
  refine ⟨s', t, hstop, hbus, deliveredBlocks s.keyBlocks, delivered_increasing _ _ _ _, ?_,
    mem_deliveredBlocks_iff s⟩
  rw [hstores, deliveredBlocks, List.forall₂_map_left_iff, List.forall₂_map_right_iff,
    List.forall₂_same]
  intro d hd
  obtain ⟨hlt, hblock, hcode⟩ := keyBlocks_sound s hd
  exact ⟨hlt, hblock, by rw [hcode]⟩

def Machine.Press (s : Machine) (i : Nat) : Prop :=
  ∃ h : i < s.keyBlocks.length, s.keyBlocks[i].1 < 59

/-- No key press of a single sample directly follows another key press. -/
def Machine.PressesApart (s : Machine) : Prop :=
  ∀ i, s.Press i → s.Press (i + 1) → ∀ h : i + 1 < s.keyBlocks.length,
    2 ≤ s.keyBlocks[i + 1].2

theorem stored_iff_delivered {s : Machine} {t : List BusEvent}
    (h : stores t = (delivered false 0 0 s.keyBlocks).map fun d => (d.2.1, keyChar d.2.2))
    (i : Nat) :
    (∃ d ∈ stores t, blockAt s.keyBlocks d.1 = i) ↔ i ∈ deliveredBlocks s.keyBlocks := by
  rw [h, deliveredBlocks, List.mem_map]
  constructor
  · rintro ⟨d, hd, hblock⟩
    obtain ⟨e, he, rfl⟩ := List.mem_map.mp hd
    obtain ⟨-, hat, -⟩ := keyBlocks_sound s he
    exact ⟨e, he, hat.symm.trans hblock⟩
  · rintro ⟨e, he, rfl⟩
    obtain ⟨-, hat, -⟩ := keyBlocks_sound s he
    exact ⟨_, List.mem_map_of_mem he, hat⟩

/-- Every key press is stored exactly when none of a single sample follows another key
press directly. -/
theorem callForever_no_loss (place : Nat → Location) (fg : Nat → UInt32) (s : Machine) :
    ∃ s' t, (callForever place fg 0).Stops s .waiting s' ∧ s'.bus = s.bus ++ t ∧
      ((∀ i, s.Press i → ∃ d ∈ stores t, blockAt s.keyBlocks d.1 = i) ↔ s.PressesApart) := by
  obtain ⟨s', t, hstop, hbus, hstores⟩ := callForever_blocks place fg s
  refine ⟨s', t, hstop, hbus, ?_⟩
  simp only [stored_iff_delivered hstores]
  constructor
  · intro hall i hi hnext hlt
    obtain ⟨-, htwo | hzero | hlost⟩ :=
      (mem_deliveredBlocks_iff s (i + 1) hlt).mp (hall _ hnext)
    · exact htwo
    · exact absurd hzero (Nat.succ_ne_zero i)
    · exact absurd (hall i hi) hlost
  · intro happart i hi
    obtain ⟨hlt, hcode⟩ := hi
    refine (mem_deliveredBlocks_iff s i hlt).mpr ⟨hcode, ?_⟩
    cases i with
    | zero => exact .inr (.inl rfl)
    | succ i =>
        by_cases hprev : s.Press i
        · exact .inl (happart i hprev ⟨hlt, hcode⟩ hlt)
        · refine .inr (.inr fun hd => hprev ?_)
          have hi : i < s.keyBlocks.length := by omega
          exact ⟨hi, ((mem_deliveredBlocks_iff s i hi).mp hd).1⟩

end Blocks

/-- Two keys seen in one sample each, the second pressed before the first is released. -/
def twoKeys : Machine := { Machine.reset with samples := fun _ => [30, 31] }

theorem callForever_loses_second :
    ∃ s' t, (callForever (fun _ => ⟨.ram, 0⟩) (fun _ => 0) 0).Stops twoKeys .waiting s' ∧
      s'.bus = t ∧ twoKeys.Press 1 ∧
      ¬ ∃ d ∈ stores t, Runs.blockAt twoKeys.keyBlocks d.1 = 1 := by
  obtain ⟨s', t, hstop, hbus, hstores⟩ :=
    callForever_blocks (fun _ => ⟨.ram, 0⟩) (fun _ => 0) twoKeys
  refine ⟨s', t, hstop, hbus, ⟨by decide, by decide⟩, ?_⟩
  rw [stored_iff_delivered hstores]
  decide

end BenchOS
