import BenchOS.Console
import BenchOS.Library.Lines

/-!
One call of `consoleInputCharacter`. It takes samples until one is below 59, stores
the character of that scan code, and takes samples until one differs: the sample
that ends the wait is gone when the next call starts.

`Ear` is the reader as an automaton over single samples, with the wait that a call
is in as its state.
-/
namespace BenchOS

/-- The character the key table has for a scan code. -/
def keyChar (v : UInt8) : UInt8 := (lowercase ++ [0]).getD v.toNat 0

/-- The machine after the samples `taken` have been read and with `rest` to come. -/
def Machine.taking (s : Machine) (taken rest : List UInt8) : Machine :=
  { s with
    samples := Function.update s.samples 0x60 rest
    bus := s.bus ++ taken.map (.inb 0x60) }

def Machine.keying (s : Machine) (input : Location) (fg : UInt32) (v : UInt8) : Machine :=
  { s with
    mem := Function.update s.mem input (keyChar v)
    ssfnDst := if keyChar v > 1 then { s.ssfnDst with fg := fg } else s.ssfnDst
    screen := s.screen ++ if keyChar v > 1 then [⟨keyChar v, fg⟩] else []
    bus := s.bus ++ List.replicate (if keyChar v > 1 then 3 else 2)
      (.read (.lit lowercase v.toNat)) ++ [.write input (keyChar v)] }

@[simp] theorem Machine.taking_samples (s : Machine) (taken rest : List UInt8) :
    (s.taking taken rest).samples 0x60 = rest := by
  simp [Machine.taking]

@[simp] theorem Machine.taking_taking (s : Machine) (a b r r' : List UInt8) :
    (s.taking a r).taking b r' = s.taking (a ++ b) r' := by
  simp [Machine.taking]

@[simp] theorem Machine.keying_samples (s : Machine) (input : Location) (fg : UInt32)
    (v : UInt8) : (s.keying input fg v).samples = s.samples := rfl

theorem Machine.taking_nil {s : Machine} {l : List UInt8} (h : s.samples 0x60 = l) :
    s.taking [] l = s := by
  simp [Machine.taking, ← h]

theorem portRead_returns {s : Machine} {v : UInt8} {rest : List UInt8}
    (h : s.samples 0x60 = v :: rest) : (portRead 0x60).Returns s v (s.taking [v] rest) :=
  .of_forall fun _ => by simp [portRead, h, Machine.taking]

theorem portRead_stops {s : Machine} (h : s.samples 0x60 = []) :
    (portRead 0x60).Stops s .waiting s :=
  .of_forall fun _ => by simp [portRead, h]

theorem poll_leaves {v : UInt8} (hv : v < 59) (s : Machine) :
    (Prog.loop pollTurn v).Returns s v s := by
  have hlow : ¬ v ≥ 59 := by simpa using hv
  apply Prog.loop_leave
  rw [pollTurn, if_neg hlow]
  exact Prog.returns_pure _ _

theorem pollTurn_again {v w : UInt8} {s : Machine} {rest : List UInt8} (hv : 59 ≤ v)
    (h : s.samples 0x60 = w :: rest) :
    (pollTurn v).Returns s (.again w) (s.taking [w] rest) := by
  rw [pollTurn, if_pos hv]
  exact (portRead_returns h).bind (Prog.returns_pure _ _)

theorem poll_found {v w : UInt8} {s : Machine} {pre rest : List UInt8} (hv : 59 ≤ v)
    (h : s.samples 0x60 = pre ++ w :: rest) (hpre : ∀ u ∈ pre, 59 ≤ u) (hw : w < 59) :
    (Prog.loop pollTurn v).Returns s w (s.taking (pre ++ [w]) rest) := by
  induction pre generalizing v s with
  | nil => exact Prog.loop_again (pollTurn_again hv h) (poll_leaves hw _)
  | cons u pre ih =>
      have hrest := ih (hpre u (by simp)) (s := s.taking [u] (pre ++ w :: rest)) (by simp)
        fun u' hu' => hpre u' (by simp [hu'])
      rw [Machine.taking_taking] at hrest
      exact Prog.loop_again (pollTurn_again hv h) hrest

theorem poll_waits {v : UInt8} {s : Machine} {l : List UInt8} (hv : 59 ≤ v)
    (h : s.samples 0x60 = l) (hl : ∀ u ∈ l, 59 ≤ u) :
    (Prog.loop pollTurn v).Stops s .waiting (s.taking l []) := by
  induction l generalizing v s with
  | nil =>
      rw [Machine.taking_nil h]
      apply Prog.loop_stop
      rw [pollTurn, if_pos hv]
      exact Prog.Ends.bind_stopped _ (portRead_stops h)
  | cons u l ih =>
      have hrest := ih (hl u (by simp)) (s := s.taking [u] l) (by simp)
        fun u' hu' => hl u' (by simp [hu'])
      rw [Machine.taking_taking] at hrest
      exact Prog.loop_again (pollTurn_again hv h) hrest

theorem scan_found {s : Machine} {w : UInt8} {pre rest : List UInt8} {β : Type}
    {f : UInt8 → Kernel β} {o : Outcome Halt Machine β}
    (h : s.samples 0x60 = pre ++ w :: rest) (hpre : ∀ u ∈ pre, 59 ≤ u) (hw : w < 59)
    (hf : (f w).Ends (s.taking (pre ++ [w]) rest) o) :
    (portRead 0x60 >>= fun v => Prog.loop pollTurn v >>= f).Ends s o := by
  cases pre with
  | nil => exact (portRead_returns h).bind ((poll_leaves hw _).bind hf)
  | cons u pre =>
      have hrest := poll_found (hpre u (by simp)) (s.taking_samples [u] (pre ++ w :: rest))
        (fun u' hu' => hpre u' (by simp [hu'])) hw
      rw [Machine.taking_taking] at hrest
      exact (portRead_returns h).bind (hrest.bind hf)

theorem scan_waits {s : Machine} {l : List UInt8} {β : Type} (f : UInt8 → Kernel β)
    (h : s.samples 0x60 = l) (hl : ∀ u ∈ l, 59 ≤ u) :
    (portRead 0x60 >>= fun v => Prog.loop pollTurn v >>= f).Stops s .waiting
      (s.taking l []) := by
  cases l with
  | nil =>
      rw [Machine.taking_nil h]
      exact Prog.Ends.bind_stopped _ (portRead_stops h)
  | cons u l =>
      have hrest := poll_waits (hl u (by simp)) (s.taking_samples [u] l)
        fun u' hu' => hl u' (by simp [hu'])
      rw [Machine.taking_taking] at hrest
      exact (portRead_returns h).bind (Prog.Ends.bind_stopped _ hrest)

theorem read_lowercase (m : Mem Object) {v : UInt8} (hv : v < 59) :
    m.read (.lit lowercase v.toNat) = some (keyChar v) := by
  have hlt : v.toNat < 59 := UInt8.lt_iff_toNat_lt.mp hv
  have hlen : v.toNat < (lowercase ++ [0]).length := hlt
  rw [Mem.read, keyChar, List.getD_eq_getElem?_getD, List.getElem?_eq_getElem hlen,
    Option.getD_some]

theorem acceptKey_returns (input : Location) (fg : UInt32) {v : UInt8} (hv : v < 59)
    (s : Machine) : (acceptKey input fg v).Returns s () (s.keying input fg v) := by
  have hread : ∀ m : Mem Object, m.read (.lit lowercase v.toNat) = some (keyChar v) :=
    fun m => read_lowercase m hv
  apply Prog.Ends.of_forall
  intro _
  by_cases hc : keyChar v > 1
  · simp [acceptKey, Over.acceptKey, load, store, Over.consolePutCharacter, setFg, ssfnPutc, hread,
      hc, Machine.keying, List.replicate]
  · simp [acceptKey, Over.acceptKey, load, store, hread, hc, Machine.keying, List.replicate]

theorem releaseTurn_returns {v w : UInt8} {s : Machine} {rest : List UInt8}
    (h : s.samples 0x60 = w :: rest) :
    (releaseTurn v ()).Returns s (if w = v then .again () else .leave ())
      (s.taking [w] rest) := by
  apply (portRead_returns h).bind
  split
  · exact Prog.returns_pure _ _
  · exact Prog.returns_pure _ _

theorem release_found {v w : UInt8} {s : Machine} {held rest : List UInt8}
    (h : s.samples 0x60 = held ++ w :: rest) (hheld : ∀ u ∈ held, u = v) (hw : w ≠ v) :
    (Prog.loop (releaseTurn v) ()).Returns s () (s.taking (held ++ [w]) rest) := by
  induction held generalizing s with
  | nil =>
      have hturn := releaseTurn_returns (v := v) h
      rw [if_neg hw] at hturn
      exact Prog.loop_leave hturn
  | cons u held ih =>
      have hturn := releaseTurn_returns (v := v) h
      rw [if_pos (hheld u (by simp))] at hturn
      have hrest := ih (s := s.taking [u] (held ++ w :: rest)) (by simp)
        fun u' hu' => hheld u' (by simp [hu'])
      rw [Machine.taking_taking] at hrest
      exact Prog.loop_again hturn hrest

theorem release_waits {v : UInt8} {s : Machine} {held : List UInt8}
    (h : s.samples 0x60 = held) (hheld : ∀ u ∈ held, u = v) :
    (Prog.loop (releaseTurn v) ()).Stops s .waiting (s.taking held []) := by
  induction held generalizing s with
  | nil =>
      rw [Machine.taking_nil h]
      exact Prog.loop_stop (Prog.Ends.bind_stopped _ (portRead_stops h))
  | cons u held ih =>
      have hturn := releaseTurn_returns (v := v) h
      rw [if_pos (hheld u (by simp))] at hturn
      have hrest := ih (s := s.taking [u] held) (by simp) fun u' hu' => hheld u' (by simp [hu'])
      rw [Machine.taking_taking] at hrest
      exact Prog.loop_again hturn hrest

/-- A call waits for a scan code below 59, or it accepts one and waits for another
sample, or it returns with that sample taken. -/
theorem consoleInputCharacter_ends (input : Location) (fg : UInt32) (s : Machine) :
    (∀ u ∈ s.samples 0x60, 59 ≤ u) ∧
        (consoleInputCharacter input fg).Stops s .waiting (s.taking (s.samples 0x60) []) ∨
    ∃ pre v after, s.samples 0x60 = pre ++ v :: after ∧ (∀ u ∈ pre, 59 ≤ u) ∧ v < 59 ∧
      ((∀ u ∈ after, u = v) ∧ (consoleInputCharacter input fg).Stops s .waiting
          (((s.taking (pre ++ [v]) after).keying input fg v).taking after []) ∨
        ∃ held w rest, after = held ++ w :: rest ∧ (∀ u ∈ held, u = v) ∧ w ≠ v ∧
          (consoleInputCharacter input fg).Returns s ()
            (((s.taking (pre ++ [v]) after).keying input fg v).taking (held ++ [w]) rest)) := by
  rcases Lines.exists_first (· < 59) (s.samples 0x60) with
    hquiet | ⟨pre, v, after, hl, hpre, hv⟩
  · have hhigh : ∀ u ∈ s.samples 0x60, 59 ≤ u := fun u hu => by simpa using hquiet u hu
    exact .inl ⟨hhigh, scan_waits _ rfl hhigh⟩
  · have hhigh : ∀ u ∈ pre, 59 ≤ u := fun u hu => by simpa using hpre u hu
    refine .inr ⟨pre, v, after, hl, hhigh, hv, ?_⟩
    have hkey := acceptKey_returns input fg hv (s.taking (pre ++ [v]) after)
    have hleft := s.taking_samples (pre ++ [v]) after
    rw [← Machine.keying_samples _ input fg v] at hleft
    rcases Lines.exists_first (· ≠ v) after with hheld | ⟨held, w, rest, rfl, hheld, hw⟩
    · have hall : ∀ u ∈ after, u = v := fun u hu => by simpa using hheld u hu
      exact .inl ⟨hall, scan_found hl hhigh hv (hkey.bind (release_waits hleft hall))⟩
    · have hall : ∀ u ∈ held, u = v := fun u hu => by simpa using hheld u hu
      exact .inr ⟨held, w, rest, rfl, hall, hw,
        scan_found hl hhigh hv (hkey.bind (release_found hleft hall hw))⟩

end BenchOS
