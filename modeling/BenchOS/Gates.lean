import BenchOS.Interrupts
import BenchOS.Library.Blocks

/-!
The interrupt table as the processor sees it: what a packed descriptor decodes
to, what `initInterrupts` leaves in the table and which vectors it can be looked
up for.

The limit handed to `lidt` is 255 for a table of 4096 bytes. A gate ends at byte
`16 * v + 15`, so the gates of the vectors above 15 are out of reach, whatever
they hold.
-/
namespace BenchOS

def InterruptDescriptor64.gate (d : InterruptDescriptor64) : Gate where
  offset := d.handlerPointerLow.toUInt64 + d.handlerPointerMed.toUInt64 <<< 16 +
    d.handlerPointerHigh.toUInt64 <<< 32
  selector := d.segmentSelector
  ist := d.ist &&& 7
  typeAttributes := d.typeAttributes
  reserved := d.zero

/-- Entry `v` of the table at `idt` holds `d`. -/
def EntryAt (m : Mem Object) (idt : Location) (v : Nat) (d : InterruptDescriptor64) : Prop :=
  m.Block (idt.add (16 * v)) d.packed

/-- Looking `v` up leads to the gate of `d` and through it to `handler`. -/
def Machine.Enters (s : Machine) (v : Nat) (d : InterruptDescriptor64) (handler : UInt64) :
    Prop :=
  s.lookup v = some d.gate ∧ d.gate.offset = handler

@[simp] theorem length_packed (d : InterruptDescriptor64) : d.packed.length = 16 := rfl

/-- The fields of a packed descriptor by their offsets. -/
theorem block_packed {m : Mem Object} {l : Location} {d : InterruptDescriptor64}
    (h : m.Block l d.packed) :
    m.Block l (bytes16 d.handlerPointerLow) ∧ m.Block (l.add 2) (bytes16 d.segmentSelector) ∧
      m (l.add 4) = d.ist ∧ m (l.add 5) = d.typeAttributes ∧
      m.Block (l.add 6) (bytes16 d.handlerPointerMed) ∧
      m.Block (l.add 8) (bytes32 d.handlerPointerHigh) ∧ m.Block (l.add 12) (bytes32 d.zero) := by
  simp only [InterruptDescriptor64.packed, Mem.block_append, Mem.block_cons,
    List.length_append, length_bytes16, length_bytes32, List.length_cons, List.length_nil,
    Loc.add_add] at h
  obtain ⟨⟨⟨⟨⟨hlow, hselector⟩, hist, htype, -⟩, hmed⟩, hhigh⟩, hzero⟩ := h
  exact ⟨hlow, hselector, hist, htype, hmed, hhigh, hzero⟩

theorem readGate_packed {m : Mem Object} {l : Location} {d : InterruptDescriptor64}
    (h : m.Block l d.packed) : readGate m l = d.gate := by
  obtain ⟨hlow, hselector, hist, htype, hmed, hhigh, hzero⟩ := block_packed h
  have hoffset : UInt64.ofNat (d.handlerPointerLow.toNat +
      2 ^ 16 * d.handlerPointerMed.toNat + 2 ^ 32 * d.handlerPointerHigh.toNat) =
      d.gate.offset := by
    have hl := UInt16.toNat_lt d.handlerPointerLow
    have hm := UInt16.toNat_lt d.handlerPointerMed
    have hh := UInt32.toNat_lt d.handlerPointerHigh
    rw [← UInt64.toNat_inj]
    simp [InterruptDescriptor64.gate, Nat.shiftLeft_eq]
    omega
  simp only [readGate, number_bytes16 hlow, number_bytes16 hselector, number_bytes16 hmed,
    number_bytes32 hhigh, number_bytes32 hzero, hist, htype, hoffset]
  simp [InterruptDescriptor64.gate]

theorem interruptsNewEntry_offset (segmentSelector : UInt16) (handler : UInt64)
    (typeAttributes ist : UInt8) :
    (interruptsNewEntry segmentSelector handler typeAttributes ist).gate.offset = handler := by
  have hlt := UInt64.toNat_lt handler
  rw [← UInt64.toNat_inj]
  simp [interruptsNewEntry, InterruptDescriptor64.gate, Nat.shiftRight_eq_div_pow,
    Nat.shiftLeft_eq]
  omega

/-- The reserved bits of the gate at `l` are zero: the upper five of its IST byte and its
last word. -/
def ReservedZero (m : Mem Object) (l : Location) : Prop :=
  m (l.add 4) &&& 0xF8 = 0 ∧ m.number (l.add 12) 4 = 0

theorem ist_masks {ist : UInt8} (h : ist ≤ 7) : ist &&& 7 = ist ∧ ist &&& 0xF8 = 0 := by
  have all : ∀ n ≤ 7, UInt8.ofNat n &&& 7 = UInt8.ofNat n ∧ UInt8.ofNat n &&& 0xF8 = 0 := by
    decide
  have hle : ist.toNat ≤ 7 := UInt8.le_iff_toNat_le.mp h
  simpa using all ist.toNat hle

theorem interruptsNewEntry_gate (segmentSelector : UInt16) (handler : UInt64)
    (typeAttributes : UInt8) {ist : UInt8} (hist : ist ≤ 7) :
    (interruptsNewEntry segmentSelector handler typeAttributes ist).gate =
      ⟨handler, segmentSelector, ist, typeAttributes, 0⟩ := by
  calc (interruptsNewEntry segmentSelector handler typeAttributes ist).gate =
      ⟨(interruptsNewEntry segmentSelector handler typeAttributes ist).gate.offset,
        segmentSelector, ist &&& 7, typeAttributes, 0⟩ := rfl
    _ = ⟨handler, segmentSelector, ist, typeAttributes, 0⟩ := by
      rw [interruptsNewEntry_offset, (ist_masks hist).1]

/-- What `interruptsNewEntry` builds decodes to its arguments, wherever it stands. -/
theorem interruptsNewEntry_decodes {m : Mem Object} {l : Location} {segmentSelector : UInt16}
    {handler : UInt64} {typeAttributes ist : UInt8} (hist : ist ≤ 7)
    (h : m.Block l (interruptsNewEntry segmentSelector handler typeAttributes ist).packed) :
    readGate m l = ⟨handler, segmentSelector, ist, typeAttributes, 0⟩ ∧ ReservedZero m l := by
  obtain ⟨-, -, histbyte, -, -, -, hzero⟩ := block_packed h
  refine ⟨?_, ?_, number_bytes32 hzero⟩
  · rw [readGate_packed h, interruptsNewEntry_gate _ _ _ hist]
  · rw [histbyte]
    exact (ist_masks hist).2

theorem entryAt_blit (m : Mem Object) (idt : Location) (v : Nat) (d : InterruptDescriptor64) :
    EntryAt (m.blit (idt.add (16 * v)) d.packed) idt v d :=
  m.block_blit _ (by simp)

theorem entries_apart (idt : Location) {v w : Nat} (hv : v < 256) (hw : w < 256)
    (hvw : v ≠ w) : (idt.add (16 * v)).Apart 16 (idt.add (16 * w)) 16 :=
  idt.apart_add (by omega) (by omega) (by omega)

/-- `c` stores the blocks `ws` one after the other and does nothing else. -/
def StoresBlocks (c : Kernel Unit) (ws : List (Location × List UInt8)) : Prop :=
  ∀ s : Machine, ∃ t, c.Returns s () { s with mem := s.mem.blits ws, bus := s.bus ++ t }

theorem StoresBlocks.seq {c d : Kernel Unit} {ws ws' : List (Location × List UInt8)}
    (hc : StoresBlocks c ws) (hd : StoresBlocks d ws') :
    StoresBlocks (c >>= fun _ => d) (ws ++ ws') := by
  intro s
  obtain ⟨t, ht⟩ := hc s
  obtain ⟨t', ht'⟩ := hd { s with mem := s.mem.blits ws, bus := s.bus ++ t }
  rw [List.append_assoc, ← Mem.blits_append] at ht'
  exact ⟨t ++ t', ht.bind ht'⟩

theorem setEntry_stores (idt : Location) (v : Nat) (d : InterruptDescriptor64) :
    StoresBlocks (setEntry idt v d) [(idt.add (16 * v), d.packed)] :=
  fun s => ⟨_, Prog.returns_modify _ s⟩

/-- The vectors `initExceptions` installs and their handlers. -/
def ExceptionHandlers.vectors (handlers : ExceptionHandlers) : List (Nat × UInt64) :=
  [(0, handlers.divZero), (3, handlers.breakpoint), (8, handlers.doubleFault),
    (13, handlers.generalProtectionFault), (14, handlers.pageFault)]

/-- The blocks `initExceptions` stores. -/
def ExceptionHandlers.blocks (handlers : ExceptionHandlers) (idt : Location)
    (segmentSelector : UInt16) : List (Location × List UInt8) :=
  handlers.vectors.map fun e =>
    (idt.add (16 * e.1), (interruptsNewEntry segmentSelector e.2 trapGate 0).packed)

theorem vectors_le {handlers : ExceptionHandlers} {v : Nat} {handler : UInt64}
    (he : (v, handler) ∈ handlers.vectors) : v ≤ 15 := by
  have all : ∀ v ∈ handlers.vectors.map Prod.fst, v ≤ 15 := by
    simp [ExceptionHandlers.vectors]
  exact all v (List.mem_map_of_mem he)

theorem vectors_lt {handlers : ExceptionHandlers} {e : Nat × UInt64}
    (he : e ∈ handlers.vectors) : e.1 < 256 :=
  Nat.lt_of_le_of_lt (vectors_le (v := e.1) he) (by decide)

theorem vectors_increase (handlers : ExceptionHandlers) :
    handlers.vectors.Pairwise fun e e' => e.1 < e'.1 := by
  simp [ExceptionHandlers.vectors]

section Install
variable (handlers : ExceptionHandlers) (idt : Location) (segmentSelector : UInt16)

theorem initExceptions_stores :
    StoresBlocks (initExceptions handlers idt segmentSelector)
      (handlers.blocks idt segmentSelector) :=
  (setEntry_stores idt 0 _).seq <| (setEntry_stores idt 3 _).seq <|
    (setEntry_stores idt 8 _).seq <| (setEntry_stores idt 13 _).seq <| setEntry_stores idt 14 _

theorem installed_entry (m : Mem Object) {v : Nat} {handler : UInt64}
    (hv : (v, handler) ∈ handlers.vectors) :
    EntryAt (m.blits (handlers.blocks idt segmentSelector)) idt v
      (interruptsNewEntry segmentSelector handler trapGate 0) := by
  have hlen : ∀ w ∈ handlers.blocks idt segmentSelector, w.2.length ≤ 2 ^ 64 := by
    intro w hw
    obtain ⟨e, -, rfl⟩ := List.mem_map.mp hw
    simp
  have hapart : (handlers.blocks idt segmentSelector).Pairwise fun w w' =>
      w.1.Apart w.2.length w'.1 w'.2.length := by
    rw [ExceptionHandlers.blocks, List.pairwise_map]
    exact (vectors_increase handlers).imp_of_mem fun he he' hlt =>
      entries_apart idt (vectors_lt he) (vectors_lt he') (Nat.ne_of_lt hlt)
  exact m.block_blits hlen hapart (List.mem_map_of_mem hv)

theorem installed_outside (m : Mem Object) {b : Location}
    (h : ∀ v ∈ handlers.vectors.map Prod.fst, ¬ (idt.add (16 * v)).Covers 16 b) :
    m.blits (handlers.blocks idt segmentSelector) b = m b := by
  apply Mem.blits_outside
  intro w hw
  obtain ⟨e, he, rfl⟩ := List.mem_map.mp hw
  exact h e.1 (List.mem_map_of_mem he)

theorem installed_other (m : Mem Object) {v i : Nat} (hv : v < 256)
    (hno : v ∉ handlers.vectors.map Prod.fst) (hi : i < 16) :
    m.blits (handlers.blocks idt segmentSelector) (idt.add (16 * v + i)) =
      m (idt.add (16 * v + i)) := by
  apply installed_outside
  intro w hw hc
  obtain ⟨e, he, rfl⟩ := List.mem_map.mp hw
  have hne : v ≠ e.1 := fun heq => hno (heq ▸ hw)
  have hcover := (idt.add (16 * v)).add_covers hi (by omega)
  rw [Loc.add_add] at hcover
  exact entries_apart idt hv (vectors_lt he) hne _ ⟨hcover, hc⟩

end Install

/-- After `initExceptions` the five entries decode to the handlers installed for them and
everything else is as it was. Any descriptor with an IST of three bits decodes to what it
was built from. -/
theorem initExceptions_gates (handlers : ExceptionHandlers) (idt : Location)
    (segmentSelector : UInt16) (s : Machine) :
    (∃ s', (initExceptions handlers idt segmentSelector).Returns s () s' ∧
      (∀ v handler, (v, handler) ∈ handlers.vectors →
        readGate s'.mem (idt.add (16 * v)) = ⟨handler, segmentSelector, 0, trapGate, 0⟩ ∧
          ReservedZero s'.mem (idt.add (16 * v))) ∧
      (∀ v, v < 256 → v ∉ handlers.vectors.map Prod.fst → ∀ i, i < 16 →
        s'.mem (idt.add (16 * v + i)) = s.mem (idt.add (16 * v + i))) ∧
      (∀ b, (∀ v ∈ handlers.vectors.map Prod.fst, ¬ (idt.add (16 * v)).Covers 16 b) →
        s'.mem b = s.mem b) ∧
      s' = { s with mem := s'.mem, bus := s'.bus }) ∧
    ∀ (m : Mem Object) (l : Location) (segmentSelector : UInt16) (handler : UInt64)
      (typeAttributes ist : UInt8), ist ≤ 7 →
      let d := interruptsNewEntry segmentSelector handler typeAttributes ist
      readGate (m.blit l d.packed) l = ⟨handler, segmentSelector, ist, typeAttributes, 0⟩ ∧
        ReservedZero (m.blit l d.packed) l := by
  constructor
  · obtain ⟨t, hreturns⟩ := initExceptions_stores handlers idt segmentSelector s
    refine ⟨_, hreturns, ?_, ?_, ?_, rfl⟩
    · intro v handler hv
      exact interruptsNewEntry_decodes (by decide)
        (installed_entry handlers idt segmentSelector s.mem hv)
    · intro v hlt hno i hi
      exact installed_other handlers idt segmentSelector s.mem hlt hno hi
    · intro b hb
      exact installed_outside handlers idt segmentSelector s.mem hb
  · intro m l segmentSelector handler typeAttributes ist hist
    exact interruptsNewEntry_decodes hist (m.block_blit l (by simp))

theorem initExceptions_gates_page_fault :
    ∃ s', (initExceptions ⟨0, 0, 0, 0, 0xffffffff80001000⟩ ⟨.idt, 0⟩ 0x28).Returns
        Machine.reset () s' ∧
      readGate s'.mem (Loc.add ⟨.idt, 0⟩ (16 * 14)) =
        ⟨0xffffffff80001000, 0x28, 0, trapGate, 0⟩ ∧
      s'.mem (Loc.add ⟨.idt, 0⟩ (16 * 15 + 2)) = 0 := by
  obtain ⟨⟨s', hreturns, hgates, hother, -⟩, -⟩ :=
    initExceptions_gates ⟨0, 0, 0, 0, 0xffffffff80001000⟩ ⟨.idt, 0⟩ 0x28 Machine.reset
  have hinstalled := hgates 14 0xffffffff80001000 (by decide)
  exact ⟨s', hreturns, hinstalled.1, hother 15 (by decide) (by decide) 2 (by decide)⟩

theorem initInterrupts_returns (handlers : ExceptionHandlers) (idt : Location) (s : Machine) :
    ∃ s', (initInterrupts handlers idt).Returns s () s' ∧ s'.idtr = some ⟨255, idt⟩ ∧
      (∀ v handler, (v, handler) ∈ handlers.vectors →
        EntryAt s'.mem idt v (interruptsNewEntry s.cs handler trapGate 0)) ∧
      (∀ v d, v < 256 → v ∉ handlers.vectors.map Prod.fst → EntryAt s.mem idt v d →
        EntryAt s'.mem idt v d) := by
  have hselector : s.cs ||| 0 = s.cs := by simp
  obtain ⟨t, hinstall⟩ := initExceptions_stores handlers idt s.cs s
  let s₁ : Machine :=
    { s with mem := s.mem.blits (handlers.blocks idt s.cs), bus := s.bus ++ t }
  refine ⟨{ s₁ with idtr := some ⟨255, idt⟩ }, (Prog.returns_get s).bind ?_, rfl, ?_, ?_⟩
  · simp only [hselector]
    exact hinstall.bind (Prog.returns_modify _ s₁)
  · intro v handler hv
    exact installed_entry handlers idt s.cs s.mem hv
  · intro v d hlt hno hd i hi
    have hsame := installed_other handlers idt s.cs s.mem hlt hno hi
    rw [← Loc.add_add] at hsame
    exact hsame.trans (hd i hi)

/-- With the limit 255 a vector is looked up in the table up to 15 and faults above. -/
theorem lookup_eq {s : Machine} {idt : Location} (h : s.idtr = some ⟨255, idt⟩) {v : Nat}
    {d : InterruptDescriptor64} (hd : EntryAt s.mem idt v d) :
    s.lookup v = if v ≤ 15 then some d.gate else none := by
  have hlimit : 16 * v + 15 ≤ (255 : UInt16).toNat ↔ v ≤ 15 := by
    rw [show (255 : UInt16).toNat = 255 from rfl]
    omega
  simp only [Machine.lookup, h, hlimit, readGate_packed hd]

theorem enters_iff {s : Machine} {idt : Location} (h : s.idtr = some ⟨255, idt⟩) {v : Nat}
    {segmentSelector : UInt16} {handler : UInt64} {typeAttributes ist : UInt8}
    (hd : EntryAt s.mem idt v (interruptsNewEntry segmentSelector handler typeAttributes ist)) :
    s.Enters v (interruptsNewEntry segmentSelector handler typeAttributes ist) handler ↔
      v ≤ 15 := by
  rw [Machine.Enters, lookup_eq h hd]
  by_cases hv : v ≤ 15
  · simp [hv, interruptsNewEntry_offset]
  · simp [hv]

/-- The handlers that `initInterrupts` installs are entered in the memory it leaves. Whatever
the table holds by the time of an interrupt, the vectors whose handlers the processor enters
are those up to 15. -/
theorem initInterrupts_enters (handlers : ExceptionHandlers) (idt : Location) (s : Machine) :
    ∃ s', (initInterrupts handlers idt).Returns s () s' ∧
      (∀ v handler, (v, handler) ∈ handlers.vectors →
        EntryAt s'.mem idt v (interruptsNewEntry s.cs handler trapGate 0) ∧
          s'.Enters v (interruptsNewEntry s.cs handler trapGate 0) handler) ∧
      ∀ (m : Mem Object) (v : Nat) (segmentSelector : UInt16) (handler : UInt64)
        (typeAttributes ist : UInt8), v < 256 →
        EntryAt m idt v (interruptsNewEntry segmentSelector handler typeAttributes ist) →
        ({ s' with mem := m }.Enters v
            (interruptsNewEntry segmentSelector handler typeAttributes ist) handler ↔
          v ≤ 15) := by
  obtain ⟨s', hs', hidtr, hinstalled, -⟩ := initInterrupts_returns handlers idt s
  refine ⟨s', hs', ?_, ?_⟩
  · intro v handler hv
    have hentry := hinstalled v handler hv
    exact ⟨hentry, (enters_iff hidtr hentry).mpr (vectors_le hv)⟩
  · intro m v segmentSelector handler typeAttributes ist _ hd
    exact enters_iff (s := { s' with mem := m }) hidtr hd

/-- The page fault handler at 0x1000 is entered through the table the call leaves. -/
theorem initInterrupts_enters_page_fault :
    ∃ s', (initInterrupts ⟨0, 0, 0, 0, 0x1000⟩ ⟨.idt, 0⟩).Returns Machine.reset () s' ∧
      s'.Enters 14 (interruptsNewEntry 0 0x1000 trapGate 0) 0x1000 := by
  obtain ⟨s', hs', hinstalled, henters⟩ :=
    initInterrupts_enters ⟨0, 0, 0, 0, 0x1000⟩ ⟨.idt, 0⟩ Machine.reset
  have hentry : EntryAt s'.mem ⟨.idt, 0⟩ 14 (interruptsNewEntry 0 0x1000 trapGate 0) :=
    (hinstalled 14 0x1000 (by decide)).1
  have hiff := henters s'.mem 14 0 0x1000 trapGate 0 (by decide) hentry
  exact ⟨s', hs', hiff.mpr (by decide)⟩

/-- A table that has one gate from the start, for vector `v` and the handler 0x1000. -/
def oneGate (v : Nat) : Mem Object :=
  Mem.blit (fun _ => 0) (Loc.add ⟨.idt, 0⟩ (16 * v)) (interruptsNewEntry 8 0x1000 trapGate 0).packed

/-- A gate that stands in entry 16 before the call is there after it and cannot be
looked up. -/
theorem initInterrupts_misses_16 :
    ∃ s', (initInterrupts ⟨0, 0, 0, 0, 0⟩ ⟨.idt, 0⟩).Returns
        { Machine.reset with mem := oneGate 16 } () s' ∧
      EntryAt s'.mem ⟨.idt, 0⟩ 16 (interruptsNewEntry 8 0x1000 trapGate 0) ∧
      ¬ s'.Enters 16 (interruptsNewEntry 8 0x1000 trapGate 0) 0x1000 := by
  obtain ⟨s', hs', hidtr, -, hkept⟩ := initInterrupts_returns ⟨0, 0, 0, 0, 0⟩ ⟨.idt, 0⟩
    { Machine.reset with mem := oneGate 16 }
  have hentry := hkept 16 _ (by omega) (by decide) (entryAt_blit (fun _ => 0) _ 16 _)
  exact ⟨s', hs', hentry, fun henters => absurd ((enters_iff hidtr hentry).mp henters) (by omega)⟩

end BenchOS
