import BenchOS.Printf
import BenchOS.StringCopy
import BenchOS.Library.Lines

/-!
The memory report at boot. Each entry of the map is one line of four fields; the
fields have no fixed width, but a comma ends each number and the newline ends the
name, and neither occurs inside a field. So the text can be parsed again, and two
maps with one text agree in all that a line shows.
-/
namespace BenchOS

def newline : UInt8 := '\n'.toUInt8
def comma : UInt8 := ','.toUInt8

/-- The types that have a name. -/
def MemmapConstants.names (k : MemmapConstants) : List (UInt64 × List UInt8) :=
  [(k.usable, bytes "USABLE"), (k.reserved, bytes "RESERVED"),
    (k.acpiReclaimable, bytes "ACPI_RECLAIMABLE"), (k.acpiNvs, bytes "ACPI_NVS"),
    (k.badMemory, bytes "BAD"), (k.bootloaderReclaimable, bytes "BOOTLOADER_RECLAIMABLE"),
    (k.kernelAndModules, bytes "KERNEL_AND_MODULES"), (k.framebuffer, bytes "FRAMEBUFFER")]

def MemmapConstants.named (k : MemmapConstants) : List UInt64 := k.names.map Prod.fst

def MemmapConstants.status (k : MemmapConstants) (type : UInt64) : List UInt8 :=
  (k.names.lookup type).getD (bytes "UNKNOWN")

def reportLine (k : MemmapConstants) (offset : UInt64) (entry : MemmapEntry) : List UInt8 :=
  bytes "    phys: 0x" ++ (hexText entry.base.toNat ++
    (bytes ", virt: 0x" ++ (hexText ((offset.toNat + entry.base.toNat) % 2 ^ 64) ++
      (bytes ", length: 0x" ++ (hexText entry.length.toNat ++
        (bytes ", status: " ++ (k.status entry.type ++ bytes "\n")))))))

def report (k : MemmapConstants) (offset : UInt64) (entries : List MemmapEntry) :
    List UInt8 :=
  entries.flatMap (reportLine k offset)

/-- All types without a name count as one. -/
def SameType (k : MemmapConstants) (a b : UInt64) : Prop :=
  a = b ∨ (a ∉ k.named ∧ b ∉ k.named)

structure SameEntry (k : MemmapConstants) (a b : MemmapEntry) : Prop where
  base : a.base = b.base
  length : a.length = b.length
  type : SameType k a.type b.type

section Names
variable {α β : Type} [DecidableEq α] {table : List (α × β)} {other : β}

theorem lookup_getD_mem (table : List (α × β)) (other : β) (a : α) :
    (table.lookup a).getD other ∈ other :: table.map Prod.snd := by
  induction table with
  | nil => exact List.mem_cons_self
  | cons e table ih =>
      by_cases ha : a = e.1
      · have heq : (a == e.1) = true := by simpa using ha
        rw [List.lookup_cons, heq]
        exact List.mem_cons_of_mem _ List.mem_cons_self
      · have hne : (a == e.1) = false := by simpa using ha
        rw [List.lookup_cons, hne]
        rcases List.mem_cons.mp ih with h | h
        · exact List.mem_cons.mpr (.inl h)
        · exact List.mem_cons_of_mem _ (List.mem_cons_of_mem _ h)

/-- When no two keys have one value, a value tells its key, and `other` that there is none. -/
theorem lookup_getD_eq_iff (distinct : (other :: table.map Prod.snd).Nodup) {a b : α} :
    (table.lookup a).getD other = (table.lookup b).getD other ↔
      a = b ∨ (a ∉ table.map Prod.fst ∧ b ∉ table.map Prod.fst) := by
  induction table with
  | nil => simp
  | cons e table ih =>
      obtain ⟨key, value⟩ := e
      rw [List.map_cons, List.nodup_cons, List.nodup_cons, List.mem_cons, not_or] at distinct
      obtain ⟨⟨hother, hout⟩, hfresh, hrest⟩ := distinct
      have hvalue : value ∉ other :: table.map Prod.snd := by
        rw [List.mem_cons, not_or]
        exact ⟨Ne.symm hother, hfresh⟩
      have helse : ∀ c, (table.lookup c).getD other ≠ value := fun c hc =>
        hvalue (hc ▸ lookup_getD_mem table other c)
      have ih := ih (List.nodup_cons.mpr ⟨hout, hrest⟩)
      by_cases ha : a = key
      · by_cases hb : b = key
        · simp [ha, hb]
        · have hne : (b == key) = false := by simpa using hb
          simpa [List.lookup_cons, ha, hne, Ne.symm hb] using (helse b).symm
      · have hne : (a == key) = false := by simpa using ha
        by_cases hb : b = key
        · simpa [List.lookup_cons, hb, hne, ha] using helse a
        · have hne' : (b == key) = false := by simpa using hb
          simpa [List.lookup_cons, hne, hne', ha, hb] using ih

end Names

theorem memmapTypeName_status (k : MemmapConstants) (type : UInt64) :
    bytes (memmapTypeName k type) = k.status type := by
  simp only [memmapTypeName, MemmapConstants.status, MemmapConstants.names, List.lookup_cons,
    List.lookup_nil]
  repeat' split
  all_goals simp_all

theorem status_eq_iff (k : MemmapConstants) (a b : UInt64) :
    k.status a = k.status b ↔ SameType k a b := by
  have distinct : (bytes "UNKNOWN" :: k.names.map Prod.snd).Nodup := by
    simp only [MemmapConstants.names, List.map_cons, List.map_nil]
    decide
  exact lookup_getD_eq_iff distinct

/-- A name is a string that does not end the line it is in, and it fits its buffer. -/
theorem status_wellFormed (k : MemmapConstants) (type : UInt64) :
    newline ∉ k.status type ∧ 0 ∉ k.status type ∧ (k.status type).length < 256 := by
  have all : ∀ name ∈ [bytes "UNKNOWN", bytes "USABLE", bytes "RESERVED",
      bytes "ACPI_RECLAIMABLE", bytes "ACPI_NVS", bytes "BAD", bytes "BOOTLOADER_RECLAIMABLE",
      bytes "KERNEL_AND_MODULES", bytes "FRAMEBUFFER"],
      newline ∉ name ∧ 0 ∉ name ∧ name.length < 256 := by decide
  exact all _ (lookup_getD_mem k.names _ type)

theorem memmapTypeName_wellFormed (k : MemmapConstants) (type : UInt64) :
    0 ∉ bytes (memmapTypeName k type) ∧ (bytes (memmapTypeName k type)).length < 256 := by
  rw [memmapTypeName_status]
  exact (status_wellFormed k type).2

theorem hexText_comma (n : Nat) : comma ∉ hexText n := fun h =>
  absurd (hexText_mem h) (by decide)

theorem hexText_newline (n : Nat) : newline ∉ hexText n := fun h =>
  absurd (hexText_mem h) (by decide)

theorem reportLine_isLine (k : MemmapConstants) (offset : UInt64) (entry : MemmapEntry) :
    Lines.IsLine newline (reportLine k offset entry) := by
  have hend : bytes "\n" = [newline] := rfl
  refine ⟨bytes "    phys: 0x" ++ hexText entry.base.toNat ++ bytes ", virt: 0x" ++
    hexText ((offset.toNat + entry.base.toNat) % 2 ^ 64) ++ bytes ", length: 0x" ++
    hexText entry.length.toNat ++ bytes ", status: " ++ k.status entry.type,
    by simp only [reportLine, hend, List.append_assoc], ?_⟩
  have hstatus := (status_wellFormed k entry.type).1
  simp only [List.mem_append, not_or, hexText_newline, hstatus, not_false_eq_true, and_true]
  decide

/-- Lines are equal when their fields are: the commas end the numbers and the newline
ends the name. -/
theorem reportLine_eq_iff (k : MemmapConstants) (offset : UInt64) (a b : MemmapEntry) :
    reportLine k offset a = reportLine k offset b ↔ SameEntry k a b := by
  have hvirt : bytes ", virt: 0x" = comma :: bytes " virt: 0x" := rfl
  have hlength : bytes ", length: 0x" = comma :: bytes " length: 0x" := rfl
  have hstatus : bytes ", status: " = comma :: bytes " status: " := rfl
  have hend : bytes "\n" = [newline] := rfl
  have hname : ∀ type, newline ∉ k.status type := fun type => (status_wellFormed k type).1
  simp only [reportLine, hvirt, hlength, hstatus, hend, List.cons_append,
    List.append_cancel_left_eq, Lines.field_inj (hexText_comma _) (hexText_comma _),
    Lines.field_inj (hname _) (hname _), status_eq_iff]
  constructor
  · rintro ⟨hbase, -, hlen, htype, -⟩
    exact ⟨UInt64.toNat_inj.mp (hexText_injective hbase),
      UInt64.toNat_inj.mp (hexText_injective hlen), htype⟩
  · rintro ⟨hbase, hlen, htype⟩
    rw [hbase, hlen]
    exact ⟨rfl, rfl, rfl, htype, trivial⟩

def reportFormat : String := "    phys: 0x%x, virt: 0x%x, length: 0x%x, status: %s\n"

theorem renders_reportFormat (a b c : UInt64) (t : List UInt8) :
    Renders (bytes reportFormat) [.number a, .number b, .number c, .text t]
      (bytes "    phys: 0x" ++ (hexText a.toNat ++ (bytes ", virt: 0x" ++ (hexText b.toNat ++
        (bytes ", length: 0x" ++ (hexText c.toNat ++
          (bytes ", status: " ++ (t ++ bytes "\n")))))))) [] := by
  have hpieces : bytes reportFormat =
      bytes "    phys: 0x" ++ (bytes "%x" ++ (bytes ", virt: 0x" ++ (bytes "%x" ++
        (bytes ", length: 0x" ++ (bytes "%x" ++
          (bytes ", status: " ++ (bytes "%s" ++ bytes "\n"))))))) := by decide
  have hend : percent ∉ bytes "\n" := by decide
  have hstatus := (renders_plain hend []).text (bytes ", status: ") t (by decide)
  have hlength := hstatus.number (bytes ", length: 0x") c (by decide)
  have hvirt := hlength.number (bytes ", virt: 0x") b (by decide)
  rw [hpieces]
  exact hvirt.number _ a (by decide)

theorem memmapEntryReport_said (k : MemmapConstants) (frameAllocator : FrameAllocator)
    (entry : MemmapEntry) (s : Machine) :
    ∃ s', (memmapEntryReport k frameAllocator entry).Returns s () s' ∧
      Says s s' (glyphs s.globalFg (reportLine k frameAllocator.physicalOffset entry)) := by
  obtain ⟨hnul, hlen⟩ := memmapTypeName_wellFormed k entry.type
  obtain ⟨t, hcopy⟩ := strcpy_returns memmapType (s := s)
    (cstring_lit s.mem (bytes (memmapTypeName k entry.type)) hnul) trivial (by omega)
  let s₁ : Machine :=
    { s with
      mem := s.mem.blit memmapType (bytes (memmapTypeName k entry.type) ++ [0])
      bus := s.bus ++ t }
  have hformat : Holds s₁.mem (literal reportFormat) (bytes reportFormat) :=
    holds_literal _ _ (by decide)
  have hstring := cstring_blit s.mem memmapType _ hnul (by omega)
  have hbuffer : memmapType.obj ≠ .numHex := by decide
  have hname : Holds s₁.mem (.loc memmapType) (bytes (memmapTypeName k entry.type)) :=
    ⟨hstring, hbuffer⟩
  obtain ⟨left, s', hprintf, hs'⟩ := printf_renders (s := s₁)
    [.number entry.base,
      .number (memoryFrameAllocatorPhysToVirt frameAllocator entry.base),
      .number entry.length, .string (.loc memmapType)]
    (renders_reportFormat entry.base _ entry.length _) hformat
    (.cons rfl (.cons rfl (.cons rfl (.cons hname .nil))))
  have hcopied : Says s s₁ [] := ⟨s₁.mem, s.ssfnDst, t, by simp [s₁]⟩
  have hsaid := hcopied.trans hs'.said
  rw [List.nil_append, memoryFrameAllocatorPhysToVirt, UInt64.toNat_add, memmapTypeName_status]
    at hsaid
  exact ⟨s', hcopy.bind (hprintf.bind (Prog.returns_pure _ _)), hsaid⟩

theorem memmap_loop_said (k : MemmapConstants) (frameAllocator : FrameAllocator)
    (entries : List MemmapEntry) (i : Nat) (s : Machine) :
    ∃ s', (Prog.loop (memmapTurn k frameAllocator entries) i).Returns s () s' ∧
      Says s s' (glyphs s.globalFg (report k frameAllocator.physicalOffset (entries.drop i))) := by
  cases hentry : entries[i]? with
  | none =>
      have hend : entries.drop i = [] :=
        List.drop_eq_nil_of_le (List.getElem?_eq_none_iff.mp hentry)
      refine ⟨s, Prog.loop_leave (.of_forall fun _ => ?_), ?_⟩
      · simp [memmapTurn, Over.memmapTurn, hentry]
      · rw [hend]
        exact (Prints.refl s).said
  | some entry =>
      obtain ⟨hi, hget⟩ := List.getElem?_eq_some_iff.mp hentry
      obtain ⟨s₁, hreport, hsaid⟩ := memmapEntryReport_said k frameAllocator entry s
      have hturn : (memmapTurn k frameAllocator entries i).Returns s (.again (i + 1)) s₁ := by
        rw [memmapTurn, Over.memmapTurn, hentry]
        exact hreport.bind (Prog.returns_pure _ _)
      obtain ⟨s', hloop, hrest⟩ := memmap_loop_said k frameAllocator entries (i + 1) s₁
      refine ⟨s', Prog.loop_again hturn hloop, ?_⟩
      have hfg : s₁.globalFg = s.globalFg := hsaid.globalFg_eq
      rw [hfg] at hrest
      rw [List.drop_eq_getElem_cons hi, hget, report, List.flatMap_cons, glyphs_append]
      exact hsaid.trans hrest
termination_by entries.length - i

theorem memmap_loop (k : MemmapConstants) (frameAllocator : FrameAllocator)
    (entries : List MemmapEntry) (i : Nat) (s : Machine) :
    ∃ s', (Prog.loop (memmapTurn k frameAllocator entries) i).Returns s () s' ∧
      s'.screen = s.screen ++
        glyphs s.globalFg (report k frameAllocator.physicalOffset (entries.drop i)) := by
  obtain ⟨s', hloop, hsaid⟩ := memmap_loop_said k frameAllocator entries i s
  exact ⟨s', hloop, hsaid.screen_eq⟩

/-- The report is complete, one line an entry, and it determines all that it shows. -/
theorem memmapLoop_report (k : MemmapConstants) (frameAllocator : FrameAllocator) :
    (∀ entries s, ∃ s', (memmapLoop k frameAllocator entries).Returns s () s' ∧
      s'.screen = s.screen ++ glyphs s.globalFg (report k frameAllocator.physicalOffset entries)) ∧
    (∀ offset entry, Lines.IsLine newline (reportLine k offset entry)) ∧
    (∀ offset as bs, report k offset as = report k offset bs ↔
      List.Forall₂ (SameEntry k) as bs) := by
  refine ⟨fun entries s => memmap_loop k frameAllocator entries 0 s, reportLine_isLine k,
    fun offset as bs => ?_⟩
  simp only [report, Lines.flatMap_eq_iff (reportLine_isLine k offset), reportLine_eq_iff]

def limineConstants : MemmapConstants := ⟨0, 1, 2, 3, 4, 5, 6, 7, by decide⟩

/-- Usable memory, and memory of a type without a name so high that the sum wraps. -/
theorem memmapLoop_report_two :
    ∃ s', (memmapLoop limineConstants ⟨0xffff800000000000⟩
        [⟨0x1000, 0x9000, 0⟩, ⟨0x800000000abc, 0, 99⟩]).Returns Machine.reset () s' ∧
      s'.screen = glyphs Machine.reset.globalFg (bytes
        "    phys: 0x1000, virt: 0xffff800000001000, length: 0x9000, status: USABLE\n" ++ bytes
        "    phys: 0x800000000abc, virt: 0xabc, length: 0x00, status: UNKNOWN\n") := by
  obtain ⟨s', hreturns, hscreen⟩ := (memmapLoop_report limineConstants ⟨0xffff800000000000⟩).1
    [⟨0x1000, 0x9000, 0⟩, ⟨0x800000000abc, 0, 99⟩] Machine.reset
  have htext : report limineConstants 0xffff800000000000
      [⟨0x1000, 0x9000, 0⟩, ⟨0x800000000abc, 0, 99⟩] = bytes
        "    phys: 0x1000, virt: 0xffff800000001000, length: 0x9000, status: USABLE\n" ++ bytes
        "    phys: 0x800000000abc, virt: 0xabc, length: 0x00, status: UNKNOWN\n" := by
    decide +kernel
  refine ⟨s', hreturns, ?_⟩
  rw [← htext]
  exact hscreen.trans (List.nil_append _)

end BenchOS
