import BenchOS.Boot

/-!
No run of the kernel leaves the objects it works on. Every access that its own code makes in
a run is inside the object it is meant for, nothing undefined is met, and the interrupt table
and its register stay as they were set up. The accesses of the renderer are not among these:
`ssfnPutc` records what is drawn and makes none.
-/
namespace BenchOS
open Prog

/-- What the kernel changes after the interrupts are set up. -/
def working : List Object := [.ram, .numHex, .memmapType, .input]

theorem ram_working : Object.ram ∈ working := by decide

section Clear
variable {s : Machine}

theorem store32_tame {i j : UInt64} (hi : i < s.globalFramebuffer.height)
    (hj : j < s.globalFramebuffer.width) (v : UInt32) :
    Tame working (store32 (s.globalFramebuffer.pixel i j) v) s fun _ _ => True := by
  refine meets_modify ⟨⟨rfl, [.write32 _ v], rfl,
    List.forall_mem_singleton.mpr ⟨i, j, hi, hj, rfl⟩⟩, rfl, rfl, ?_, fun _ => rfl⟩ trivial
  intro l hl
  exact s.mem.blit_other _ (ne_of_mem_of_not_mem ram_working hl).symm

theorem consoleClear_tame (color : UInt32) :
    Tame working (consoleClear color) s fun _ _ => True := by
  refine Meets.bind (P := fun _ _ => True) (Meets.loop (I := fun _ _ => True) ?_ trivial)
    fun _ s₁ _ _ => tame_modify ⟨rfl, rfl, rfl, rfl, rfl⟩ (absurd ram_working) trivial
  intro i s₁ _
  refine Meets.bind (P := fun g s' => g = s' ∧ s' = s₁) (meets_get ⟨rfl, rfl⟩) ?_
  rintro g s₂ - ⟨rfl, rfl⟩
  by_cases hi : i < g.globalFramebuffer.height
  · rw [if_pos hi]
    refine Meets.bind (P := fun _ _ => True) (Meets.loop
      (I := fun _ s' => s'.globalFramebuffer = g.globalFramebuffer) ?_ rfl)
      fun _ s₂ _ _ => Meets.bind (P := fun _ _ => True)
        (tame_modify ⟨rfl, rfl, rfl, rfl, rfl⟩ (absurd ram_working) trivial) fun _ s₃ _ _ => meets_pure trivial
    intro j s₂ hfb
    refine Meets.bind (P := fun g' s' => g' = s' ∧ s' = s₂) (meets_get ⟨rfl, rfl⟩) ?_
    rintro g' s₃ - ⟨rfl, rfl⟩
    by_cases hj : j < g'.globalFramebuffer.width
    · rw [if_pos hj]
      refine (store32_tame (hfb ▸ hi) hj color).bind fun _ s₄ h₄ _ => ?_
      exact meets_pure (h₄.framebuffer.trans hfb)
    · rw [if_neg hj]
      exact meets_pure trivial
  · rw [if_neg hi]
    exact meets_pure trivial

/-- A panic shows its message and halts. -/
theorem panic_tame (msg : String) (hno : 0 ∉ bytes msg) :
    Tame working (panic (literal msg)) s fun _ _ => False := by
  have hexit : ∀ s : Machine, Tame working exit s fun _ _ => False :=
    fun _ => meets_stop (show Halt.halted ≠ .undefined by decide)
  refine Meets.bind (P := fun _ _ => True) (meets_get trivial) fun g s₁ _ _ => ?_
  by_cases hinit : g.init = true
  · simp only [if_pos hinit]
    refine (consoleClear_tame 0xff38a169).bind fun _ s₂ _ _ => ?_
    refine (consolePutString_tame 0 (kept_literal _ panicNotice panicNotice_noNul).toText).bind
      fun _ s₃ _ _ => ?_
    exact (consolePutString_tame 0xff5555 (kept_literal _ msg hno).toText).bind
      fun _ s₄ _ _ => hexit s₄
  · simp only [if_neg hinit]
    exact hexit s₁

end Clear
section Strings
variable {s : Machine}

theorem text_lit {m m' : Mem Object} {lit text : List UInt8} {i : Nat}
    (h : Text m (.lit lit i) text) : Text m' (.lit lit i) text :=
  ⟨h.string.congr fun _ _ => rfl, h.inside⟩

theorem memmapType_add {i : Nat} (hi : i < 256) :
    (memmapType.add i).off.toNat < (memmapType.add i).obj.size := by
  have hoff : (memmapType.add i).off = UInt64.ofNat i := by simp [memmapType, Loc.add]
  rw [hoff, UInt64.toNat_ofNat']
  show i % 2 ^ 64 < 256
  omega

/-- A string that fits is copied into its buffer and ends there. -/
theorem strcpy_tame {text : String} (hno : 0 ∉ bytes text) (hlen : (bytes text).length < 256) :
    Tame working (strcpy memmapType (literal text)) s fun _ s' =>
      ∃ t, Kept s'.mem (.loc memmapType) t := by
  have hW : Object.memmapType ∈ working := by decide
  refine Meets.bind
    (P := fun b s' => ∃ k, k < 256 ∧ b.1 = memmapType.add k ∧
      s'.mem.read b.2 = some 0 ∧ MayLoad b.2)
    (Meets.loop (I := fun b s' => ∃ k rest, k + rest.length < 256 ∧ b.1 = memmapType.add k ∧
      ∃ i, b.2 = .lit (bytes text) i ∧ Text s'.mem b.2 rest) ?_ ?_) ?_
  · rintro ⟨dst, src⟩ s₁ ⟨k, rest, hk, rfl, i, rfl, hsrc⟩
    cases rest with
    | nil =>
        refine (tame_load hsrc.string hsrc.first).bind fun c s₂ _ h₂ => ?_
        rw [if_neg (by simp [h₂.1])]
        exact meets_pure ⟨k, by simpa using hk, rfl, hsrc.string, hsrc.first⟩
    | cons c rest =>
        obtain ⟨hread, hc, -⟩ := hsrc.string
        refine (tame_load hread hsrc.first).bind fun c' s₂ _ h₂ => ?_
        rw [if_pos (h₂.1 ▸ hc)]
        refine (tame_load (h₂.2 ▸ hread) hsrc.first).bind fun c'' s₃ _ h₃ => ?_
        rw [List.length_cons] at hk
        refine (tame_store (memmapType_add (by omega)) hW c'').bind fun _ s₄ _ h₄ => ?_
        exact meets_pure ⟨k + 1, rest, by omega, Loc.add_add _ _ _, i + 1, rfl,
          text_lit hsrc.tail⟩
  · exact ⟨0, bytes text, by omega, (Loc.add_zero _).symm, 0, rfl,
      (kept_literal s.mem text hno).toText⟩
  · rintro ⟨dst, src⟩ s₁ - ⟨k, hk, rfl, hread, hmay⟩
    refine (tame_load hread hmay).bind fun c s₂ _ h₂ => ?_
    refine (tame_store (memmapType_add hk) hW c).post fun _ s₃ _ h₃ => ?_
    have hnul : s₃.mem (memmapType.add k) = 0 := by rw [h₃, Function.update_self, h₂.1]
    obtain ⟨t, ht⟩ := text_of_nul (o := .memmapType) (by decide) hk hnul
    exact ⟨t, ht, show Object.memmapType ≠ .numHex by decide⟩

theorem eitherGoesOn_tame {a b : Pointer} {x y : UInt8} (ha : s.mem.read a = some x)
    (hb : s.mem.read b = some y) (hmayA : MayLoad a) (hmayB : MayLoad b) :
    Tame working (eitherGoesOn a b) s fun go s' =>
      s'.mem = s.mem ∧ (go = true → x ≠ 0 ∨ y ≠ 0) := by
  refine (tame_load ha hmayA).bind fun c s₁ _ ⟨hc, h₁⟩ => ?_
  subst hc
  by_cases hx : c = 0
  · rw [if_neg (by simpa using hx)]
    refine (tame_load (h₁ ▸ hb) hmayB).bind fun d s₂ _ ⟨hd, h₂⟩ => meets_pure ⟨h₂.trans h₁, ?_⟩
    subst hd
    exact fun hgo => .inr (by simpa using hgo)
  · rw [if_pos hx]
    exact meets_pure ⟨h₁, fun _ => .inl hx⟩

/-- Neither string is read past its end. -/
theorem stringeq_tame {a b : Pointer} {ta tb : List UInt8} (ha : Text s.mem a ta)
    (hb : Text s.mem b tb) : Tame working (stringeq a b) s fun _ s' => s'.mem = s.mem := by
  have hfirst : ∀ {m : Mem Object} {p : Pointer} {t : List UInt8}, Text m p t →
      ∃ c, m.read p = some c ∧ (c ≠ 0 → ∃ t', Text m (p.add 1) t') := by
    intro m p t ht
    cases t with
    | nil => exact ⟨0, ht.string, fun h => absurd rfl h⟩
    | cons c t => exact ⟨c, ht.string.1, fun _ => ⟨t, ht.tail⟩⟩
  refine Meets.loop (I := fun b s' => s'.mem = s.mem ∧ (∃ t, Text s'.mem b.1 t) ∧
    ∃ t, Text s'.mem b.2 t) ?_ ⟨rfl, ⟨ta, ha⟩, tb, hb⟩
  rintro ⟨a, b⟩ s₁ ⟨h₁, ⟨ta, ha⟩, tb, hb⟩
  obtain ⟨x, hx, hnextA⟩ := hfirst ha
  obtain ⟨y, hy, hnextB⟩ := hfirst hb
  refine (eitherGoesOn_tame hx hy ha.first hb.first).bind fun go s₂ _ ⟨h₂, hgo⟩ => ?_
  by_cases hon : go = true
  · rw [if_pos hon]
    refine (tame_load (h₂ ▸ hx) ha.first).bind fun x' s₃ _ ⟨hx', h₃⟩ => ?_
    refine (tame_load ((h₃.trans h₂) ▸ hy) hb.first).bind fun y' s₄ _ ⟨hy', h₄⟩ => ?_
    subst hx' hy'
    have hmem := h₄.trans (h₃.trans h₂)
    by_cases hdiff : x' ≠ y'
    · rw [if_pos hdiff]
      exact meets_pure (hmem.trans h₁)
    · rw [if_neg hdiff]
      have hsame : x' = y' := not_not.mp hdiff
      have hboth : x' ≠ 0 := by
        rcases hgo hon with h | h
        · exact h
        · exact hsame ▸ h
      exact meets_pure ⟨hmem.trans h₁, hmem ▸ hnextA hboth, hmem ▸ hnextB (hsame ▸ hboth)⟩
  · rw [if_neg hon]
    exact meets_pure (h₂.trans h₁)

end Strings
section Kernel
variable {s : Machine}

/-- A `printf` of the kernel with numbers only. -/
theorem working_printf (text : String) (numbers : List UInt64) (hno : 0 ∉ bytes text)
    (hserves : serves (bytes text) (numbers.map fun _ => false) = true) :
    Tame working (printf (literal text) (numbers.map .number)) s fun _ s' =>
      SameText s.mem s'.mem :=
  printf_numbers_tame (by decide) text numbers hno hserves

theorem memmapEntryReport_tame (k : MemmapConstants) (frameAllocator : FrameAllocator)
    (entry : MemmapEntry) :
    Tame working (memmapEntryReport k frameAllocator entry) s fun _ _ => True := by
  obtain ⟨hno, hlen⟩ := memmapTypeName_wellFormed k entry.type
  refine (strcpy_tame hno hlen).bind fun _ s₁ _ ⟨t, ht⟩ => ?_
  have hserves : serves (bytes reportFormat) [false, false, false, true] = true := by
    decide +kernel
  have hserved : Served s₁.mem (literal reportFormat)
      [.number entry.base, .number (memoryFrameAllocatorPhysToVirt frameAllocator entry.base),
        .number entry.length, .string (.loc memmapType)] (bytes reportFormat) := by
    refine ⟨kept_literal _ _ (by decide +kernel), ?_, hserves⟩
    intro p hp
    simp only [List.mem_cons, reduceCtorEq, VaArg.string.injEq, List.not_mem_nil, or_false,
      false_or] at hp
    subst hp
    exact ⟨t, ht⟩
  exact (printf_tame (by decide) hserved).bind fun _ s₂ _ _ => meets_pure trivial

theorem memmapLoop_tame (k : MemmapConstants) (frameAllocator : FrameAllocator)
    (entries : List MemmapEntry) :
    Tame working (memmapLoop k frameAllocator entries) s fun _ _ => True := by
  refine Meets.loop (I := fun _ _ => True) ?_ trivial
  intro i s₁ _
  rw [Over.memmapTurn]
  cases entries[i]? with
  | none => exact meets_pure trivial
  | some entry =>
      exact (memmapEntryReport_tame k frameAllocator entry).bind fun _ s₂ _ _ =>
        meets_pure trivial

theorem note_tame (how : List UInt8 → Handled) :
    Tame working (note how) s fun _ s' => s'.mem = s.mem :=
  tame_modify ⟨rfl, rfl, rfl, rfl, rfl⟩ (fun _ => rfl) rfl

theorem dumppage_tame : Tame working dumppage s fun _ _ => True := by
  have hask : serves (bytes "Enter address: ") [] = true := by decide +kernel
  have hshow : serves (bytes "\n0x%x\n") [false] = true := by decide +kernel
  refine (working_printf "Enter address: " [] (by decide) hask).bind fun _ s₁ _ _ => ?_
  refine (consoleInputCharacters_tame (by decide) (by decide) 0xffff00).bind
    fun _ s₂ _ ⟨text, htext⟩ => ?_
  refine (note_tame .address).bind fun _ s₃ _ h₃ => ?_
  refine (fromHexString_tame (by decide) (h₃ ▸ htext)).bind fun value s₄ _ _ => ?_
  exact (working_printf "\n0x%x\n" [value] (by decide) hshow).bind fun _ s₅ _ _ =>
    meets_pure trivial

/-- One comparison of `dispatch`. -/
theorem test_tame {text : List UInt8} (h : Kept s.mem (.loc input) text) (name : String)
    (hno : 0 ∉ bytes name) {yes no : Kernel Unit}
    (hyes : ∀ s', Tame working yes s' fun _ _ => True)
    (hother : ∀ s', Kept s'.mem (.loc input) text → Tame working no s' fun _ _ => True) :
    Tame working (do if ← stringeq (.loc input) (literal name) then yes else no) s
      fun _ _ => True := by
  refine (stringeq_tame h.toText (kept_literal _ name hno).toText).bind fun same s₁ _ h₁ => ?_
  by_cases hsame : same = true
  · rw [if_pos hsame]
    exact hyes s₁
  · rw [if_neg hsame]
    exact hother s₁ (h₁ ▸ h)

theorem dispatch_tame {text : List UInt8} (h : Kept s.mem (.loc input) text) :
    Tame working dispatch s fun _ _ => True := by
  have hread : s.mem.read (.loc input) = some (s.mem input) := rfl
  refine (tame_load hread h.toText.first).bind fun c s₁ _ h₁ => ?_
  by_cases hempty : c = 0
  · rw [if_pos hempty]
    exact meets_pure trivial
  rw [if_neg hempty]
  have hexit : serves (bytes "exiting...\n") [] = true := by decide +kernel
  have hhelp : serves (bytes helpText) [] = true := by decide +kernel
  refine test_tame (h₁.2 ▸ h) "exit" (by decide) (fun s₂ => ?_) fun s₂ h₂ =>
    test_tame h₂ "help" (by decide) (fun s₃ => ?_) fun s₃ h₃ =>
      test_tame h₃ "clear" (by decide) (fun s₄ => consoleClear_tame 0) fun s₄ h₄ =>
        test_tame h₄ "dumppage" (by decide) (fun s₅ => dumppage_tame) fun s₅ h₅ => ?_
  · exact (working_printf "exiting...\n" [] (by decide) hexit).bind fun _ s₃ _ _ =>
      meets_stop (show Halt.halted ≠ .undefined by decide)
  · exact (working_printf helpText [] (by decide) hhelp).bind fun _ s₄ _ _ => meets_pure trivial
  · refine (consolePutString_tame 0xff0000
      (kept_literal _ "Unknown command: " (by decide)).toText).bind fun _ s₆ _ h₆ => ?_
    refine (consolePutString_tame 0xff0000 (h₆ ▸ h₅).toText).bind fun _ s₇ _ _ => ?_
    exact (consolePutString_tame 0xff0000 (kept_literal _ "\n" (by decide)).toText).post
      fun _ _ _ _ => trivial

theorem promptLoop_tame : Tame working promptLoop s fun _ _ => False := by
  have hprompt : serves (bytes "> ") [] = true := by decide +kernel
  have hend : serves (bytes "\n") [] = true := by decide +kernel
  refine Meets.loop (I := fun _ _ => True) ?_ trivial
  intro _ s₁ _
  refine (working_printf "> " [] (by decide) hprompt).bind fun _ s₂ _ _ => ?_
  refine (consoleInputCharacters_tame (by decide) (by decide) 0xffff00).bind
    fun _ s₃ _ ⟨text, htext⟩ => ?_
  refine (working_printf "\n" [] (by decide) hend).bind fun _ s₄ _ hsame => ?_
  refine (note_tame .command).bind fun _ s₅ _ h₅ => ?_
  exact (dispatch_tame (h₅ ▸ htext.congr hsame)).bind fun _ s₆ _ _ => meets_pure trivial

theorem kernelMain_tame (k : MemmapConstants) {boot : BootResponses}
    {framebuffer : LimineFramebuffer} {rest : List LimineFramebuffer} {offset : UInt64}
    (hfb : boot.framebuffers = some (framebuffer :: rest)) (hhhdm : boot.hhdm = some offset) :
    Tame working (kernelMain k boot) s fun _ _ => False := by
  have hbanner : serves (bytes "BenchOS 0.1.0\n") [] = true := by decide +kernel
  have husing : serves (bytes "Using framebuffer at 0x%x\n") [false] = true := by
    decide +kernel
  have hoffset : serves (bytes "Offset 0x%x\n") [false] = true := by decide +kernel
  have hdetect : serves (bytes "Detecting memory...\n") [] = true := by decide +kernel
  have hready : serves
      (bytes "\n\nThis is the prompt. Type `help` for more info.\n\n") [] = true := by
    decide +kernel
  refine (working_printf "BenchOS 0.1.0\n" [] (by decide) hbanner).bind fun _ s₁ _ _ => ?_
  simp only [hfb, hhhdm]
  refine (working_printf "Using framebuffer at 0x%x\n" [framebuffer.address] (by decide)
    husing).bind fun _ s₂ _ _ => ?_
  refine (working_printf "Offset 0x%x\n" [offset] (by decide) hoffset).bind fun _ s₃ _ _ => ?_
  refine (working_printf "Detecting memory...\n" [] (by decide) hdetect).bind
    fun _ s₄ _ _ => ?_
  cases boot.memmap with
  | none => exact panic_tame "NO_MEMORY_MAP" (by decide)
  | some entries =>
      refine (memmapLoop_tame k _ entries).bind fun _ s₅ _ _ => ?_
      refine (working_printf "\n\nThis is the prompt. Type `help` for more info.\n\n" []
        (by decide) hready).bind fun _ s₆ _ _ => ?_
      exact promptLoop_tame

end Kernel
section Boot
variable {s : Machine}

/-- The table is written inside its 4096 bytes. -/
theorem setEntry_touches {v : Nat} (hv : v < 256) (d : InterruptDescriptor64) :
    Meets Touches Defined (setEntry ⟨.idt, 0⟩ v d) s fun _ _ => True := by
  refine meets_modify ⟨rfl, _, rfl, ?_⟩ trivial
  intro e he
  obtain ⟨i, hi, rfl⟩ := List.mem_mapIdx.mp he
  rw [length_packed] at hi
  show ((Loc.add (⟨.idt, 0⟩ : Location) (16 * v)).add i).off.toNat < 4096
  rw [Loc.add_add]
  simp only [Loc.add, UInt64.zero_add, UInt64.toNat_ofNat']
  omega

theorem initInterrupts_touches (handlers : ExceptionHandlers) :
    Meets Touches Defined (initInterrupts handlers ⟨.idt, 0⟩) s fun _ _ => True := by
  refine Meets.bind (P := fun _ _ => True) (meets_get trivial) fun g s₁ _ _ => ?_
  refine Meets.bind (P := fun _ _ => True) ?_ fun _ s₂ _ _ =>
    meets_modify (.still rfl rfl) trivial
  refine (setEntry_touches (by decide) _).bind fun _ s₂ _ _ => ?_
  refine (setEntry_touches (by decide) _).bind fun _ s₃ _ _ => ?_
  refine (setEntry_touches (by decide) _).bind fun _ s₄ _ _ => ?_
  refine (setEntry_touches (by decide) _).bind fun _ s₅ _ _ => ?_
  exact setEntry_touches (by decide) _

end Boot

/-- The framebuffer the kernel uses; without one nothing is drawn. -/
def BootResponses.framebuffer (boot : BootResponses) : LimineFramebuffer :=
  match boot.framebuffers with
  | some (framebuffer :: _) => framebuffer
  | _ => ⟨0, 0, 0, 0⟩

section Start
variable {k : MemmapConstants} {handlers : ExceptionHandlers} {boot : BootResponses}
  {framebuffer : LimineFramebuffer} {rest : List LimineFramebuffer}

theorem Moves.touches {W : List Object} {c : Kernel Unit} {s : Machine}
    {Q : Unit → Machine → Prop} (h : Tame W c s Q) : Meets Touches Defined c s Q :=
  h.weaken (fun _ hrel => hrel.toTouches) fun _ _ _ hpost => hpost

theorem booted_touches (hfb : boot.framebuffers = some (framebuffer :: rest)) (s : Machine) :
    Meets Touches Defined (booted k handlers boot) s fun _ _ => False := by
  refine Meets.bind (P := fun _ _ => True) (meets_modify (.still rfl rfl) trivial)
    fun _ s₁ _ _ => ?_
  cases hhhdm : boot.hhdm with
  | none =>
      simp only [Option.isNone_none, if_true]
      exact (Moves.touches (panic_tame "NO_HHDM" (by decide))).bind fun _ _ _ h => h.elim
  | some offset =>
      simp only [Option.isNone_some, Bool.false_eq_true, if_false]
      refine (initInterrupts_touches handlers).bind fun _ s₂ _ _ => ?_
      exact (Moves.touches (kernelMain_tame k hfb hhhdm)).bind fun _ _ _ h => h.elim

end Start

/-- A pixel whose store is permitted is inside the framebuffer. -/
theorem permitted_within {fb : LimineFramebuffer} (hrows : fb.RowsHold) {l b : Location}
    {v : UInt32} (h : Permitted fb (.write32 l v)) (hb : l.Covers 4 b) :
    fb.base.Covers (fb.pitch.toNat * fb.height.toNat) b := by
  obtain ⟨i, j, hi, hj, rfl⟩ := h
  refine hrows.places_within (List.mem_map.mpr ⟨(i.toNat, j.toNat), ?_, ?_⟩) hb
  · exact Raster.mem_cells.mpr ⟨UInt64.lt_iff_toNat_lt.mp hi, UInt64.lt_iff_toNat_lt.mp hj⟩
  · rw [LimineFramebuffer.place, UInt64.ofNat_toNat, UInt64.ofNat_toNat]

/-- The five exceptions lead to their handlers. -/
structure Routed (handlers : ExceptionHandlers) (cs : UInt16) (s : Machine) : Prop where
  idtr : s.idtr = some ⟨255, ⟨.idt, 0⟩⟩
  entries : ∀ v handler, (v, handler) ∈ handlers.vectors →
    EntryAt s.mem ⟨.idt, 0⟩ v (interruptsNewEntry cs handler trapGate 0)

/-- The handlers of the source by their vectors. -/
def handlerCode : List (Nat × Kernel Unit) :=
  [(0, handleDivZero), (3, handleBreakpoint), (8, handleDoubleFault),
    (13, handleGeneralProtectionFault), (14, handlePageFault)]

/-- The messages of those that end in a panic. -/
def panicMessages : List (Nat × String) :=
  [(0, "EXCEPTION_DIV_ZERO"), (8, "EXCEPTION_DOUBLE_FAULT"),
    (13, "EXCEPTION_GENERAL_PROTECTION_FAULT"), (14, "EXCEPTION_PAGE_FAULT")]

theorem handlerCode_panics {v : Nat} {msg : String} (h : (v, msg) ∈ panicMessages) :
    handlerCode.lookup v = some (panic (literal msg)) ∧ 0 ∉ bytes msg := by
  simp only [panicMessages, List.mem_cons, Prod.mk.injEq, List.not_mem_nil, or_false] at h
  rcases h with ⟨rfl, rfl⟩ | ⟨rfl, rfl⟩ | ⟨rfl, rfl⟩ | ⟨rfl, rfl⟩
  all_goals exact ⟨rfl, by decide⟩

section Routes
variable {handlers : ExceptionHandlers} {cs : UInt16} {s s' : Machine}

theorem Routed.moves (h : Routed handlers cs s) (hmoves : Moves working s s') :
    Routed handlers cs s' := by
  refine ⟨hmoves.idtr.trans h.idtr, ?_⟩
  intro v handler hv i hi
  have hidt : Object.idt ∉ working := by decide
  rw [hmoves.mem _ (show ((Loc.add ⟨.idt, 0⟩ (16 * v)).add i).obj ∉ working from hidt)]
  exact h.entries v handler hv i hi

theorem Routed.lookup (h : Routed handlers cs s) {v : Nat} {handler : UInt64}
    (hv : (v, handler) ∈ handlers.vectors) :
    s.lookup v = some ⟨handler, cs, 0, trapGate, 0⟩ := by
  rw [lookup_eq h.idtr (h.entries v handler hv), if_pos (vectors_le hv)]
  exact congrArg some (interruptsNewEntry_gate cs handler trapGate (by decide))

theorem installed_routes (handlers : ExceptionHandlers) (s : Machine) (t : List BusEvent) :
    Routed handlers s.cs (s.installed handlers t) :=
  ⟨rfl, fun _ _ hv => installed_entry handlers ⟨.idt, 0⟩ s.cs s.mem hv⟩

theorem booted_routed {k : MemmapConstants} {boot : BootResponses}
    {framebuffer : LimineFramebuffer} {rest : List LimineFramebuffer} {offset : UInt64}
    (hfb : boot.framebuffers = some (framebuffer :: rest)) (hhhdm : boot.hhdm = some offset)
    {n : Nat} {o : Outcome Halt Machine Unit} (h : booted k handlers boot n s = some o) :
    Routed handlers s.cs o.state ∧ o.state.init = true := by
  let s₁ : Machine := { s with globalFg := 0xffffff, init := true }
  obtain ⟨t, hinstall⟩ := initInterrupts_installs handlers s₁
  have hrouted := installed_routes handlers s₁ t
  have hrest : Tame working (kernelMain k boot >>= fun _ => exit) (s₁.installed handlers t)
      fun _ _ => False :=
    (kernelMain_tame k hfb hhhdm).bind fun _ _ _ h => h.elim
  have hnext : booted k handlers boot n s =
      (initInterrupts handlers ⟨.idt, 0⟩ >>= fun _ => kernelMain k boot >>= fun _ => exit) n
        s₁ := by
    simp only [booted, hhhdm, Option.isNone_some, Bool.false_eq_true, if_false]
    rfl
  rw [hnext, Prog.bind_apply, hinstall n] at h
  have hmoves := (hrest n o h).1
  exact ⟨hrouted.moves hmoves, hmoves.init⟩

end Routes
/-- When a run of a kernel that got its framebuffer and its offset has ended, in the wait for
a key or in a halt, each of the five exceptions still enters its own handler. The breakpoint
handler prints a line, changes nothing but the buffer of `printf` and goes back; the others
show the panic notice with their own message and halt. -/
theorem exceptions_stay_routed (k : MemmapConstants) (handlers : ExceptionHandlers)
    {boot : BootResponses} {framebuffer : LimineFramebuffer} {rest : List LimineFramebuffer}
    {offset : UInt64} (hfb : boot.framebuffers = some (framebuffer :: rest))
    (hhhdm : boot.hhdm = some offset) {s : Machine} {n : Nat} {o : Outcome Halt Machine Unit}
    (h : start k handlers boot n s = some o) :
    (∀ v handler, (v, handler) ∈ handlers.vectors →
      o.state.lookup v = some ⟨handler, s.cs, 0, trapGate, 0⟩) ∧
    (∃ s', handleBreakpoint.Returns o.state () s' ∧
      Prints o.state s' (glyphs o.state.globalFg (bytes "Breakpoint\n"))) ∧
    ∀ v msg, (v, msg) ∈ panicMessages → ∃ code s', handlerCode.lookup v = some code ∧
      code.Stops o.state .halted s' ∧
      s'.screen = o.state.screen ++ panicScreen msg := by
  rw [start_booted hfb] at h
  obtain ⟨hrouted, hinit⟩ :=
    booted_routed (s := s.drawingOn framebuffer) hfb hhhdm h
  refine ⟨fun v handler hv => hrouted.lookup hv, ?_, ?_⟩
  · obtain ⟨left, s', hprint, hp⟩ :=
      printf_literal o.state "Breakpoint\n" (by decide) (by decide)
    exact ⟨s', hprint.bind (Prog.returns_pure _ _), hp⟩
  · intro v msg hv
    obtain ⟨hcode, hno⟩ := handlerCode_panics hv
    obtain ⟨s', hstops, hsaid⟩ := panic_stops hinit msg hno
    exact ⟨_, s', hcode, hstops, hsaid.screen_eq⟩

theorem exceptions_stay_routed_help :
    ∃ s', (start limineConstants linkedHandlers xgaBoot).Stops helpTyped .waiting s' ∧
      s'.lookup 14 = some ⟨0xffffffff80001100, 0, 0, trapGate, 0⟩ ∧
      (∃ s₁, handleBreakpoint.Returns s' () s₁ ∧
        s₁.screen = s'.screen ++ glyphs s'.globalFg (bytes "Breakpoint\n")) ∧
      ∃ s₁, handlePageFault.Stops s' .halted s₁ ∧
        s₁.screen = s'.screen ++ panicScreen "EXCEPTION_PAGE_FAULT" := by
  have hfb : xgaBoot.framebuffers = some [⟨0xfd000000, 1024, 768, 4096⟩] := rfl
  obtain ⟨s', N, hN⟩ := start_waits_help
  obtain ⟨hgates, ⟨s₁, hback, hprints⟩, hpanics⟩ :=
    exceptions_stay_routed limineConstants linkedHandlers hfb rfl (hN N (Nat.le_refl N))
  obtain ⟨code, s₂, hcode, hstops, hscreen⟩ :=
    hpanics 14 "EXCEPTION_PAGE_FAULT" (by simp [panicMessages])
  obtain rfl : handlePageFault = code := Option.some.inj hcode
  exact ⟨s', ⟨N, hN⟩, hgates 14 _ (by decide), ⟨s₁, hback, Prints.screen_eq hprints⟩,
    s₂, hstops, hscreen⟩

end BenchOS
