import BenchOS.Drawn
import BenchOS.TextRuns
import BenchOS.Typing

/-!
What a run leaves on the screen. A clear hides all that came before, so the grid shows what
was printed since: the lines behind the last `clear` with their answers and the prompt that
waits for the next one, or the notice of a panic.
-/
namespace BenchOS
open Renderer

section Answers
variable {fg : UInt32}

/-- Every line but `clear` is answered with characters alone. -/
theorem answerOps_puts {lines : List (List UInt8)} (h : clearCommand ∉ lines) :
    answerOps fg lines = puts (answers fg lines) := by
  induction lines with
  | nil => rfl
  | cons line lines ih =>
      rw [List.mem_cons, not_or] at h
      obtain ⟨hline, hlines⟩ := h
      have hresponse : responseOps fg line = puts (response fg line) :=
        if_neg fun heq => hline heq.symm
      rw [answerOps_cons, ih hlines, hresponse, answers_cons, puts_append, puts_append]

theorem answerOps_clear (earlier : List (List UInt8)) {lines : List (List UInt8)}
    (h : clearCommand ∉ lines) :
    answerOps fg (earlier ++ clearCommand :: lines) =
      answerOps fg earlier ++ puts (prompted fg clearCommand) ++
        .clear 0 :: puts (answers fg lines) := by
  have hclear : responseOps fg clearCommand = [.clear 0] := if_pos rfl
  rw [answerOps_append, answerOps_cons, answerOps_puts h, hclear, List.append_assoc,
    List.append_assoc, List.singleton_append]

end Answers

section Ascii

/-- The printable characters of ASCII. -/
def asciiTable : CharTable where
  entries := (List.range 95).map fun n => (n + 32, letterRecord)
  sorted := List.pairwise_map.mpr (List.pairwise_lt_range.imp fun h => Nat.add_lt_add_right h 32)
  below := by
    intro e he
    obtain ⟨n, hn, rfl⟩ := List.mem_map.mp he
    have hlt := List.mem_range.mp hn
    show n + 32 < 0x110000
    omega

theorem asciiFont_readable : Readable (cellFont asciiTable) (cellFace asciiTable) :=
  cellFont_readable fun e he => by
    obtain ⟨n, -, rfl⟩ := List.mem_map.mp he
    rfl

theorem ascii_cell {c : UInt8} (low : 32 ≤ c.toNat) (high : c.toNat < 127) :
    (cellFace asciiTable).Cell cardGrid (unicodeOf c) := by
  have hcode : (unicodeOf c).toNat = c.toNat := by
    have all : ∀ n < 127, (unicodeOf (UInt8.ofNat n)).toNat = n := by decide
    have hc := all c.toNat high
    rwa [UInt8.ofNat_toNat] at hc
  have hentry : (asciiTable.entries.lookup (unicodeOf c).toNat).isSome := by
    rw [List.lookup_isSome_iff, hcode]
    refine ⟨(c.toNat, letterRecord), List.mem_map.mpr ⟨c.toNat - 32, ?_, ?_⟩, beq_self_eq_true _⟩
    · rw [List.mem_range]
      omega
    · rw [Nat.sub_add_cancel low]
  obtain ⟨r, hr⟩ := Option.isSome_iff_exists.mp hentry
  have hne : ∀ u : UInt32, u.toNat < 32 → unicodeOf c ≠ u := by
    rintro u hu rfl
    omega
  refine ⟨hne _ (by decide), hne _ (by decide), hne _ (by decide), letterShape,
    congrArg (Option.map fun _ => letterShape) hr, rfl, rfl, letter_cells_fill⟩

def showable (c : UInt8) : Bool := c == 10 || 32 ≤ c.toNat && c.toNat < 127

theorem ascii_text {text : List Glyph} (h : (text.all fun gl => showable gl.char) = true) :
    ∀ gl ∈ text, (cellFace asciiTable).Text cardGrid (unicodeOf gl.char) := by
  intro gl hgl
  have hshow := List.all_eq_true.mp h gl hgl
  simp only [showable, Bool.or_eq_true, beq_iff_eq, Bool.and_eq_true, decide_eq_true_eq] at hshow
  rcases hshow with hfeed | ⟨low, high⟩
  · rw [hfeed]
    exact .inl rfl
  · exact .inr (ascii_cell low high)

-- As for its NULs, the kernel is given the characters and not the encoding.
set_option maxRecDepth 4000 in
theorem panicNotice_showable : (bytes panicNotice).all showable = true :=
  all_ofList (by decide +kernel)

theorem panicScreen_showable {msg : String} (h : (bytes msg).all showable = true) :
    ((panicScreen msg).all fun gl => showable gl.char) = true := by
  rw [panicScreen, List.all_append, glyphs, glyphs, List.all_map, List.all_map]
  exact Bool.and_eq_true_iff.mpr ⟨panicNotice_showable, h⟩

theorem asciiFace_fits : cardGrid.Fits (cellFace asciiTable) 16 4 := ⟨rfl, rfl, rfl⟩

end Ascii

section Start
variable {font : Font} {face : Face} {g : Grid} {sc : Screen} {boot : BootResponses}
  {framebuffer : LimineFramebuffer} {rest : List LimineFramebuffer}

/-- The text since the last clear is what the grid shows. -/
theorem start_onScreen (readable : Readable font face) (tall : 2 * face.lineHeight ≤ sc.h)
    (fits : g.Fits face sc.w sc.h) (hfb : boot.framebuffers = some (framebuffer :: rest))
    (backs : Backs framebuffer sc) (k : MemmapConstants) (handlers : ExceptionHandlers)
    (s : Machine) {before : List ScreenOp} {color : UInt32} {text : List Glyph}
    (hops : (kernelTranscript k boot s.pending s.junk s.typed).ops =
      before ++ .clear color :: puts text)
    (htext : ∀ gl ∈ text, face.Text g (unicodeOf gl.char)) :
    ∃ s', (Over.start (drawPutc font) k handlers boot).Stops s
        (kernelTranscript k boot s.pending s.junk s.typed).why s' ∧
      s'.handled = s.handled ++ (kernelTranscript k boot s.pending s.junk s.typed).log ∧
      OnScreen face g sc color (Terminal.text face g sc.w text) s' := by
  obtain ⟨_, s', hstop, hhandled, hmirrors⟩ :=
    start_mirrors readable tall hfb backs k handlers s
  rw [hops, Page.run_append, Page.run_clear] at hmirrors
  exact ⟨s', hstop, hhandled, (presents_text fits htext hmirrors.shown.1).2⟩

/-- From the keys to the grid. Lines are struck on the keyboard, each key however long, and
after a `clear` none of them is another one. Then the kernel has handled them all, it waits,
and the screen shows on black the lines behind the `clear`, each at a prompt and with its
answer, and a prompt. -/
theorem start_shows_lines (readable : Readable font face) (tall : 2 * face.lineHeight ≤ sc.h)
    (fits : g.Fits face sc.w sc.h) (hfb : boot.framebuffers = some (framebuffer :: rest))
    (backs : Backs framebuffer sc) {offset : UInt64} (hhhdm : boot.hhdm = some offset)
    {entries : List MemmapEntry} (hmap : boot.memmap = some entries) (k : MemmapConstants)
    (handlers : ExceptionHandlers) {s : Machine} {earlier lines : List (List UInt8)}
    (hearlier : ∀ line ∈ earlier, Answered line) (hlines : ∀ line ∈ lines, Answered line)
    (notClear : clearCommand ∉ lines)
    (hkeys : Struck (typedLines (earlier ++ clearCommand :: lines)) (s.samples 0x60))
    (htext : ∀ gl ∈ answers 0xffffff lines ++ glyphs 0xffffff (bytes "> "),
      face.Text g (unicodeOf gl.char)) :
    ∃ s', (Over.start (drawPutc font) k handlers boot).Stops s .waiting s' ∧
      s'.handled = s.handled ++ (earlier ++ clearCommand :: lines).map .command ∧
      OnScreen face g sc 0
        (Terminal.text face g sc.w
          (answers 0xffffff lines ++ glyphs 0xffffff (bytes "> "))) s' := by
  have hclear : Answered clearCommand := by decide
  have hall : ∀ line ∈ earlier ++ clearCommand :: lines, Answered line :=
    List.forall_mem_append.mpr ⟨hearlier, List.forall_mem_cons.mpr ⟨hclear, hlines⟩⟩
  obtain ⟨htyped, hpending⟩ := hkeys.delivers
  have htranscript : kernelTranscript k boot s.pending s.junk s.typed =
      ⟨(earlier ++ clearCommand :: lines).map .command,
        puts (glyphs 0xffffff (banner framebuffer offset ++ (report k offset entries ++
          bytes readyText))) ++ (answerOps 0xffffff earlier ++
            puts (prompted 0xffffff clearCommand)) ++
          .clear 0 :: puts (answers 0xffffff lines ++ glyphs 0xffffff (bytes "> ")),
        .waiting⟩ := by
    rw [Machine.pending, hpending, Machine.typed, htyped]
    simp only [kernelTranscript, hfb, hhhdm, hmap, shellTranscript_lines hall, Transcript.after,
      answerOps_clear earlier notClear, puts_append, List.nil_append, List.append_assoc,
      List.cons_append]
  obtain ⟨s', hstop, hhandled, hshown⟩ := start_onScreen readable tall fits hfb backs k handlers s
    (congrArg Transcript.ops htranscript) htext
  rw [htranscript] at hstop hhandled
  exact ⟨s', hstop, hhandled, hshown⟩

/-- `help`, and after `clear` an empty line and a mistake. -/
theorem start_shows_lines_card :
    let s : Machine :=
      { Machine.reset with
        samples := fun _ =>
          keystrokes (typedLines ([helpCommand] ++ clearCommand :: [[], bytes "hepl"])) }
    ∃ s', (Over.start (drawPutc (cellFont asciiTable)) limineConstants linkedHandlers
        cardBoot).Stops s .waiting s' ∧
      s'.handled = [.command helpCommand, .command clearCommand, .command [],
        .command (bytes "hepl")] ∧
      OnScreen (cellFace asciiTable) cardGrid cardScreen 0
        (Terminal.text (cellFace asciiTable) cardGrid 16
          (answers 0xffffff [[], bytes "hepl"] ++ glyphs 0xffffff (bytes "> "))) s' := by
  intro s
  have hearlier : ∀ line ∈ [helpCommand], Answered line := by decide
  have hlines : ∀ line ∈ [[], bytes "hepl"], Answered line := by decide
  have hkeys : ∀ c ∈ typedLines ([helpCommand] ++ clearCommand :: [[], bytes "hepl"]),
      c ∈ lowercase := by
    have all : (typedLines ([helpCommand] ++ clearCommand :: [[], bytes "hepl"])).all fun c =>
        c ∈ lowercase := by decide
    simpa using all
  have hfb : cardBoot.framebuffers = some [cardFramebuffer] := rfl
  exact start_shows_lines asciiFont_readable (by decide) asciiFace_fits hfb cardScreen_backs rfl
    rfl limineConstants linkedHandlers (s := s) hearlier hlines (by decide)
    (struck_keystrokes hkeys) (ascii_text (by decide))

/-- The message of the panic that a boot ends in. -/
def BootResponses.fault (boot : BootResponses) : String :=
  if boot.hhdm = none then "NO_HHDM" else "NO_MEMORY_MAP"

/-- Without the offset of the direct map, or without a memory map, the kernel halts with the
notice of its panic on green, whatever is typed. -/
theorem start_shows_panic (readable : Readable font face) (tall : 2 * face.lineHeight ≤ sc.h)
    (fits : g.Fits face sc.w sc.h) (hfb : boot.framebuffers = some (framebuffer :: rest))
    (backs : Backs framebuffer sc) (lacks : boot.hhdm = none ∨ boot.memmap = none)
    (k : MemmapConstants) (handlers : ExceptionHandlers) (s : Machine)
    (htext : ∀ gl ∈ panicScreen boot.fault, face.Text g (unicodeOf gl.char)) :
    ∃ s', (Over.start (drawPutc font) k handlers boot).Stops s .halted s' ∧
      s'.handled = s.handled ∧
      OnScreen face g sc 0xff38a169 (Terminal.text face g sc.w (panicScreen boot.fault)) s' := by
  have htranscript : ∃ before, kernelTranscript k boot s.pending s.junk s.typed =
      ⟨[], before ++ .clear 0xff38a169 :: puts (panicScreen boot.fault), .halted⟩ := by
    cases hhhdm : boot.hhdm with
    | none =>
        refine ⟨[], ?_⟩
        simp only [kernelTranscript, hfb, hhhdm, BootResponses.fault, if_true, panicOps,
          List.nil_append]
    | some offset =>
        have hmap : boot.memmap = none := lacks.resolve_left (by simp [hhhdm])
        refine ⟨puts (glyphs 0xffffff (banner framebuffer offset)), ?_⟩
        simp only [kernelTranscript, hfb, hhhdm, hmap, BootResponses.fault, reduceCtorEq, if_false,
          panicOps]
  obtain ⟨before, htranscript⟩ := htranscript
  obtain ⟨s', hstop, hhandled, hshown⟩ := start_onScreen readable tall fits hfb backs k handlers s
    (congrArg Transcript.ops htranscript) htext
  rw [htranscript] at hstop hhandled
  exact ⟨s', hstop, hhandled.trans (List.append_nil _), hshown⟩

/-- No memory map. -/
theorem start_shows_panic_card :
    ∃ s', (Over.start (drawPutc (cellFont asciiTable)) limineConstants linkedHandlers
        { cardBoot with memmap := none }).Stops clearTyped .halted s' ∧
      s'.handled = [] ∧
      OnScreen (cellFace asciiTable) cardGrid cardScreen 0xff38a169
        (Terminal.text (cellFace asciiTable) cardGrid 16 (panicScreen "NO_MEMORY_MAP")) s' :=
  start_shows_panic asciiFont_readable (by decide) asciiFace_fits rfl cardScreen_backs (.inr rfl)
    limineConstants linkedHandlers clearTyped (ascii_text (panicScreen_showable (by decide)))

end Start
end BenchOS
