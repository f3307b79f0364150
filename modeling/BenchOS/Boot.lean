import BenchOS.Accesses
import BenchOS.Gates
import BenchOS.Pixels
import BenchOS.Shell

/-!
The whole kernel runs through its transcript: from the framebuffer to the shell, and through
the three panics on the way. So every run ends, in a halt or in the wait for a key, and what
it shows and does is settled by the answers of the bootloader and the samples of the
keyboard.
-/
namespace BenchOS

/-- The text of a format with one number in it. -/
theorem printf_one (s : Machine) (format before after : String) (n : UInt64)
    (hformat : bytes format = bytes before ++ (bytes "%x" ++ bytes after))
    (hno : 0 ∉ bytes format) (hbefore : percent ∉ bytes before)
    (hafter : percent ∉ bytes after) :
    ∃ left s', (printf (literal format) [.number n]).Returns s left s' ∧
      Prints s s' (glyphs s.globalFg (bytes before ++ (hexText n.toNat ++ bytes after))) := by
  have hrender := (renders_plain hafter []).number (bytes before) n hbefore
  have harg : ArgHolds s.mem (.number n) (.number n) := rfl
  exact printf_renders [.number n] (hformat ▸ hrender)
    (holds_literal s.mem format hno) (.cons harg .nil)

section Panic
variable {s : Machine}

theorem consolePutString_text {p : Pointer} {text : List UInt8} (fg : UInt32)
    (h : Text s.mem p text) :
    ∃ s', (consolePutString p fg).Returns s () s' ∧ Prints s s' (glyphs fg text) :=
  consolePutString_prints fg h.string

/-- A panic replaces the screen, and the message comes last. -/
theorem panic_stops (hinit : s.init = true) (msg : String) (hno : 0 ∉ bytes msg) :
    ∃ s', (panic (literal msg)).Stops s .halted s' ∧ Says s s' (panicScreen msg) := by
  obtain ⟨s₁, hclear, hpaints⟩ := consoleClear_paints 0xff38a169 s
  obtain ⟨s₂, hput, p₂⟩ :=
    consolePutString_text 0 (kept_literal s₁.mem panicNotice panicNotice_noNul).toText
  obtain ⟨s₃, hmsg, p₃⟩ :=
    consolePutString_text 0xff5555 (kept_literal s₂.mem msg hno).toText
  have hsaid := hpaints.said.trans (p₂.trans p₃).said
  rw [List.nil_append] at hsaid
  refine ⟨s₃, (Prog.returns_get s).bind ?_, by rw [panicScreen]; exact hsaid⟩
  simp only [if_pos hinit]
  exact hclear.bind (hput.bind (hmsg.bind (Prog.stops_stop _ _)))

end Panic

/-- The machine with its interrupt table set up. -/
def Machine.installed (s : Machine) (handlers : ExceptionHandlers) (t : List BusEvent) :
    Machine :=
  { s with
    mem := s.mem.blits (handlers.blocks ⟨.idt, 0⟩ s.cs)
    bus := s.bus ++ t
    idtr := some ⟨255, ⟨.idt, 0⟩⟩ }

/-- There is no loop in `initInterrupts`, so every budget gives the same outcome. -/
theorem initInterrupts_installs (handlers : ExceptionHandlers) (s : Machine) :
    ∃ t, ∀ n, initInterrupts handlers ⟨.idt, 0⟩ n s =
      some (.returned () (s.installed handlers t)) := by
  have hselector : s.cs ||| 0 = s.cs := by simp
  obtain ⟨t, hinstall⟩ := initExceptions_stores handlers ⟨.idt, 0⟩ s.cs s
  let s₁ : Machine :=
    { s with mem := s.mem.blits (handlers.blocks ⟨.idt, 0⟩ s.cs), bus := s.bus ++ t }
  have hreturns : (initInterrupts handlers ⟨.idt, 0⟩).Returns s () (s.installed handlers t) := by
    refine (Prog.returns_get s).bind ?_
    simp only [hselector]
    exact hinstall.bind (Prog.returns_modify _ s₁)
  obtain ⟨N, hN⟩ := hreturns
  exact ⟨t, fun n => hN N (Nat.le_refl N)⟩

/-- What is printed before the memory map is looked at. -/
def Over.greeting (putc : UInt8 → Kernel Unit) (framebuffer : LimineFramebuffer)
    (offset : UInt64) : Kernel Unit := do
  let _ ← Over.printf putc (literal "BenchOS 0.1.0\n") []
  let _ ← Over.printf putc (literal "Using framebuffer at 0x%x\n") [.number framebuffer.address]
  let _ ← Over.printf putc (literal "Offset 0x%x\n") [.number offset]
  let _ ← Over.printf putc (literal "Detecting memory...\n") []

section Kernel
variable {k : MemmapConstants} {boot : BootResponses} {framebuffer : LimineFramebuffer}
  {rest : List LimineFramebuffer} {offset : UInt64} {s : Machine}

theorem kernelMain_greeting (putc : UInt8 → Kernel Unit)
    (hfb : boot.framebuffers = some (framebuffer :: rest)) (hhhdm : boot.hhdm = some offset) :
    Over.kernelMain putc k boot =
      (Over.greeting putc framebuffer offset >>= fun _ =>
        match boot.memmap with
        | none => Over.panic putc (literal "NO_MEMORY_MAP")
        | some entries => do
          Over.memmapLoop putc k ⟨offset⟩ entries
          let _ ← Over.printf putc (literal readyText) []
          Over.promptLoop putc) := by
  simp only [Over.kernelMain, hfb, hhhdm, Over.greeting, Prog.bind_assoc]
  rfl

theorem greeting_returns (framebuffer : LimineFramebuffer) (offset : UInt64) (s : Machine) :
    ∃ s', (Over.greeting ssfnPutc framebuffer offset).Returns s () s' ∧
      Prints s s' (glyphs s.globalFg (banner framebuffer offset)) := by
  obtain ⟨_, s₁, hfirst, p₁⟩ := printf_literal s "BenchOS 0.1.0\n" (by decide) (by decide)
  obtain ⟨_, s₂, husing, p₂⟩ := printf_one s₁ "Using framebuffer at 0x%x\n"
    "Using framebuffer at 0x" "\n" framebuffer.address (by decide) (by decide) (by decide)
    (by decide)
  obtain ⟨_, s₃, hoffset, p₃⟩ := printf_one s₂ "Offset 0x%x\n" "Offset 0x" "\n" offset
    (by decide) (by decide) (by decide) (by decide)
  obtain ⟨_, s₄, hdetect, p₄⟩ :=
    printf_literal s₃ "Detecting memory...\n" (by decide) (by decide)
  rw [p₃.globalFg_eq] at p₄
  rw [p₂.globalFg_eq] at p₃ p₄
  rw [p₁.globalFg_eq] at p₂ p₃ p₄
  refine ⟨s₄, ?_, ?_⟩
  · exact hfirst.bind (husing.bind (hoffset.bind (hdetect.bind (Prog.returns_pure _ _))))
  · simp only [banner, glyphs_append]
    simpa only [glyphs_append] using p₁.trans (p₂.trans (p₃.trans p₄))

theorem banner_returns (hfb : boot.framebuffers = some (framebuffer :: rest))
    (hhhdm : boot.hhdm = some offset) (s : Machine) :
    ∃ s', Prints s s' (glyphs s.globalFg (banner framebuffer offset)) ∧
      ∀ {o}, (match boot.memmap with
        | none => panic (literal "NO_MEMORY_MAP")
        | some entries => do
          memmapLoop k ⟨offset⟩ entries
          let _ ← printf (literal readyText) []
          promptLoop : Kernel Unit).Ends s' o → (kernelMain k boot).Ends s o := by
  have hmain := kernelMain_greeting (k := k) ssfnPutc hfb hhhdm
  obtain ⟨s', hgreeting, hp⟩ := greeting_returns framebuffer offset s
  refine ⟨s', hp, fun hrest => ?_⟩
  show (Over.kernelMain ssfnPutc k boot).Ends s _
  rw [hmain]
  exact hgreeting.bind hrest

theorem kernelMain_transcript (hfb : boot.framebuffers = some (framebuffer :: rest))
    (hhhdm : boot.hhdm = some offset) (hinit : s.init = true)
    (hfg : s.globalFg = 0xffffff) :
    ∃ s', (kernelMain k boot).Stops s
        (kernelTranscript k boot s.pending s.junk s.typed).why s' ∧
      s'.screen = s.screen ++ (kernelTranscript k boot s.pending s.junk s.typed).out ∧
      s'.handled = s.handled ++ (kernelTranscript k boot s.pending s.junk s.typed).log := by
  obtain ⟨s₁, p₁, hmain⟩ := banner_returns (k := k) hfb hhhdm s
  rw [hfg] at p₁
  simp only [kernelTranscript, hfb, hhhdm]
  cases hmap : boot.memmap with
  | none =>
      rw [hmap] at hmain
      have hinit₁ : s₁.init = true := p₁.init_eq.trans hinit
      obtain ⟨s', hpanic, hsaid⟩ := panic_stops hinit₁ "NO_MEMORY_MAP" (by decide)
      have hall := (p₁.said.trans hsaid).shows
      simp only [Transcript.out, sent_append, sent_puts, sent_panicOps, List.append_nil]
      exact ⟨s', hmain hpanic, hall.screen, hall.handled⟩
  | some entries =>
      rw [hmap] at hmain
      obtain ⟨s₂, hreport, hsaid⟩ := memmap_loop_said k ⟨offset⟩ entries 0 s₁
      obtain ⟨_, s₃, hready, p₃⟩ := printf_literal s₂ readyText (by decide) (by decide)
      have hfg₁ : s₁.globalFg = 0xffffff := p₁.globalFg_eq.trans hfg
      have hfg₂ : s₂.globalFg = 0xffffff := hsaid.globalFg_eq.trans hfg₁
      rw [hfg₁, List.drop_zero] at hsaid
      rw [hfg₂] at p₃
      have hall := p₁.said.trans (hsaid.trans p₃.said)
      obtain ⟨s', hstop, hacts⟩ := promptLoop_transcript s₃
      rw [p₃.globalFg_eq, hfg₂, hall.unspent.pending, hall.unspent.junk, hall.typed_eq]
        at hstop hacts
      refine ⟨s', hmain (hreport.bind (hready.bind hstop)), ?_, ?_⟩
      · rw [Transcript.out_after, sent_puts, hacts.screen, hall.screen_eq, List.append_assoc]
        simp only [glyphs_append, Transcript.out]
      · rw [hacts.handled, hall.shows.handled]
        rfl

end Kernel
section Start
variable {k : MemmapConstants} {handlers : ExceptionHandlers} {boot : BootResponses}
  {framebuffer : LimineFramebuffer} {rest : List LimineFramebuffer}

/-- What `_start` does once the console is set up. -/
def booted (k : MemmapConstants) (handlers : ExceptionHandlers) (boot : BootResponses) :
    Kernel Unit := do
  initDebug 0xffffff
  if boot.hhdm.isNone then
    panic (literal "NO_HHDM")
  initInterrupts handlers ⟨.idt, 0⟩
  kernelMain k boot
  exit

theorem start_booted (hfb : boot.framebuffers = some (framebuffer :: rest)) :
    start k handlers boot = (consoleInit framebuffer >>= fun _ => booted k handlers boot) := by
  rw [start, Over.start, hfb]
  rfl

/-- Without a framebuffer the kernel halts before it has touched anything. -/
theorem start_panics (hfb : ∀ framebuffer rest, boot.framebuffers ≠ some (framebuffer :: rest))
    {s : Machine} (fresh : s.init = false) (n : Nat) :
    start k handlers boot n s = some (.stopped .halted s) := by
  have hpanic : start k handlers boot = panic (literal "NO_FRAMEBUFFER") := by
    rw [start, Over.start]
    split
    · next framebuffer rest h => exact absurd h (hfb framebuffer rest)
    · rfl
  rw [hpanic]
  simp [panic, Over.panic, fresh, exit]

/-- With a framebuffer the kernel runs through its transcript. -/
theorem start_draws (k : MemmapConstants) (handlers : ExceptionHandlers)
    (hfb : boot.framebuffers = some (framebuffer :: rest)) (s : Machine) :
    ∃ s', (start k handlers boot).Stops s
        (kernelTranscript k boot s.pending s.junk s.typed).why s' ∧
      s'.screen = s.screen ++ (kernelTranscript k boot s.pending s.junk s.typed).out ∧
      s'.handled = s.handled ++ (kernelTranscript k boot s.pending s.junk s.typed).log := by
  let s₁ : Machine := { s.drawingOn framebuffer with globalFg := 0xffffff, init := true }
  have hconsole : (consoleInit framebuffer).Returns s () (s.drawingOn framebuffer) :=
    consoleInit_returns framebuffer s
  have hdebug : (initDebug 0xffffff).Returns (s.drawingOn framebuffer) () s₁ :=
    Prog.returns_modify _ _
  rw [start_booted hfb]
  cases hhhdm : boot.hhdm with
  | none =>
      obtain ⟨s', hpanic, hsaid⟩ := panic_stops (s := s₁) rfl "NO_HHDM" (by decide)
      simp only [kernelTranscript, hfb, hhhdm, Transcript.out, sent_panicOps]
      refine ⟨s', hconsole.bind (hdebug.bind ?_), hsaid.screen_eq,
        hsaid.shows.handled.trans (List.append_nil _).symm⟩
      simp only [hhhdm, Option.isNone_none, if_true]
      exact Prog.Ends.bind_stopped _ hpanic
  | some offset =>
      obtain ⟨t, hinstall⟩ := initInterrupts_installs handlers s₁
      obtain ⟨s', hmain, hscreen, hhandled⟩ :=
        kernelMain_transcript (k := k) (s := s₁.installed handlers t) hfb hhhdm rfl rfl
      refine ⟨s', hconsole.bind (hdebug.bind ?_), hscreen, hhandled⟩
      simp only [hhhdm, Option.isNone_some, Bool.false_eq_true, if_false]
      exact Prog.Ends.bind (.of_forall hinstall) (Prog.Ends.bind_stopped _ hmain)

theorem kernelTranscript_blind
    (hfb : ∀ framebuffer rest, boot.framebuffers ≠ some (framebuffer :: rest))
    (held : List UInt8) (junk : Nat → UInt64) (d : List UInt8) :
    kernelTranscript k boot held junk d = ⟨[], [], .halted⟩ := by
  rw [kernelTranscript]
  split
  · next framebuffer rest h => exact absurd h (hfb framebuffer rest)
  · rfl

/-- Every run of the kernel ends, and with its transcript: the lines that are typed are
handled in their order, the screen is sent the boot report and the answers to these lines or
a panic, and then the kernel waits for a key or has halted. -/
theorem start_transcript (k : MemmapConstants) (handlers : ExceptionHandlers)
    (boot : BootResponses) {s : Machine} (fresh : s.init = false) :
    ∃ s', (start k handlers boot).Stops s
        (kernelTranscript k boot s.pending s.junk s.typed).why s' ∧
      s'.screen = s.screen ++ (kernelTranscript k boot s.pending s.junk s.typed).out ∧
      s'.handled = s.handled ++ (kernelTranscript k boot s.pending s.junk s.typed).log := by
  by_cases hfb : ∃ framebuffer rest, boot.framebuffers = some (framebuffer :: rest)
  · obtain ⟨framebuffer, rest, hfb⟩ := hfb
    exact start_draws k handlers hfb s
  · have hnone : ∀ framebuffer rest, boot.framebuffers ≠ some (framebuffer :: rest) :=
      fun framebuffer rest h => hfb ⟨framebuffer, rest, h⟩
    rw [kernelTranscript_blind hnone]
    exact ⟨s, .of_forall (start_panics hnone fresh), by simp [Transcript.out, sent], by simp⟩

def linkedHandlers : ExceptionHandlers :=
  ⟨0xffffffff80001000, 0xffffffff80001040, 0xffffffff80001080, 0xffffffff800010c0,
    0xffffffff80001100⟩

/-- A boot on 1024 by 768 pixels with one entry in the memory map. -/
def xgaBoot : BootResponses where
  framebuffers := some [⟨0xfd000000, 1024, 768, 4096⟩]
  memmap := some [⟨0x1000, 0x9000, 0⟩]
  hhdm := some 0xffff800000000000

/-- `help` and Enter, and then `h`, which stays held. -/
def helpTyped : Machine :=
  { Machine.reset with samples := fun _ => [35, 163, 18, 146, 38, 166, 25, 153, 28, 156, 35] }

theorem kernelTranscript_help :
    kernelTranscript limineConstants xgaBoot helpTyped.pending helpTyped.junk helpTyped.typed =
      ⟨[.command helpCommand],
        puts (glyphs 0xffffff (banner ⟨0xfd000000, 1024, 768, 4096⟩ 0xffff800000000000 ++
          (report limineConstants 0xffff800000000000 [⟨0x1000, 0x9000, 0⟩] ++
            bytes readyText))) ++
          (puts (prompted 0xffffff helpCommand) ++ responseOps 0xffffff helpCommand ++
            puts (glyphs 0xffffff (bytes "> ") ++ glyphs 0xffff00 (bytes "h"))), .waiting⟩ := by
  have hhelp : readLine 256 helpTyped.typed = some (helpCommand, []) := by decide
  have hrest : readLine 256 [] = none := rfl
  have hpending : helpTyped.pending = bytes "h" := by decide
  simp only [kernelTranscript, xgaBoot, shellTranscript_runs hhelp (by decide) (by decide),
    shellTranscript_waits hrest, hpending, Transcript.after, List.append_nil, List.nil_append]

theorem start_transcript_help :
    ∃ s' before, (start limineConstants linkedHandlers xgaBoot).Stops helpTyped .waiting s' ∧
      s'.handled = [.command helpCommand] ∧
      s'.screen = before ++ (prompted 0xffffff helpCommand ++ response 0xffffff helpCommand ++
        (glyphs 0xffffff (bytes "> ") ++ glyphs 0xffff00 (bytes "h"))) := by
  obtain ⟨s', hstop, hscreen, hhandled⟩ :=
    start_transcript limineConstants linkedHandlers xgaBoot (s := helpTyped) rfl
  rw [kernelTranscript_help] at hstop hscreen hhandled
  simp only [Transcript.out, sent_append, sent_puts, sent_responseOps] at hscreen
  exact ⟨s', _, hstop, hhandled, hscreen⟩

theorem start_waits_help :
    ∃ s', (start limineConstants linkedHandlers xgaBoot).Stops helpTyped .waiting s' := by
  have hfb : xgaBoot.framebuffers = some [⟨0xfd000000, 1024, 768, 4096⟩] := rfl
  obtain ⟨s', hstop, -⟩ := start_draws limineConstants linkedHandlers hfb helpTyped
  rw [kernelTranscript_help] at hstop
  exact ⟨s', hstop⟩

end Start
end BenchOS
