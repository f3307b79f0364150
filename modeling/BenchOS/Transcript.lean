import BenchOS.MemoryReport
import BenchOS.Session

/-!
What a run of the kernel comes to: the lines it acts on, what it asks of the screen and
how it ends. `kernelTranscript` computes it from what the bootloader answers, the characters
that are typed, the key that is still held when the samples end and the indeterminate values
that the run meets. Nothing else in the machine has a part in it.
-/
namespace BenchOS

/-- The lines that are handled, what the screen is asked for and how the run ends. -/
structure Transcript where
  log : List Handled
  ops : List ScreenOp
  why : Halt

/-- The characters that the screen is sent. -/
def Transcript.out (t : Transcript) : List Glyph := sent t.ops

/-- The transcript `t` after `log` has been handled and `ops` asked for. -/
def Transcript.after (t : Transcript) (log : List Handled) (ops : List ScreenOp) : Transcript :=
  ⟨log ++ t.log, ops ++ t.ops, t.why⟩

@[simp] theorem Transcript.out_after (t : Transcript) (log : List Handled)
    (ops : List ScreenOp) : (t.after log ops).out = sent ops ++ t.out :=
  sent_append _ _

/-- The shell, with `held` for the key that is still held and `d` typed. -/
def shellTranscript (fg : UInt32) (held : List UInt8) (junk : Nat → UInt64)
    (d : List UInt8) : Transcript :=
  match _ : readLine 256 d with
  | none => ⟨[], puts (glyphs fg (bytes "> ") ++ glyphs 0xffff00 (d ++ held)), .waiting⟩
  | some (text, rest) =>
    if text = exitCommand then
      ⟨[.command text], puts (prompted fg text ++ glyphs fg (bytes "exiting...\n")), .halted⟩
    else if text = dumppageCommand then
      match _ : readLine 16 rest with
      | none => ⟨[.command text], puts (prompted fg text ++ asked fg (rest ++ held)), .waiting⟩
      | some (number, rest') =>
        (shellTranscript fg held (fun i => junk (i + strays number + 1)) rest').after
          [.command text, .address number] (puts (prompted fg text ++ dumped fg number junk))
    else
      (shellTranscript fg held junk rest).after [.command text]
        (puts (prompted fg text) ++ responseOps fg text)
termination_by d.length
decreasing_by
  · rename_i hline _ _ hnext
    exact (readLine_rest_lt (by omega) hnext).trans (readLine_rest_lt (by omega) hline)
  · rename_i hline _ _
    exact readLine_rest_lt (by omega) hline

section Shell
variable {fg : UInt32} {held : List UInt8} {junk : Nat → UInt64} {d rest : List UInt8}

theorem shellTranscript_waits (h : readLine 256 d = none) :
    shellTranscript fg held junk d =
      ⟨[], puts (glyphs fg (bytes "> ") ++ glyphs 0xffff00 (d ++ held)), .waiting⟩ := by
  rw [shellTranscript]
  split
  · rfl
  · rename_i hline
    cases h.symm.trans hline

theorem shellTranscript_exits (h : readLine 256 d = some (exitCommand, rest)) :
    shellTranscript fg held junk d =
      ⟨[.command exitCommand], puts (prompted fg exitCommand ++ glyphs fg (bytes "exiting...\n")),
        .halted⟩ := by
  rw [shellTranscript]
  split
  · rename_i hline
    cases h.symm.trans hline
  · rename_i hline
    cases h.symm.trans hline
    rw [if_pos rfl]

theorem shellTranscript_asks (h : readLine 256 d = some (dumppageCommand, rest))
    (hnext : readLine 16 rest = none) :
    shellTranscript fg held junk d =
      ⟨[.command dumppageCommand],
        puts (prompted fg dumppageCommand ++ asked fg (rest ++ held)), .waiting⟩ := by
  rw [shellTranscript]
  split
  · rename_i hline
    cases h.symm.trans hline
  · rename_i hline
    cases h.symm.trans hline
    rw [if_neg dumppage_ne_exit, if_pos rfl]
    split
    · rfl
    · rename_i hread
      cases hnext.symm.trans hread

theorem shellTranscript_dumps {number rest' : List UInt8}
    (h : readLine 256 d = some (dumppageCommand, rest))
    (hnext : readLine 16 rest = some (number, rest')) :
    shellTranscript fg held junk d =
      (shellTranscript fg held (fun i => junk (i + strays number + 1)) rest').after
        [.command dumppageCommand, .address number]
        (puts (prompted fg dumppageCommand ++ dumped fg number junk)) := by
  rw [shellTranscript]
  split
  · rename_i hline
    cases h.symm.trans hline
  · rename_i hline
    cases h.symm.trans hline
    rw [if_neg dumppage_ne_exit, if_pos rfl]
    split
    · rename_i hread
      cases hnext.symm.trans hread
    · rename_i hread
      cases hnext.symm.trans hread
      rfl

theorem shellTranscript_runs {text : List UInt8} (h : readLine 256 d = some (text, rest))
    (notExit : text ≠ exitCommand) (notDump : text ≠ dumppageCommand) :
    shellTranscript fg held junk d =
      (shellTranscript fg held junk rest).after [.command text]
        (puts (prompted fg text) ++ responseOps fg text) := by
  rw [shellTranscript]
  split
  · rename_i hline
    cases h.symm.trans hline
  · rename_i hline
    cases h.symm.trans hline
    rw [if_neg notExit, if_neg notDump]

/-- The transcript is a session through the two buffers. -/
theorem shellTranscript_session (fg : UInt32) (held : List UInt8) (junk : Nat → UInt64)
    (d : List UInt8) :
    bufferedSession fg held junk d (shellTranscript fg held junk d).log
      (shellTranscript fg held junk d).ops (shellTranscript fg held junk d).why := by
  cases hline : readLine 256 d with
  | none =>
      rw [shellTranscript_waits hline]
      exact .waits hline
  | some line =>
      obtain ⟨text, rest⟩ := line
      by_cases isExit : text = exitCommand
      · subst isExit
        rw [shellTranscript_exits hline]
        exact .exits hline
      by_cases isDump : text = dumppageCommand
      · subst isDump
        cases hnext : readLine 16 rest with
        | none =>
            rw [shellTranscript_asks hline hnext]
            exact .asks hline hnext
        | some address =>
            obtain ⟨number, rest'⟩ := address
            rw [shellTranscript_dumps hline hnext]
            exact .dumps hline hnext (shellTranscript_session fg held _ rest')
      · rw [shellTranscript_runs hline isExit isDump]
        exact .runs hline isExit isDump (shellTranscript_session fg held junk rest)
termination_by d.length
decreasing_by
  · exact (readLine_rest_lt (by omega) hnext).trans (readLine_rest_lt (by omega) hline)
  · exact readLine_rest_lt (by omega) hline

end Shell

/-- The screen that a panic leaves. -/
def panicScreen (msg : String) : List Glyph :=
  glyphs 0 (bytes panicNotice) ++ glyphs 0xff5555 (bytes msg)

def panicOps (msg : String) : List ScreenOp := .clear 0xff38a169 :: puts (panicScreen msg)

@[simp] theorem sent_panicOps (msg : String) : sent (panicOps msg) = panicScreen msg := by
  rw [panicOps, sent, List.filterMap_cons_none rfl, ← sent, sent_puts]

/-- What the kernel prints before it looks at the memory map. -/
def banner (framebuffer : LimineFramebuffer) (offset : UInt64) : List UInt8 :=
  bytes "BenchOS 0.1.0\n" ++
    ((bytes "Using framebuffer at 0x" ++ (hexText framebuffer.address.toNat ++ bytes "\n")) ++
      ((bytes "Offset 0x" ++ (hexText offset.toNat ++ bytes "\n")) ++
        bytes "Detecting memory...\n"))

def readyText : String := "\n\nThis is the prompt. Type `help` for more info.\n\n"

/-- The whole kernel. -/
def kernelTranscript (k : MemmapConstants) (boot : BootResponses) (held : List UInt8)
    (junk : Nat → UInt64) (d : List UInt8) : Transcript :=
  match boot.framebuffers with
  | some (framebuffer :: _) =>
    match boot.hhdm with
    | none => ⟨[], panicOps "NO_HHDM", .halted⟩
    | some offset =>
      match boot.memmap with
      | none =>
        ⟨[], puts (glyphs 0xffffff (banner framebuffer offset)) ++ panicOps "NO_MEMORY_MAP",
          .halted⟩
      | some entries =>
        (shellTranscript 0xffffff held junk d).after []
          (puts (glyphs 0xffffff (banner framebuffer offset ++ (report k offset entries ++
            bytes readyText))))
  | _ => ⟨[], [], .halted⟩

end BenchOS
