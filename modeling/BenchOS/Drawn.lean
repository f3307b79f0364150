import BenchOS.Boot
import BenchOS.Mirror

/-!
The kernel as it draws, from the framebuffer to the prompt. What it has on the screen is the
page that its transcript makes of the first picture. The kernel that records runs beside it:
between two clears the one follows the other, and at a clear both begin a page.
-/
namespace BenchOS
open Prog Renderer

namespace Simulates
variable {E : Halt → Prop} {R : Machine → Machine → Prop} {putc putc' : UInt8 → Kernel Unit}
  (h : Simulates E R putc putc')
include h

theorem promptLine : Mimics E R (Over.promptLine putc) (Over.promptLine putc') := by
  refine (h.printf_numbers _ []).bind fun _ _ => ?_
  refine (h.consoleInputCharacters input_notRam 256 0xffff00 true).bind fun _ _ => ?_
  exact (h.printf_numbers _ []).bind fun _ _ => h.note _

/-- Only a clear is not followed. -/
theorem branch {text : List UInt8} (notClear : text ≠ clearCommand) :
    Mimics E R (Over.branch putc text) (Over.branch putc' text) := by
  refine .ite (fun _ => follows_pure trivial) fun _ => ?_
  refine .ite (fun _ => (h.printf_numbers _ []).bind fun _ _ => follows_stop _) fun _ => ?_
  refine .ite (fun _ => ?_) fun _ => ?_
  · exact (h.printf_numbers _ []).bind fun _ _ => follows_pure trivial
  refine .ite (fun isClear => absurd isClear notClear) fun _ => ?_
  refine .ite (fun _ => h.dumppage) fun _ => ?_
  refine (h.consolePutString (literal_outside _ .ram) 0xff0000).bind fun _ _ => ?_
  refine (h.consolePutString input_outsideRam 0xff0000).bind fun _ _ => ?_
  exact h.consolePutString (literal_outside _ .ram) 0xff0000

theorem greeting (framebuffer : LimineFramebuffer) (offset : UInt64) :
    Mimics E R (Over.greeting putc framebuffer offset)
      (Over.greeting putc' framebuffer offset) := by
  refine (h.printf_numbers _ []).bind fun _ _ => ?_
  refine (h.printf_numbers _ [framebuffer.address]).bind fun _ _ => ?_
  refine (h.printf_numbers _ [offset]).bind fun _ _ => ?_
  exact (h.printf_numbers _ []).bind fun _ _ => follows_pure trivial

end Simulates

section Mirrors
variable {face : Face} {sc : Screen} {base : Mem Object} {pg : Page} {s t t' : Machine}

theorem Mirrors.holds (h : Mirrors face sc base pg s t) {text : List UInt8}
    (hs : Holds s.mem (.loc input) text) : Holds t.mem (.loc input) text := by
  obtain ⟨c, screen, bus, rfl, hmirror⟩ := h
  exact ⟨hs.1.congr fun i _ => hmirror.read (outside_add input_outsideRam i), hs.2⟩

theorem Mirrors.handled (h : Mirrors face sc base pg s t) : t.handled = s.handled := by
  obtain ⟨c, screen, bus, rfl, -⟩ := h
  rfl

/-- What the kernel that draws reads and writes without a character is nothing that the
other could not do. -/
theorem Mirrors.settles (h : Mirrors face sc base pg s t) (hp : Prints t t' []) :
    ∃ s', Prints s s' [] ∧ Mirrors face sc base pg s' t' := by
  obtain ⟨c, screen, bus, rfl, hmirror⟩ := h
  obtain ⟨m, fg, u, hm, rfl⟩ := hp
  have hother : ∀ l : Location, l.obj = .ram → m l = c.mem l := fun l hl =>
    hm l (hl ▸ by decide)
  refine ⟨{ s with
      mem := fun l => if l.obj = .numHex then m l else s.mem l
      ssfnDst := { s.ssfnDst with fg := fg }
      screen := s.screen ++ []
      bus := s.bus ++ [] }, ⟨_, fg, [], fun l hl => if_neg hl, rfl⟩,
    ⟨{ c.dst with fg := fg }, m⟩, screen ++ [], bus ++ u, rfl, hmirror.backs, ?_, hmirror.near,
    rfl, fun l hl => ?_, fun l hl hout => ?_⟩
  · exact (hmirror.presents.recolour fg).elsewhere hother
  · show m l = if l.obj = .numHex then m l else s.mem l
    by_cases hbuffer : l.obj = .numHex
    · rw [if_pos hbuffer]
    · rw [if_neg hbuffer]
      exact (hm l hbuffer).trans (hmirror.mem l hl)
  · exact (hother l hl).trans (hmirror.ram l hl hout)

end Mirrors

section Run
variable {font : Font} {face : Face} {sc : Screen} {base : Mem Object}
  (readable : Readable font face) (tall : 2 * face.lineHeight ≤ sc.h)
include readable tall

theorem panic_draws {pg : Page} {s t : Machine} (h : Mirrors face sc base pg s t)
    (hinit : s.init = true) (msg : String) (hno : 0 ∉ bytes msg) :
    ∃ s' t', (Over.panic (drawPutc font) (literal msg)).Stops t .halted t' ∧
      s'.handled = s.handled ∧
      Mirrors face sc base (pg.run face sc.w sc.h (panicOps msg)) s' t' := by
  have hinit' : t.init = true := by
    obtain ⟨c, screen, bus, rfl, -⟩ := h
    exact hinit
  obtain ⟨s₁, t₁, -, hclear, hpaints, h₁⟩ := h.clears 0xff38a169
  obtain ⟨s₂, hnotice, p₂⟩ :=
    consolePutString_text 0 (kept_literal s₁.mem panicNotice panicNotice_noNul).toText
  obtain ⟨t₂, hnotice', h₂⟩ := h₁.returns readable tall
    (fun h => h.consolePutString (literal_outside _ .ram) 0) hnotice p₂.screen_eq
  obtain ⟨s₃, hmsg, p₃⟩ := consolePutString_text 0xff5555 (kept_literal s₂.mem msg hno).toText
  obtain ⟨t₃, hmsg', h₃⟩ := h₂.returns readable tall
    (fun h => h.consolePutString (literal_outside _ .ram) 0xff5555) hmsg p₃.screen_eq
  have hall := hpaints.said.trans (p₂.trans p₃).said
  refine ⟨s₃, t₃, (returns_get t).bind ?_, hall.shows.handled, ?_⟩
  · simp only [if_pos hinit']
    exact hclear.bind (hnotice'.bind (hmsg'.bind (stops_stop _ _)))
  · rw [panicOps, Page.run_clear, panicScreen, puts_append, Page.run_append]
    exact h₃

/-- A line that neither exits nor asks for an address is answered on the screen. -/
theorem branch_draws {pg : Page} {s t : Machine} (h : Mirrors face sc base pg s t)
    {text : List UInt8} (hs : Holds s.mem (.loc input) text) (notExit : text ≠ exitCommand)
    (notDump : text ≠ dumppageCommand) :
    ∃ s' t', (Over.branch (drawPutc font) text).Returns t () t' ∧
      Says s s' (response s.globalFg text) ∧
      Mirrors face sc base (pg.run face sc.w sc.h (responseOps s.globalFg text)) s' t' := by
  by_cases isClear : text = clearCommand
  · subst isClear
    obtain ⟨s', t', -, hclear, hpaints, hmirrors⟩ := h.clears 0
    have hresponse : response s.globalFg clearCommand = [] := by
      rw [response, if_neg (by decide), if_neg (by decide), if_pos rfl]
    rw [branch_clear, hresponse, responseOps, if_pos rfl]
    exact ⟨s', t', hclear, hpaints.said, hmirrors⟩
  · obtain ⟨s', hbranch, hsaid, -⟩ := branch_answers hs notExit notDump
    obtain ⟨t', hdraw, hmirrors⟩ :=
      h.returns readable tall (fun h => h.branch isClear) hbranch hsaid.screen_eq
    rw [responseOps, if_neg isClear]
    exact ⟨s', t', hdraw, hsaid, hmirrors⟩

/-- The prompt loop draws what its transcript asks for. -/
theorem promptLoop_draws {pg : Page} {s t : Machine} (h : Mirrors face sc base pg s t) :
    ∃ s' t', (Over.promptLoop (drawPutc font)).Stops t
        (shellTranscript s.globalFg s.pending s.junk s.typed).why t' ∧
      s'.handled = s.handled ++ (shellTranscript s.globalFg s.pending s.junk s.typed).log ∧
      Mirrors face sc base
        (pg.run face sc.w sc.h (shellTranscript s.globalFg s.pending s.junk s.typed).ops)
        s' t' := by
  rcases promptLine_ends s with ⟨hread, s', hstop, hacts⟩ |
    ⟨text, s₁, hread, hholds, hacts, hunspent, hline⟩
  · obtain ⟨t', hdraw, hmirrors⟩ :=
      h.stops readable tall (fun h => h.promptLine) hstop hacts.puts_screen
    rw [shellTranscript_waits hread]
    refine ⟨s', t', loop_stop ?_, hacts.handled, hmirrors⟩
    rw [promptTurn_line]
    exact Ends.bind_stopped _ hdraw
  obtain ⟨t₁, hdraw, h₁⟩ :=
    h.returns readable tall (fun h => h.promptLine) hline hacts.puts_screen
  obtain ⟨t₂, hp, hdispatch⟩ := dispatch_reads (drawPutc font) (h₁.holds hholds)
  obtain ⟨s₂, p₂, h₂⟩ := h₁.settles hp
  have hturn : ∀ {o}, (Over.dispatch (drawPutc font) >>= fun _ => pure (.again ())).Ends t₁ o →
      (Over.promptTurn (drawPutc font) ()).Ends t o := by
    intro o hrest
    rw [promptTurn_line]
    exact hdraw.bind hrest
  have hsofar := hacts.trans p₂.acts
  have hkept := hunspent.trans p₂.said.unspent
  rw [← p₂.typed_eq] at hread
  by_cases isExit : text = exitCommand
  · subst isExit
    obtain ⟨s', hexit, hp'⟩ := branch_exits s₂
    obtain ⟨t', hdraw', hmirrors⟩ :=
      h₂.stops readable tall (fun h => h.branch (by decide)) hexit hp'.screen_eq
    rw [hsofar.globalFg] at hmirrors
    rw [← Page.run_append, ← puts_append] at hmirrors
    rw [shellTranscript_exits hread]
    exact ⟨s', t', loop_stop (hturn (Ends.bind_stopped _ (hdispatch hdraw'))),
      (hsofar.trans hp'.acts).handled, hmirrors⟩
  by_cases isDump : text = dumppageCommand
  · subst isDump
    rw [branch_dumppage] at hdispatch
    have hdump := dumppage_ends s₂
    rw [hsofar.globalFg, hkept.pending, hkept.junk] at hdump
    rcases hdump with ⟨hnext, s', hstop, hmore⟩ |
      ⟨number, s₃, hnext, hreturns, hmore, hpending, hjunk⟩
    · obtain ⟨t', hdraw', hmirrors⟩ :=
        h₂.stops readable tall (fun h => h.dumppage) hstop hmore.puts_screen
      rw [← Page.run_append, ← puts_append] at hmirrors
      rw [shellTranscript_asks hread hnext]
      exact ⟨s', t', loop_stop (hturn (Ends.bind_stopped _ (hdispatch hdraw'))),
        (hsofar.trans hmore).handled, hmirrors⟩
    · obtain ⟨t₃, hdraw', h₃⟩ :=
        h₂.returns readable tall (fun h => h.dumppage) hreturns hmore.puts_screen
      have hsofar₃ := hsofar.trans hmore
      rw [← Page.run_append, ← puts_append] at h₃
      obtain ⟨s', t', hstop, hrest, hmirrors⟩ := promptLoop_draws h₃
      rw [hsofar₃.globalFg, hpending, hjunk] at hstop hrest hmirrors
      rw [← Page.run_append] at hmirrors
      rw [shellTranscript_dumps hread hnext]
      refine ⟨s', t', loop_again (hturn ((hdispatch hdraw').bind (returns_pure _ _))) hstop, ?_,
        hmirrors⟩
      rw [hrest, hsofar₃.handled, List.append_assoc]
      rfl
  · obtain ⟨s₃, t₃, hdraw', hsaid, h₃⟩ :=
      branch_draws readable tall h₂ (p₂.holds hholds) isExit isDump
    rw [hsofar.globalFg] at hsaid h₃
    rw [← Page.run_append] at h₃
    have hglobalFg := hsaid.globalFg_eq.trans hsofar.globalFg
    have hkept₃ := hkept.trans hsaid.unspent
    obtain ⟨s', t', hstop, hrest, hmirrors⟩ := promptLoop_draws h₃
    rw [hglobalFg, hkept₃.pending, hkept₃.junk, hsaid.typed_eq] at hstop hrest hmirrors
    rw [← Page.run_append] at hmirrors
    rw [shellTranscript_runs hread isExit isDump]
    refine ⟨s', t', loop_again (hturn ((hdispatch hdraw').bind (returns_pure _ _))) hstop, ?_,
      hmirrors⟩
    rw [hrest, hsaid.shows.handled, hsofar.handled, List.append_assoc]
    rfl
termination_by s.typed.length
decreasing_by
  · exact (readLine_rest_lt (by omega) hnext).trans (readLine_rest_lt (by omega) hread)
  · rw [hsaid.typed_eq, p₂.typed_eq]
    exact readLine_rest_lt (by omega) hread

variable {boot : BootResponses} {framebuffer : LimineFramebuffer}
  {rest : List LimineFramebuffer} {offset : UInt64}

theorem kernelMain_draws (k : MemmapConstants)
    (hfb : boot.framebuffers = some (framebuffer :: rest)) (hhhdm : boot.hhdm = some offset)
    {pg : Page} {s t : Machine} (h : Mirrors face sc base pg s t) (hinit : s.init = true)
    (hfg : s.globalFg = 0xffffff) :
    ∃ s' t', (Over.kernelMain (drawPutc font) k boot).Stops t
        (kernelTranscript k boot s.pending s.junk s.typed).why t' ∧
      s'.handled = s.handled ++ (kernelTranscript k boot s.pending s.junk s.typed).log ∧
      Mirrors face sc base
        (pg.run face sc.w sc.h (kernelTranscript k boot s.pending s.junk s.typed).ops) s' t' := by
  obtain ⟨s₁, hgreeting, p₁⟩ := greeting_returns framebuffer offset s
  obtain ⟨t₁, hgreeting', h₁⟩ := h.returns readable tall (fun h => h.greeting framebuffer offset)
    hgreeting p₁.screen_eq
  have hfg₁ : s₁.globalFg = 0xffffff := p₁.globalFg_eq.trans hfg
  rw [hfg] at h₁
  rw [kernelMain_greeting (drawPutc font) hfb hhhdm]
  simp only [kernelTranscript, hfb, hhhdm]
  cases hmap : boot.memmap with
  | none =>
      obtain ⟨s', t', hpanic, hhandled, hmirrors⟩ := panic_draws readable tall h₁
        (p₁.init_eq.trans hinit) "NO_MEMORY_MAP" (by decide)
      rw [← Page.run_append] at hmirrors
      refine ⟨s', t', hgreeting'.bind hpanic, ?_, hmirrors⟩
      rw [hhandled, p₁.shows.handled, List.append_nil]
  | some entries =>
      obtain ⟨s₂, hreport, hsaid⟩ := memmap_loop_said k ⟨offset⟩ entries 0 s₁
      rw [hfg₁, List.drop_zero] at hsaid
      obtain ⟨t₂, hreport', h₂⟩ := h₁.returns readable tall
        (fun h => h.memmapLoop k ⟨offset⟩ entries) hreport hsaid.screen_eq
      obtain ⟨_, s₃, hready, p₃⟩ := printf_literal s₂ readyText (by decide) (by decide)
      have hfg₂ : s₂.globalFg = 0xffffff := hsaid.globalFg_eq.trans hfg₁
      rw [hfg₂] at p₃
      obtain ⟨t₃, hready', h₃⟩ := h₂.returns readable tall (fun h => h.printf_numbers _ [])
        hready p₃.screen_eq
      have hall := p₁.said.trans (hsaid.trans p₃.said)
      rw [← Page.run_append, ← Page.run_append, ← puts_append, ← puts_append, ← glyphs_append,
        ← glyphs_append] at h₃
      obtain ⟨s', t', hstop, hhandled, hmirrors⟩ := promptLoop_draws readable tall h₃
      rw [p₃.globalFg_eq, hfg₂, hall.unspent.pending, hall.unspent.junk, hall.typed_eq]
        at hstop hhandled hmirrors
      rw [← Page.run_append] at hmirrors
      refine ⟨s', t', hgreeting'.bind (hreport'.bind (hready'.bind hstop)), ?_, hmirrors⟩
      rw [hhandled, hall.shows.handled]
      rfl

end Run

section Start
variable {font : Font} {face : Face} {sc : Screen} {boot : BootResponses}
  {framebuffer : LimineFramebuffer} {rest : List LimineFramebuffer} {s : Machine}

/-- The console as `_start` leaves it, on whatever the memory holds. -/
theorem mirrors_init (backs : Backs framebuffer sc) (s : Machine) :
    Mirrors face sc s.mem ⟨pictureOf sc s.mem, 0, 0, 0xff000000⟩
      { s.drawingOn framebuffer with globalFg := 0xffffff, init := true }
      { s.drawingOn framebuffer with globalFg := 0xffffff, init := true } :=
  ⟨(s.drawingOn framebuffer).canvas, s.screen, s.bus, rfl, backs,
    (consoleInit_presents backs s).here, ⟨Nat.zero_le _, Nat.zero_le _⟩, rfl, fun _ _ => rfl,
    fun _ _ _ => rfl⟩

/-- The interrupt table is not on the screen. -/
theorem Mirrors.installed {base : Mem Object} {pg : Page} (h : Mirrors face sc base pg s s)
    (handlers : ExceptionHandlers) (t : List BusEvent) :
    Mirrors face sc base pg (s.installed handlers t) (s.installed handlers t) := by
  obtain ⟨c, screen, bus, hsame, hmirror⟩ := h
  have hcanvas : s.canvas = c := congrArg Machine.canvas hsame
  have hram : ∀ l : Location, l.obj = .ram → (s.installed handlers t).mem l = s.mem l := by
    intro l hl
    refine installed_outside handlers _ _ s.mem fun v _ hc => ?_
    have hobj : Object.idt = .ram := hc.1.symm.trans hl
    cases hobj
  subst hcanvas
  refine ⟨(s.installed handlers t).canvas, s.screen, s.bus ++ t, rfl, hmirror.backs,
    hmirror.presents.elsewhere hram, hmirror.near, rfl, fun _ _ => rfl, fun l hl hout => ?_⟩
  exact (hram l hl).trans (hmirror.ram l hl hout)

theorem Mirrors.shown {base : Mem Object} {pg : Page} {t : Machine}
    (h : Mirrors face sc base pg s t) :
    Presents sc t.mem t.canvas pg ∧
      ∀ l : Location, l.obj = .ram → ¬ sc.start.Covers (sc.p * sc.h) l → t.mem l = base l := by
  obtain ⟨c, screen, bus, rfl, hmirror⟩ := h
  exact ⟨hmirror.presents, hmirror.ram⟩

theorem start_mirrors (readable : Readable font face) (tall : 2 * face.lineHeight ≤ sc.h)
    (hfb : boot.framebuffers = some (framebuffer :: rest)) (backs : Backs framebuffer sc)
    (k : MemmapConstants) (handlers : ExceptionHandlers) (s : Machine) :
    ∃ s' t', (Over.start (drawPutc font) k handlers boot).Stops s
        (kernelTranscript k boot s.pending s.junk s.typed).why t' ∧
      t'.handled = s.handled ++ (kernelTranscript k boot s.pending s.junk s.typed).log ∧
      Mirrors face sc s.mem
        (Page.run face sc.w sc.h ⟨pictureOf sc s.mem, 0, 0, 0xff000000⟩
          (kernelTranscript k boot s.pending s.junk s.typed).ops) s' t' := by
  let s₁ : Machine := { s.drawingOn framebuffer with globalFg := 0xffffff, init := true }
  have hconsole : (consoleInit framebuffer).Returns s () (s.drawingOn framebuffer) :=
    consoleInit_returns framebuffer s
  have hdebug : (initDebug 0xffffff).Returns (s.drawingOn framebuffer) () s₁ :=
    Prog.returns_modify _ _
  have h₁ : Mirrors face sc s.mem ⟨pictureOf sc s.mem, 0, 0, 0xff000000⟩ s₁ s₁ :=
    mirrors_init backs s
  simp only [Over.start, hfb]
  cases hhhdm : boot.hhdm with
  | none =>
      obtain ⟨s', t', hpanic, hhandled, hmirrors⟩ :=
        panic_draws readable tall h₁ rfl "NO_HHDM" (by decide)
      have htranscript : kernelTranscript k boot s.pending s.junk s.typed =
          ⟨[], panicOps "NO_HHDM", .halted⟩ := by
        simp only [kernelTranscript, hfb, hhhdm]
      rw [htranscript]
      refine ⟨s', t', hconsole.bind (hdebug.bind ?_), ?_, hmirrors⟩
      · simp only [Option.isNone_none, if_true]
        exact Prog.Ends.bind_stopped _ hpanic
      · rw [hmirrors.handled, hhandled, List.append_nil]
        rfl
  | some offset =>
      obtain ⟨u, hinstall⟩ := initInterrupts_installs handlers s₁
      obtain ⟨s', t', hmain, hhandled, hmirrors⟩ := kernelMain_draws readable tall k hfb hhhdm
        (h₁.installed handlers u) rfl rfl
      refine ⟨s', t', hconsole.bind (hdebug.bind ?_), hmirrors.handled.trans hhandled, hmirrors⟩
      simp only [Option.isNone_some, Bool.false_eq_true, if_false]
      exact Prog.Ends.bind (.of_forall hinstall) (Prog.Ends.bind_stopped _ hmain)

/-- From the keys to the pixels. The kernel whose characters are drawn with the font handles
the lines that are typed and ends as its transcript says, and then the framebuffer shows the
page that the transcript's characters and clears make of the first picture. Nothing else in
`ram` has changed. -/
theorem start_shows (readable : Readable font face) (tall : 2 * face.lineHeight ≤ sc.h)
    (hfb : boot.framebuffers = some (framebuffer :: rest)) (backs : Backs framebuffer sc)
    (k : MemmapConstants) (handlers : ExceptionHandlers) (s : Machine) :
    ∃ s', (Over.start (drawPutc font) k handlers boot).Stops s
        (kernelTranscript k boot s.pending s.junk s.typed).why s' ∧
      s'.handled = s.handled ++ (kernelTranscript k boot s.pending s.junk s.typed).log ∧
      Presents sc s'.mem s'.canvas
        (Page.run face sc.w sc.h ⟨pictureOf sc s.mem, 0, 0, 0xff000000⟩
          (kernelTranscript k boot s.pending s.junk s.typed).ops) ∧
      ∀ l : Location, l.obj = .ram → ¬ sc.start.Covers (sc.p * sc.h) l →
        s'.mem l = s.mem l := by
  obtain ⟨_, s', hstop, hhandled, hmirrors⟩ :=
    start_mirrors readable tall hfb backs k handlers s
  exact ⟨s', hstop, hhandled, hmirrors.shown⟩

/-- A boot on a screen of 16 by 4 pixels. -/
def cardBoot : BootResponses := { xgaBoot with framebuffers := some [cardFramebuffer] }

/-- `clear` and Enter. -/
def clearTyped : Machine :=
  { Machine.reset with
    samples := fun _ => [46, 174, 38, 166, 18, 146, 30, 158, 19, 147, 28, 156] }

theorem kernelTranscript_clear :
    ∃ before, kernelTranscript limineConstants cardBoot clearTyped.pending clearTyped.junk
        clearTyped.typed =
      ⟨[.command clearCommand], before ++ .clear 0 :: puts (glyphs 0xffffff (bytes "> ")),
        .waiting⟩ := by
  have hclear : readLine 256 clearTyped.typed = some (clearCommand, []) := by decide
  have hrest : readLine 256 [] = none := rfl
  have hpending : clearTyped.pending = [] := by decide
  refine ⟨puts (glyphs 0xffffff (banner cardFramebuffer 0xffff800000000000 ++
    (report limineConstants 0xffff800000000000 [⟨0x1000, 0x9000, 0⟩] ++ bytes readyText))) ++
      puts (prompted 0xffffff clearCommand), ?_⟩
  simp only [kernelTranscript, cardBoot, xgaBoot,
    shellTranscript_runs hclear (by decide) (by decide), shellTranscript_waits hrest, hpending,
    Transcript.after, responseOps, if_pos, List.append_nil, List.nil_append, List.append_assoc,
    List.singleton_append, glyphs_nil]

/-- After `clear` the page is the prompt on a blank one, whatever was on the screen. -/
theorem start_shows_clear :
    ∃ s', (Over.start (drawPutc letterFont) limineConstants linkedHandlers cardBoot).Stops
        clearTyped .waiting s' ∧
      s'.handled = [.command clearCommand] ∧
      Presents cardScreen s'.mem s'.canvas
        (Page.run letterFace 16 4 (Page.blank 0) (puts (glyphs 0xffffff (bytes "> ")))) := by
  obtain ⟨before, htranscript⟩ := kernelTranscript_clear
  have hfb : cardBoot.framebuffers = some [cardFramebuffer] := rfl
  obtain ⟨s', hstop, hhandled, hpresents, -⟩ := start_shows letterFont_readable (by decide) hfb
    cardScreen_backs limineConstants linkedHandlers clearTyped
  rw [htranscript] at hstop hhandled hpresents
  rw [Page.run_append, Page.run_clear] at hpresents
  exact ⟨s', hstop, hhandled, hpresents⟩

end Start
end BenchOS
