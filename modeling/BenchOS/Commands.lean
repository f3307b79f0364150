import BenchOS.Accesses
import BenchOS.Clear
import BenchOS.StringEquality
import BenchOS.Transcript

/-!
What the shell does with one line. Every command ends: the line is compared with
four strings, the pixel loop of `clear` is bounded by the framebuffer, and the
decoder behind `dumppage` ends on every text. Only `exit` halts, and only
`dumppage` takes another line.
-/
namespace BenchOS

/-- From `s` to `s'` only the framebuffer and the renderer's state have changed. -/
def Paints (s s' : Machine) : Prop :=
  ∃ m dst t, (∀ l : Location, l.obj ≠ .ram → m l = s.mem l) ∧
    s' = { s with mem := m, ssfnDst := dst, bus := s.bus ++ t }

theorem Paints.said {s s' : Machine} (h : Paints s s') : Says s s' [] := by
  obtain ⟨m, dst, t, -, rfl⟩ := h
  exact ⟨m, dst, t, by simp⟩

theorem Paints.mem_eq {s s' : Machine} (h : Paints s s') {l : Location} (hl : l.obj ≠ .ram) :
    s'.mem l = s.mem l := by
  obtain ⟨m, dst, t, hm, rfl⟩ := h
  exact hm l hl

theorem consoleClear_paints (color : UInt32) (s : Machine) :
    ∃ s', (consoleClear color).Returns s () s' ∧ Paints s s' := by
  refine ⟨_, consoleClear_returns color s, _, _, _, fun l hl => ?_, rfl⟩
  apply storing32_outside s color
  intro l' hl' hc
  obtain ⟨x, -, rfl⟩ := List.mem_map.mp hl'
  exact hl hc.1

/-- From `s` to `s'` the shell has acted on `log` and the screen has been asked for `ops`. In
`ram` only their clears have stored anything, and only they have moved the pen. -/
structure Acts (s s' : Machine) (log : List Handled) (ops : List ScreenOp) : Prop where
  screen : s'.screen = s.screen ++ sent ops
  handled : s'.handled = s.handled ++ log
  globalFg : s'.globalFg = s.globalFg
  framebuffer : s'.globalFramebuffer = s.globalFramebuffer
  ram : ∀ l : Location, l.obj = .ram → s'.mem l = s.globalFramebuffer.wiped ops s.mem l
  pen : s'.pen = ops.foldl (ScreenOp.turns s.globalFramebuffer) s.pen

theorem Acts.trans {s₀ s₁ s₂ : Machine} {a b : List Handled} {ops ops' : List ScreenOp}
    (h : Acts s₀ s₁ a ops) (k : Acts s₁ s₂ b ops') : Acts s₀ s₂ (a ++ b) (ops ++ ops') where
  screen := by rw [k.screen, h.screen, sent_append, List.append_assoc]
  handled := by rw [k.handled, h.handled, List.append_assoc]
  globalFg := k.globalFg.trans h.globalFg
  framebuffer := k.framebuffer.trans h.framebuffer
  ram := by
    intro l hl
    rw [k.ram l hl, h.framebuffer, LimineFramebuffer.wiped_append]
    exact Mem.blits_congr (h.ram l hl)
  pen := by rw [k.pen, h.framebuffer, h.pen, List.foldl_append]

theorem turns_puts (fb : LimineFramebuffer) (out : List Glyph) (pen : SsfnBuf) :
    (puts out).foldl (ScreenOp.turns fb) pen = pen := by
  rw [puts, List.foldl_map]
  exact List.foldl_fixed out

theorem wiped_puts (fb : LimineFramebuffer) (out : List Glyph) (m : Mem Object) :
    fb.wiped (puts out) m = m := by
  have hnone : (puts out).flatMap (ScreenOp.stores fb) = [] := by
    rw [puts, List.flatMap_map]
    exact List.flatMap_eq_nil_iff.mpr fun _ _ => rfl
  rw [LimineFramebuffer.wiped, hnone, Mem.blits_nil]

/-- Characters alone store nothing in `ram`. -/
theorem Shows.acts {s s' : Machine} {out : List Glyph} (h : Shows s s' out)
    (hfb : s'.globalFramebuffer = s.globalFramebuffer)
    (hram : ∀ l : Location, l.obj = .ram → s'.mem l = s.mem l) (hpen : s'.pen = s.pen) :
    Acts s s' [] (puts out) where
  screen := by rw [sent_puts, h.screen]
  handled := by rw [h.handled, List.append_nil]
  globalFg := h.globalFg
  framebuffer := hfb
  ram l hl := by rw [wiped_puts, hram l hl]
  pen := by rw [turns_puts, hpen]

theorem Prints.acts {s s' : Machine} {out : List Glyph} (h : Prints s s' out) :
    Acts s s' [] (puts out) := by
  have hshows := h.shows
  obtain ⟨m, fg, t, hm, rfl⟩ := h
  exact hshows.acts rfl (fun l hl => hm l (hl ▸ by decide)) rfl

theorem Moves.acts {W : List Object} {s s' : Machine} {out : List Glyph} (h : Moves W s s')
    (hW : .ram ∉ W) (hshows : Shows s s' out) : Acts s s' [] (puts out) :=
  hshows.acts h.framebuffer (fun l hl => h.mem l (hl ▸ hW)) (h.pen hW)

theorem Acts.puts_screen {s s' : Machine} {log : List Handled} {out : List Glyph}
    (h : Acts s s' log (puts out)) : s'.screen = s.screen ++ out := by
  rw [h.screen, sent_puts]

theorem Acts.of_withJunk {s s' : Machine} {junk : Nat → UInt64} {log : List Handled}
    {ops : List ScreenOp} (h : Acts (s.withJunk junk) s' log ops) : Acts s s' log ops :=
  ⟨h.screen, h.handled, h.globalFg, h.framebuffer, h.ram, h.pen⟩

theorem consoleClear_acts (color : UInt32) (s : Machine) :
    ∃ s', (consoleClear color).Returns s () s' ∧ Paints s s' ∧
      Acts s s' [] [.clear color] := by
  obtain ⟨s', hclear, hpaints⟩ := consoleClear_paints color s
  cases (consoleClear_returns color s).unique hclear
  refine ⟨_, hclear, hpaints, (List.append_nil _).symm, (List.append_nil _).symm, rfl, rfl, ?_,
    ?_⟩
  · intro l _
    rw [LimineFramebuffer.wiped, List.flatMap_singleton]
    rfl
  · exact afterRows_colours s.ssfnDst _ 0 (0xff000000 ||| color)

/-- The branch that `dispatch` takes for the line `text`. -/
def Over.branch (putc : UInt8 → Kernel Unit) (text : List UInt8) : Kernel Unit :=
  if text = [] then
    pure ()
  else if text = exitCommand then do
    let _ ← Over.printf putc (literal "exiting...\n") []
    exit
  else if text = helpCommand then do
    let _ ← Over.printf putc (literal helpText) []
  else if text = clearCommand then
    consoleClear 0
  else if text = dumppageCommand then
    Over.dumppage putc
  else do
    Over.consolePutString putc (literal "Unknown command: ") 0xff0000
    Over.consolePutString putc (.loc input) 0xff0000
    Over.consolePutString putc (literal "\n") 0xff0000

abbrev branch := Over.branch ssfnPutc

theorem branch_clear (putc : UInt8 → Kernel Unit) :
    Over.branch putc clearCommand = consoleClear 0 := by
  rw [Over.branch, if_neg (by decide), if_neg (by decide), if_neg (by decide), if_pos rfl]

theorem branch_dumppage (putc : UInt8 → Kernel Unit) :
    Over.branch putc dumppageCommand = Over.dumppage putc := by
  rw [Over.branch, if_neg (by decide), if_neg dumppage_ne_exit, if_neg (by decide),
    if_neg (by decide), if_pos rfl]

section Line
variable {s : Machine} {text : List UInt8}

/-- `code` prints nothing before it goes on as `side`. -/
def ReadsOn (s : Machine) (code side : Kernel Unit) : Prop :=
  ∃ s', Prints s s' [] ∧ ∀ {o}, side.Ends s' o → code.Ends s o

theorem ReadsOn.refl (s : Machine) (code : Kernel Unit) : ReadsOn s code code :=
  ⟨s, .refl s, fun hside => hside⟩

theorem ReadsOn.load {c : UInt8} {next : UInt8 → Kernel Unit} {side : Kernel Unit}
    {p : Pointer} (h : s.mem.read p = some c) (hnext : ReadsOn (s.reading [p]) (next c) side) :
    ReadsOn s (BenchOS.load p >>= next) side := by
  obtain ⟨s', hp, hside⟩ := hnext
  exact ⟨s', (prints_reading s [p]).trans hp, fun ho => (load_returns h).bind (hside ho)⟩

/-- One comparison of `dispatch` compares the whole line. -/
theorem ReadsOn.test (h : Holds s.mem (.loc input) text) (name : String)
    {command : List UInt8} (hname : bytes name = command) (hnul : 0 ∉ command)
    {yes no side : Kernel Unit}
    (hno : ∀ s', Holds s'.mem (.loc input) text → ReadsOn s' no side) :
    ReadsOn s (do if ← stringeq (.loc input) (literal name) then yes else no)
      (if text = command then yes else side) := by
  subst hname
  obtain ⟨ps, -, hreturns⟩ := stringeq_returns h.1 (cstring_lit s.mem (bytes name) hnul)
  have hp := prints_reading s ps
  by_cases heq : text = bytes name
  · refine ⟨_, hp, fun hside => hreturns.bind ?_⟩
    rw [if_pos heq] at hside
    rwa [if_pos (decide_eq_true heq)]
  · obtain ⟨s', hp', hside'⟩ := hno _ (hp.holds h)
    refine ⟨s', hp.trans hp', fun hside => hreturns.bind ?_⟩
    rw [if_neg heq] at hside
    rw [if_neg (mt of_decide_eq_true heq)]
    exact hside' hside

theorem dispatch_reads (putc : UInt8 → Kernel Unit) (h : Holds s.mem (.loc input) text) :
    ReadsOn s (Over.dispatch putc) (Over.branch putc text) := by
  cases text with
  | nil => exact .load h.1 (.refl _ _)
  | cons c text =>
      have hc : c ≠ 0 := h.1.2.1
      apply ReadsOn.load h.1.1
      rw [if_neg hc, Over.branch, if_neg (List.cons_ne_nil c text)]
      exact .test ((prints_reading s _).holds h) "exit" rfl (by decide) fun s₁ h₁ =>
        .test h₁ "help" rfl (by decide) fun s₂ h₂ =>
          .test h₂ "clear" rfl (by decide) fun s₃ h₃ =>
            .test h₃ "dumppage" rfl (by decide) fun s₄ _ => .refl s₄ _

theorem unknown_returns (h : Holds s.mem (.loc input) text) :
    ∃ s', (do
        consolePutString (literal "Unknown command: ") 0xff0000
        consolePutString (.loc input) 0xff0000
        consolePutString (literal "\n") 0xff0000 : Kernel Unit).Returns s () s' ∧
      Prints s s' (glyphs 0xff0000 (bytes "Unknown command: " ++ text ++ bytes "\n")) := by
  obtain ⟨s₁, hfirst, p₁⟩ := consolePutString_prints (s := s) 0xff0000
    (holds_literal s.mem "Unknown command: " (by decide)).1
  obtain ⟨s₂, hsecond, p₂⟩ := consolePutString_prints 0xff0000 (p₁.holds h).1
  obtain ⟨s', hthird, p₃⟩ := consolePutString_prints (s := s₂) 0xff0000
    (holds_literal s₂.mem "\n" (by decide)).1
  refine ⟨s', hfirst.bind (hsecond.bind hthird), ?_⟩
  rw [glyphs_append, glyphs_append]
  exact (p₁.trans p₂).trans p₃

theorem dispatch_branch (h : Holds s.mem (.loc input) text) :
    ReadsOn s dispatch (branch text) :=
  dispatch_reads ssfnPutc h

/-- A line that neither exits nor asks for an address is answered. -/
theorem branch_answers (h : Holds s.mem (.loc input) text) (notExit : text ≠ exitCommand)
    (notDump : text ≠ dumppageCommand) :
    ∃ s', (branch text).Returns s () s' ∧ Says s s' (response s.globalFg text) ∧
      Acts s s' [] (responseOps s.globalFg text) := by
  rw [branch, Over.branch, if_neg notExit, if_neg notDump]
  by_cases isClear : text = clearCommand
  · subst isClear
    obtain ⟨s', hclear, hpaints, hacts⟩ := consoleClear_acts 0 s
    rw [responseOps, response, if_pos rfl]
    simp only [show clearCommand ≠ [] by decide, show clearCommand ≠ helpCommand by decide,
      if_false, if_true]
    exact ⟨s', hclear, hpaints.said, hacts⟩
  have hops : responseOps s.globalFg text = puts (response s.globalFg text) := if_neg isClear
  rw [hops, response]
  by_cases isEmpty : text = []
  · rw [if_pos isEmpty, if_pos isEmpty]
    exact ⟨s, Prog.returns_pure _ _, (Prints.refl s).said, (Prints.refl s).acts⟩
  rw [if_neg isEmpty, if_neg isEmpty]
  by_cases isHelp : text = helpCommand
  · rw [if_pos isHelp, if_pos isHelp]
    obtain ⟨left, s', hprint, hp⟩ := printf_literal s helpText (by decide) (by decide)
    exact ⟨s', hprint.bind (Prog.returns_pure _ _), hp.said, hp.acts⟩
  rw [if_neg isHelp, if_neg isHelp, if_neg isClear, if_neg isClear]
  obtain ⟨s', hunknown, hp⟩ := unknown_returns h
  exact ⟨s', hunknown, hp.said, hp.acts⟩

theorem dispatch_answers (h : Holds s.mem (.loc input) text) (notExit : text ≠ exitCommand)
    (notDump : text ≠ dumppageCommand) :
    ∃ s', dispatch.Returns s () s' ∧ Says s s' (response s.globalFg text) ∧
      Acts s s' [] (responseOps s.globalFg text) := by
  obtain ⟨s₁, p₁, hdispatch⟩ := dispatch_branch h
  obtain ⟨s', hbranch, hsaid, hacts⟩ := branch_answers (p₁.holds h) notExit notDump
  rw [p₁.globalFg_eq] at hsaid hacts
  exact ⟨s', hdispatch hbranch, p₁.said.trans hsaid, p₁.acts.trans hacts⟩

theorem branch_exits (s : Machine) :
    ∃ s', (branch exitCommand).Stops s .halted s' ∧
      Prints s s' (glyphs s.globalFg (bytes "exiting...\n")) := by
  obtain ⟨left, s', hprint, hp⟩ := printf_literal s "exiting...\n" (by decide) (by decide)
  rw [branch, Over.branch, if_neg (by decide), if_pos rfl]
  exact ⟨s', hprint.bind (Prog.stops_stop _ _), hp⟩

theorem dispatch_exit (h : Holds s.mem (.loc input) exitCommand) :
    ∃ s', dispatch.Stops s .halted s' ∧
      Prints s s' (glyphs s.globalFg (bytes "exiting...\n")) := by
  obtain ⟨s₁, p₁, hdispatch⟩ := dispatch_branch h
  obtain ⟨s', hbranch, hp⟩ := branch_exits s₁
  rw [p₁.globalFg_eq] at hp
  exact ⟨s', hdispatch hbranch, p₁.trans hp⟩

end Line

theorem input_outside : Pointer.Outside (.loc input) .numHex :=
  show Object.input ≠ .numHex by decide

/-- Reading a line changes its buffer alone. -/
theorem consoleInput_moves {count : Nat} (hcount : count ≤ 256) (fg : UInt32) {s : Machine}
    {o : Outcome Halt Machine Unit}
    (h : (consoleInputCharacters input count fg true).Ends s o) : Moves [.input] s o.state := by
  obtain ⟨N, hN⟩ := h
  exact (consoleInputCharacters_tame (by decide) hcount fg N o (hN N (Nat.le_refl N))).1

theorem consoleInput_holds {count : Nat} (hcount : count ≤ 256) (fg : UInt32) {s : Machine}
    {text rest : List UInt8} (h : readLine count s.typed = some (text, rest)) :
    ∃ s', (consoleInputCharacters input count fg true).Returns s () s' ∧ s'.typed = rest ∧
      Acts s s' [] (puts (glyphs fg text)) ∧ Unspent s s' ∧
      Holds s'.mem (.loc input) text := by
  have hbound : count < 2 ^ 64 := by omega
  obtain ⟨s', hreturns, hrest, hshows, hmem⟩ :=
    consoleInputCharacters_returns input count fg true hbound h
  rw [if_neg (by simp)] at hmem
  have hlen := readLine_length_le h
  exact ⟨s', hreturns, hrest, (consoleInput_moves hcount fg hreturns).acts (by decide) hshows,
    consoleInputCharacters_unspent hbound h hreturns,
    hmem ▸ cstring_blit s.mem input text (readLine_noNul h) (by omega), input_outside⟩

theorem consoleInput_waits {count : Nat} (hcount : count ≤ 256) (fg : UInt32) {s : Machine}
    (h : readLine count s.typed = none) :
    ∃ s', (consoleInputCharacters input count fg true).Stops s .waiting s' ∧
      Acts s s' [] (puts (glyphs fg (s.typed ++ s.pending))) := by
  obtain ⟨s', hstop, hshows⟩ := consoleInputCharacters_waits input count fg true h
  exact ⟨s', hstop, (consoleInput_moves hcount fg hstop).acts (by decide) hshows⟩

theorem note_acts (how : List UInt8 → Handled) {s : Machine} {text : List UInt8}
    (h : Holds s.mem (.loc input) text) (hlen : text.length ≤ 256) :
    ∃ s', (note how).Returns s () s' ∧ s'.mem = s.mem ∧ s'.typed = s.typed ∧
      Unspent s s' ∧ Acts s s' [how text] [] := by
  refine ⟨_, Prog.returns_modify _ s, rfl, rfl, ⟨rfl, rfl⟩, ?_, ?_, rfl, rfl, fun _ _ => rfl,
    rfl⟩
  · exact (List.append_nil _).symm
  · rw [h.1.textOf (by omega)]

/-- What `dumppage` does with an address: the line is decoded and the number printed. -/
theorem dump_returns {s : Machine} {number : List UInt8}
    (h : Holds s.mem (.loc input) number) :
    ∃ s', (do
        let value ← fromHexString (.loc input)
        let _ ← printf (literal "\n0x%x\n") [.number value] : Kernel Unit).Returns s () s' ∧
      Prints (s.withJunk fun i => s.junk (i + strays number + 1)) s'
        (glyphs s.globalFg (lengthNotice (s.junk 0).toUInt32) ++ glyphs s.globalFg
          (valueNotice (weigh number (s.junk 0).toUInt32 (fun i => s.junk (i + 1)) 0))) := by
  obtain ⟨s₁, hvalue, p₁⟩ := fromHexString_uses h
  have hplain : percent ∉ bytes "\n" := by decide
  have hrender := fun n => (renders_plain hplain []).number (bytes "\n0x") n (by decide)
  have hformat : Holds s₁.mem (literal "\n0x%x\n") (bytes "\n0x%x\n") :=
    holds_literal _ _ (by decide)
  obtain ⟨left, s', hprint, p₂⟩ := printf_renders (s := s₁) [.number _] (hrender _) hformat
    (.cons rfl .nil)
  have hcolour : s₁.globalFg = s.globalFg := p₁.globalFg_eq
  rw [hcolour] at p₂
  exact ⟨s', hvalue.bind (hprint.bind (Prog.returns_pure _ _)), p₁.trans p₂⟩

theorem dumppage_ends (s : Machine) :
    (readLine 16 s.typed = none ∧ ∃ s', dumppage.Stops s .waiting s' ∧
      Acts s s' [] (puts (asked s.globalFg (s.typed ++ s.pending)))) ∨
    ∃ number s', readLine 16 s.typed = some (number, s'.typed) ∧
      dumppage.Returns s () s' ∧
      Acts s s' [.address number] (puts (dumped s.globalFg number s.junk)) ∧
      s'.pending = s.pending ∧ s'.junk = fun i => s.junk (i + strays number + 1) := by
  obtain ⟨left, s₁, hask, p₁⟩ := printf_literal s "Enter address: " (by decide) (by decide)
  rw [← p₁.typed_eq, ← p₁.said.unspent.pending, ← p₁.junk_eq]
  cases hread : readLine 16 s₁.typed with
  | none =>
      obtain ⟨s', hwait, hacts⟩ := consoleInput_waits (by decide) 0xffff00 hread
      have hall := p₁.acts.trans hacts
      rw [← puts_append] at hall
      exact .inl ⟨rfl, s', hask.bind (Prog.Ends.bind_stopped _ hwait), hall⟩
  | some read =>
      obtain ⟨number, rest⟩ := read
      obtain ⟨s₂, hinput, rfl, hline, hunspent, hholds⟩ :=
        consoleInput_holds (by omega) 0xffff00 hread
      have hlen := readLine_length_le hread
      obtain ⟨s₃, hnote, hmem, htyped, hsame, hacts⟩ := note_acts .address hholds (by omega)
      obtain ⟨s', hdump, p₄⟩ := dump_returns (hmem ▸ hholds)
      have htyped' : s'.typed = s₂.typed := p₄.typed_eq.trans htyped
      have hkept := hunspent.trans hsame
      have hall := ((p₁.acts.trans hline).trans hacts).trans p₄.acts.of_withJunk
      refine .inr ⟨number, s', by rw [htyped'],
        hask.bind (hinput.bind (hnote.bind hdump)), ?_, ?_, ?_⟩
      · simpa [dumped, asked, hacts.globalFg, hline.globalFg, p₁.globalFg_eq, hkept.junk]
          using hall
      · exact p₄.said.unspent.pending.trans hkept.pending
      · rw [p₄.junk_eq, Machine.withJunk_junk, hkept.junk]

theorem dispatch_dump {s : Machine} (h : Holds s.mem (.loc input) dumppageCommand) :
    (readLine 16 s.typed = none ∧ ∃ s', dispatch.Stops s .waiting s' ∧
      Acts s s' [] (puts (asked s.globalFg (s.typed ++ s.pending)))) ∨
    ∃ number s', readLine 16 s.typed = some (number, s'.typed) ∧
      dispatch.Returns s () s' ∧
      Acts s s' [.address number] (puts (dumped s.globalFg number s.junk)) ∧
      s'.pending = s.pending ∧ s'.junk = fun i => s.junk (i + strays number + 1) := by
  obtain ⟨s₁, p₁, hdispatch⟩ := dispatch_branch h
  have hbranch : branch dumppageCommand = dumppage := branch_dumppage ssfnPutc
  rw [hbranch] at hdispatch
  rw [← p₁.typed_eq, ← p₁.said.unspent.pending, ← p₁.junk_eq, ← p₁.globalFg_eq]
  rcases dumppage_ends s₁ with ⟨hread, s', hstop, hacts⟩ |
    ⟨number, s', hread, hreturns, hacts, hkept⟩
  · exact .inl ⟨hread, s', hdispatch hstop, p₁.acts.trans hacts⟩
  · exact .inr ⟨number, s', hread, hdispatch hreturns, p₁.acts.trans hacts, hkept⟩

end BenchOS
