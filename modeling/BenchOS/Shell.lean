import BenchOS.Commands

/-!
The prompt loop carries out a session through its two buffers. A run ends only in
the wait for a key or in `exit`, since every turn takes something from what is
typed.
-/
namespace BenchOS

/-- What a turn of the prompt loop does before `dispatch`. -/
def Over.promptLine (putc : UInt8 → Kernel Unit) : Kernel Unit := do
  let _ ← Over.printf putc (literal "> ") []
  Over.consoleInputCharacters putc input 256 0xffff00 true
  let _ ← Over.printf putc (literal "\n") []
  note .command

theorem promptTurn_line (putc : UInt8 → Kernel Unit) :
    Over.promptTurn putc () =
      Over.promptLine putc >>= fun _ => Over.dispatch putc >>= fun _ => pure (.again ()) := by
  simp only [Over.promptTurn, Over.promptLine, Prog.bind_assoc]

theorem promptLine_ends (s : Machine) :
    (readLine 256 s.typed = none ∧ ∃ s', (Over.promptLine ssfnPutc).Stops s .waiting s' ∧
      Acts s s' [] (puts (glyphs s.globalFg (bytes "> ") ++
        glyphs 0xffff00 (s.typed ++ s.pending)))) ∨
    ∃ text s', readLine 256 s.typed = some (text, s'.typed) ∧ Holds s'.mem (.loc input) text ∧
      Acts s s' [.command text] (puts (prompted s.globalFg text)) ∧ Unspent s s' ∧
      (Over.promptLine ssfnPutc).Returns s () s' := by
  obtain ⟨left, s₁, hask, p₁⟩ := printf_literal s "> " (by decide) (by decide)
  rw [← p₁.typed_eq, ← p₁.said.unspent.pending]
  cases hread : readLine 256 s₁.typed with
  | none =>
      obtain ⟨s', hwait, hacts⟩ := consoleInput_waits (Nat.le_refl 256) 0xffff00 hread
      have hall := p₁.acts.trans hacts
      rw [← puts_append] at hall
      exact .inl ⟨rfl, s', hask.bind (Prog.Ends.bind_stopped _ hwait), hall⟩
  | some read =>
      obtain ⟨text, rest⟩ := read
      obtain ⟨s₂, hinput, rfl, hline, hunspent, hholds⟩ :=
        consoleInput_holds (Nat.le_refl 256) 0xffff00 hread
      obtain ⟨left', s₃, hnewline, p₃⟩ := printf_literal s₂ "\n" (by decide) (by decide)
      obtain ⟨s', hnote, hmem, htyped, hsame, hacts⟩ :=
        note_acts .command (p₃.holds hholds) (readLine_length_le hread)
      rw [hline.globalFg, p₁.globalFg_eq] at p₃
      refine .inr ⟨text, s', by rw [htyped, p₃.typed_eq], hmem ▸ p₃.holds hholds, ?_,
        ((p₁.said.unspent.trans hunspent).trans p₃.said.unspent).trans hsame,
        hask.bind (hinput.bind (hnewline.bind hnote))⟩
      simpa [prompted] using ((p₁.acts.trans hline).trans p₃.acts).trans hacts

theorem prompt_ends (s : Machine) :
    (readLine 256 s.typed = none ∧ ∃ s', (promptTurn ()).Stops s .waiting s' ∧
      Acts s s' [] (puts (glyphs s.globalFg (bytes "> ") ++
        glyphs 0xffff00 (s.typed ++ s.pending)))) ∨
    ∃ text s', readLine 256 s.typed = some (text, s'.typed) ∧ Holds s'.mem (.loc input) text ∧
      Acts s s' [.command text] (puts (prompted s.globalFg text)) ∧ Unspent s s' ∧
      ∀ {o}, (dispatch >>= fun _ => pure (.again ())).Ends s' o → (promptTurn ()).Ends s o := by
  have hturn : promptTurn () =
      Over.promptLine ssfnPutc >>= fun _ => dispatch >>= fun _ => pure (.again ()) :=
    promptTurn_line ssfnPutc
  rw [hturn]
  rcases promptLine_ends s with ⟨hread, s', hstop, hacts⟩ |
    ⟨text, s', hread, hholds, hacts, hunspent, hreturns⟩
  · exact .inl ⟨hread, s', Prog.Ends.bind_stopped _ hstop, hacts⟩
  · exact .inr ⟨text, s', hread, hholds, hacts, hunspent, fun hrest => hreturns.bind hrest⟩

/-- The prompt loop goes through the transcript. -/
theorem promptLoop_transcript (s : Machine) :
    ∃ s', promptLoop.Stops s (shellTranscript s.globalFg s.pending s.junk s.typed).why s' ∧
      Acts s s' (shellTranscript s.globalFg s.pending s.junk s.typed).log
        (shellTranscript s.globalFg s.pending s.junk s.typed).ops := by
  rcases prompt_ends s with ⟨hread, s', hstop, hacts⟩ |
    ⟨text, s₁, hread, hholds, hacts, hunspent, hturn⟩
  · rw [shellTranscript_waits hread]
    exact ⟨s', Prog.loop_stop hstop, hacts⟩
  by_cases isExit : text = exitCommand
  · subst isExit
    obtain ⟨s', hexit, hp⟩ := dispatch_exit hholds
    rw [hacts.globalFg] at hp
    rw [shellTranscript_exits hread, puts_append]
    exact ⟨s', Prog.loop_stop (hturn (Prog.Ends.bind_stopped _ hexit)), hacts.trans hp.acts⟩
  by_cases isDump : text = dumppageCommand
  · subst isDump
    have hdump := dispatch_dump hholds
    rw [hacts.globalFg, hunspent.pending, hunspent.junk] at hdump
    rcases hdump with ⟨hnext, s', hstop, hmore⟩ |
      ⟨number, s₂, hnext, hdispatch, hmore, hpending, hjunk⟩
    · rw [shellTranscript_asks hread hnext, puts_append]
      exact ⟨s', Prog.loop_stop (hturn (Prog.Ends.bind_stopped _ hstop)), hacts.trans hmore⟩
    · have hacts₂ := hacts.trans hmore
      obtain ⟨s', hstop, hrest⟩ := promptLoop_transcript s₂
      rw [hacts₂.globalFg, hpending, hjunk] at hstop hrest
      rw [shellTranscript_dumps hread hnext, puts_append]
      exact ⟨s', Prog.loop_again (hturn (hdispatch.bind (Prog.returns_pure _ _))) hstop,
        hacts₂.trans hrest⟩
  · obtain ⟨s₂, hdispatch, hsaid, hmore⟩ := dispatch_answers hholds isExit isDump
    have hacts₂ := hacts.trans hmore
    have hkept := hunspent.trans hsaid.unspent
    rw [hacts.globalFg] at hacts₂
    obtain ⟨s', hstop, hrest⟩ := promptLoop_transcript s₂
    rw [hacts₂.globalFg, hkept.pending, hkept.junk, hsaid.typed_eq] at hstop hrest
    rw [shellTranscript_runs hread isExit isDump]
    exact ⟨s', Prog.loop_again (hturn (hdispatch.bind (Prog.returns_pure _ _))) hstop,
      hacts₂.trans hrest⟩
termination_by s.typed.length
decreasing_by
  · exact (readLine_rest_lt (by omega) hnext).trans (readLine_rest_lt (by omega) hread)
  · rw [hsaid.typed_eq]
    exact readLine_rest_lt (by omega) hread

/-- The prompt loop carries out the session of its two buffers. -/
theorem promptLoop_session (s : Machine) :
    ∃ s' log ops why, promptLoop.Stops s why s' ∧ Acts s s' log ops ∧
      bufferedSession s.globalFg s.pending s.junk s.typed log ops why := by
  obtain ⟨s', hstop, hacts⟩ := promptLoop_transcript s
  exact ⟨s', _, _, _, hstop, hacts, shellTranscript_session _ _ _ _⟩

/-- From `s` to `s'` each line that was typed has been carried out once, in order and as a
whole, and what was shown and cleared is what these lines ask for. -/
def Machine.HandlesLines (s s' : Machine) (why : Halt) : Prop :=
  ∃ log ops, wholeSession s.globalFg s.pending s.junk s.typed log ops why ∧ Acts s s' log ops

/-- The shell handles the lines that are typed, each once and whole, exactly when every
line that is read fits in its buffer. -/
theorem promptLoop_lines (s : Machine) :
    ∃ s' why, promptLoop.Stops s why s' ∧ (s.HandlesLines s' why ↔ Fits s.typed) := by
  obtain ⟨s', log, ops, why, hstop, hacts, hbuffered⟩ := promptLoop_session s
  refine ⟨s', why, hstop, ?_, ?_⟩
  · rintro ⟨log', ops', hwhole, hacts'⟩
    have hlog : log' = log :=
      List.append_cancel_left (hacts'.handled.symm.trans hacts.handled)
    exact fits_of_whole hwhole (hlog ▸ hbuffered)
  · intro hfits
    exact ⟨log, ops, whole_of_fits hfits hbuffered, hacts⟩

def keystroke (v : UInt8) : List UInt8 := [v, v + 128]

/-- `a` pressed 256 times, then `exit` and Enter. -/
def overlong : List UInt8 :=
  (List.replicate 256 (keystroke 30)).flatten ++ [18, 45, 23, 20, 28].flatMap keystroke

theorem typed_overlong :
    Ear.polling.typed overlong = List.replicate 256 'a'.toUInt8 ++ (exitCommand ++ [0]) := by
  rw [overlong]
  induction 256 with
  | zero => decide
  | succ n ih =>
      rw [List.replicate_succ, List.flatten_cons, List.replicate_succ, List.cons_append, ← ih]
      rfl

/-- The shell exits in the middle of a line. -/
theorem promptLoop_exits_within_line :
    let s : Machine := { Machine.reset with samples := fun _ => overlong }
    ∃ s', promptLoop.Stops s .halted s' ∧
      s'.handled = [.command (List.replicate 256 'a'.toUInt8), .command exitCommand] ∧
      ¬ s.HandlesLines s' .halted := by
  intro s
  obtain ⟨long, hlong⟩ : ∃ long, List.replicate 256 'a'.toUInt8 = long := ⟨_, rfl⟩
  have hnul : 0 ∉ long := by
    rw [← hlong]
    decide
  have hlen : long.length = 256 := by rw [← hlong, List.length_replicate]
  have htyped : s.typed = long ++ (exitCommand ++ [0]) := by
    rw [← hlong]
    exact typed_overlong
  have hfill := readLine_fills hnul (exitCommand ++ [0])
  rw [hlen, ← htyped] at hfill
  obtain ⟨s', log, ops, why, hstop, hacts, hbuffered⟩ := promptLoop_session s
  obtain ⟨log', ops', rfl, -, hmore⟩ :=
    hbuffered.of_run hfill (long_ne (by rw [hlen]; decide)) (long_ne (by rw [hlen]; decide))
  have htail : readLine 256 (exitCommand ++ [0]) = some (exitCommand, []) := by decide
  obtain ⟨rfl, rfl, -⟩ := hmore.of_exit htail
  have hhandled : s'.handled = [.command long, .command exitCommand] := hacts.handled
  rw [hlong]
  refine ⟨s', hstop, hhandled, ?_⟩
  rintro ⟨log, ops, hwhole, hacts'⟩
  have hcut : cutLine s.typed = some (long ++ exitCommand, []) := by
    rw [htyped, ← List.append_assoc]
    exact cutLine_append (by simpa [hnul] using (by decide : 0 ∉ exitCommand)) []
  have hlonger : (long ++ exitCommand).length = 260 := by
    rw [List.length_append, hlen]
    rfl
  obtain ⟨_, _, rfl, -⟩ :=
    hwhole.of_run hcut (long_ne (by rw [hlonger]; decide)) (long_ne (by rw [hlonger]; decide))
  have hsame : long = long ++ exitCommand := by
    have hlog := hacts'.handled
    rw [hhandled] at hlog
    exact Handled.command.inj (List.cons.inj hlog).1
  exact absurd (List.self_eq_append_right.mp hsame) (by decide)

end BenchOS
