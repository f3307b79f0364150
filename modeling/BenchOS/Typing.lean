import BenchOS.Boot
import BenchOS.Hearing

/-!
Typing at the kernel. Keys that are struck one after another deliver their text, so lines
that are typed are the lines that run. And typing goes on only forwards: with more samples
the screen and the log of a run grow, and nothing that was there before changes.
-/
namespace BenchOS

/-- The samples show the keys of a text struck one after another: each key is seen down once
or more, and after that no key is seen at least once. -/
inductive Struck : List UInt8 → List UInt8 → Prop where
  | idle {quiet : List UInt8} (h : ∀ u ∈ quiet, 59 ≤ u) : Struck [] quiet
  | key {quiet held text rest : List UInt8} {v w : UInt8} (before : ∀ u ∈ quiet, 59 ≤ u)
      (down : v < 59) (still : ∀ u ∈ held, u = v) (up : 59 ≤ w) (more : Struck text rest) :
      Struck (keyChar v :: text) (quiet ++ v :: (held ++ w :: rest))

/-- Struck keys deliver their text, and none is left held. -/
theorem Struck.delivers {text samples : List UInt8} (h : Struck text samples) :
    Ear.polling.typed samples = text ∧ Ear.polling.pending samples = [] := by
  induction h with
  | idle h =>
      have htyped := codes_quiet h []
      have hpending := pending_quiet h []
      rw [List.append_nil] at htyped hpending
      rw [Ear.typed_eq, htyped, hpending]
      exact ⟨rfl, rfl⟩
  | @key quiet held text rest v w before down still up more ih =>
      have hw : w ≠ v := by
        rintro rfl
        exact absurd up (UInt8.not_le.mpr down)
      have hup : ¬ w < 59 := UInt8.not_lt.mpr up
      obtain ⟨htyped, hpending⟩ := ih
      rw [Ear.typed_eq] at htyped ⊢
      rw [codes_quiet before, Ear.codes, if_pos down, codes_held still, Ear.codes, if_neg hw,
        pending_quiet before, Ear.pending, if_pos down, pending_held still, Ear.pending,
        if_neg hw, List.map_cons, htyped]
      exact ⟨rfl, hpending⟩

/-- The key that types `c`, for NUL the one of Enter. -/
def keyCode (c : UInt8) : UInt8 := if c = 0 then 28 else UInt8.ofNat (lowercase.idxOf c)

def keystrokes (text : List UInt8) : List UInt8 := text.flatMap fun c => keystroke (keyCode c)

theorem keyChar_keyCode {c : UInt8} (h : c ∈ lowercase) :
    keyCode c < 59 ∧ keyChar (keyCode c) = c := by
  have all : lowercase.all fun c => keyCode c < 59 ∧ keyChar (keyCode c) = c := by decide
  simpa using List.all_eq_true.mp all c h

theorem struck_keystrokes {text : List UInt8} (h : ∀ c ∈ text, c ∈ lowercase) :
    Struck text (keystrokes text) := by
  induction text with
  | nil => exact .idle (by simp [keystrokes])
  | cons c text ih =>
      obtain ⟨hlt, hchar⟩ := keyChar_keyCode (h c (by simp))
      have hup : 59 ≤ keyCode c + 128 := by
        have hnat : (keyCode c).toNat < 59 := UInt8.lt_iff_toNat_lt.mp hlt
        rw [UInt8.le_iff_toNat_le, UInt8.toNat_add]
        simp only [UInt8.reduceToNat]
        omega
      have hrest := ih fun c' hc' => h c' (by simp [hc'])
      have hkey := @Struck.key [] [] _ _ _ _ (by simp) hlt (by simp) hup hrest
      rwa [hchar] at hkey

section Lines
variable {fg : UInt32} {held : List UInt8} {junk : Nat → UInt64}

/-- A line that the shell answers and goes on: it fits in the buffer with its NUL and is
neither `exit` nor `dumppage`. -/
structure Answered (line : List UInt8) : Prop where
  noNul : 0 ∉ line
  short : line.length ≤ 255
  notExit : line ≠ exitCommand
  notDump : line ≠ dumppageCommand

instance (line : List UInt8) : Decidable (Answered line) :=
  decidable_of_iff
    (0 ∉ line ∧ line.length ≤ 255 ∧ line ≠ exitCommand ∧ line ≠ dumppageCommand)
    ⟨fun ⟨noNul, short, notExit, notDump⟩ => ⟨noNul, short, notExit, notDump⟩,
      fun h => ⟨h.noNul, h.short, h.notExit, h.notDump⟩⟩

def typedLines (lines : List (List UInt8)) : List UInt8 := lines.flatMap fun line => line ++ [0]

def answers (fg : UInt32) (lines : List (List UInt8)) : List Glyph :=
  lines.flatMap fun line => prompted fg line ++ response fg line

def answerOps (fg : UInt32) (lines : List (List UInt8)) : List ScreenOp :=
  lines.flatMap fun line => puts (prompted fg line) ++ responseOps fg line

theorem answers_cons (line : List UInt8) (lines : List (List UInt8)) :
    answers fg (line :: lines) = prompted fg line ++ response fg line ++ answers fg lines :=
  List.flatMap_cons

theorem answerOps_cons (line : List UInt8) (lines : List (List UInt8)) :
    answerOps fg (line :: lines) =
      puts (prompted fg line) ++ responseOps fg line ++ answerOps fg lines :=
  List.flatMap_cons

theorem answerOps_append (a b : List (List UInt8)) :
    answerOps fg (a ++ b) = answerOps fg a ++ answerOps fg b :=
  List.flatMap_append

@[simp] theorem sent_answerOps (lines : List (List UInt8)) :
    sent (answerOps fg lines) = answers fg lines := by
  rw [sent, answerOps, answers, List.filterMap_flatMap]
  congr 1
  funext line
  rw [← sent, sent_append, sent_puts, sent_responseOps]

theorem shellTranscript_lines {lines : List (List UInt8)} (h : ∀ line ∈ lines, Answered line) :
    shellTranscript fg [] junk (typedLines lines) =
      ⟨lines.map .command, answerOps fg lines ++ puts (glyphs fg (bytes "> ")), .waiting⟩ := by
  induction lines with
  | nil =>
      have hread : readLine 256 [] = none := rfl
      exact (shellTranscript_waits hread).trans (by simp [answerOps])
  | cons line lines ih =>
      have hline := h line (by simp)
      have hcut := cutLine_append hline.noNul (typedLines lines)
      have hread := readLine_of_cut hcut (Nat.lt_succ_of_le hline.short)
      have htyped : typedLines (line :: lines) = line ++ 0 :: typedLines lines := by
        simp [typedLines]
      rw [htyped, shellTranscript_runs hread hline.notExit hline.notDump,
        ih fun line' hline' => h line' (by simp [hline'])]
      simp [Transcript.after, answerOps_cons]

end Lines

/-- `help`, a mistake and an empty line. -/
def threeLines : List (List UInt8) := [helpCommand, bytes "hepl", []]

section Growth
variable {held held' x : List UInt8}

/-- With more samples more is delivered; the key that was held comes next. -/
theorem typed_grows (e : Ear) (l more : List UInt8) :
    ∃ x, e.typed (l ++ more) = e.typed l ++ x ∧
      e.pending l <+: x ++ e.pending (l ++ more) := by
  induction l generalizing e with
  | nil =>
      cases e with
      | polling => exact ⟨_, rfl, List.nil_prefix⟩
      | releasing v =>
          refine ⟨_, rfl, ?_⟩
          rw [List.nil_append, Ear.pending]
          split
          · exact List.nil_prefix
          · rename_i hv
            induction more with
            | nil =>
                rw [Ear.typed, Ear.pending, if_neg hv]
                exact List.prefix_refl _
            | cons w more ih =>
                by_cases hw : w = v
                · rw [Ear.typed, Ear.pending, if_pos hw, if_pos hw]
                  exact ih
                · rw [Ear.typed, if_neg hw]
                  exact ⟨_, rfl⟩
  | cons w l ih =>
      cases e with
      | polling =>
          by_cases hw : w < 59
          · simpa only [List.cons_append, Ear.typed, Ear.pending, if_pos hw] using ih _
          · simpa only [List.cons_append, Ear.typed, Ear.pending, if_neg hw] using ih _
      | releasing v =>
          by_cases hw : w = v
          · simpa only [List.cons_append, Ear.typed, Ear.pending, if_pos hw] using ih _
          · obtain ⟨x, htyped, hpending⟩ := ih .polling
            refine ⟨x, ?_, ?_⟩
            · rw [List.cons_append, Ear.typed, Ear.typed, if_neg hw, if_neg hw, htyped]
              rfl
            · rw [List.cons_append, Ear.pending, Ear.pending, if_neg hw, if_neg hw]
              exact hpending

/-- At most one key is held, and it is none that types a NUL. -/
theorem pending_one (e : Ear) (l : List UInt8) :
    e.pending l = [] ∨ ∃ c, c ≠ 0 ∧ e.pending l = [c] := by
  induction l generalizing e with
  | nil =>
      cases e with
      | polling => exact .inl rfl
      | releasing v =>
          rw [Ear.pending]
          split
          · exact .inl rfl
          · rename_i hv
            exact .inr ⟨_, hv, rfl⟩
  | cons w l ih =>
      cases e with
      | polling =>
          rw [Ear.pending]
          split <;> exact ih _
      | releasing v =>
          rw [Ear.pending]
          split <;> exact ih _

/-- A line that was complete stays as it is. -/
theorem readLine_append {n : Nat} {d text rest : List UInt8}
    (h : readLine n d = some (text, rest)) (x : List UInt8) :
    readLine n (d ++ x) = some (text, rest ++ x) := by
  induction n generalizing d text with
  | zero =>
      cases h
      rfl
  | succ n ih =>
      cases d with
      | nil => cases h
      | cons c d =>
          rw [List.cons_append, readLine]
          obtain ⟨rfl, rfl, rfl⟩ | ⟨hc, tail, rfl, htail⟩ := readLine_step h
          · rw [if_pos rfl]
          · rw [if_neg hc, ih htail]
            rfl

/-- A line that was unfinished goes on with the key that was held. -/
theorem unfinished_prefix {n : Nat} {d text rest : List UInt8} (h : readLine n d = none)
    (hheld : held = [] ∨ ∃ c, c ≠ 0 ∧ held = [c]) (hx : held <+: x ++ held')
    (hmore : readLine n (d ++ x) = some (text, rest)) : d ++ held <+: text := by
  induction n generalizing d text with
  | zero => cases h
  | succ n ih =>
      cases d with
      | nil =>
          rw [List.nil_append] at hmore ⊢
          obtain rfl | ⟨c, hc, rfl⟩ := hheld
          · exact List.nil_prefix
          · cases x with
            | nil => cases hmore
            | cons a x =>
                obtain ⟨rfl, -⟩ := List.cons_prefix_cons.mp hx
                obtain ⟨hzero, -⟩ | ⟨-, tail, rfl, -⟩ := readLine_step hmore
                · exact absurd hzero hc
                · exact ⟨tail, rfl⟩
      | cons a d =>
          rw [readLine] at h
          split at h
          · cases h
          · rename_i ha
            obtain ⟨hzero, -⟩ | ⟨-, tail, rfl, htail⟩ := readLine_step hmore
            · exact absurd hzero ha
            · exact List.cons_prefix_cons.mpr
                ⟨rfl, ih (Option.map_eq_none_iff.mp h) htail⟩

theorem glyphs_grow (fg : UInt32) {a b : List UInt8} (h : a <+: b) :
    glyphs fg a <+: glyphs fg b :=
  h.map _

theorem puts_grow {a b : List Glyph} (h : a <+: b) : puts a <+: puts b := h.map _

/-- `t'` has all that `t` has, and goes on. -/
structure Transcript.GrowsTo (t t' : Transcript) : Prop where
  log : t.log <+: t'.log
  ops : t.ops <+: t'.ops

theorem Transcript.GrowsTo.refl (t : Transcript) : t.GrowsTo t :=
  ⟨List.prefix_refl _, List.prefix_refl _⟩

theorem Transcript.GrowsTo.out {t t' : Transcript} (h : t.GrowsTo t') : t.out <+: t'.out :=
  h.ops.filterMap _

theorem Transcript.GrowsTo.after {t t' : Transcript} (h : t.GrowsTo t') (log : List Handled)
    (ops : List ScreenOp) : (t.after log ops).GrowsTo (t'.after log ops) where
  log := (List.prefix_append_right_inj log).mpr h.log
  ops := (List.prefix_append_right_inj ops).mpr h.ops

variable {fg : UInt32} {junk : Nat → UInt64}

/-- Whatever a line is, the shell has prompted for it. -/
theorem shellTranscript_prompted {d text rest : List UInt8}
    (h : readLine 256 d = some (text, rest)) :
    puts (prompted fg text) <+: (shellTranscript fg held junk d).ops := by
  by_cases isExit : text = exitCommand
  · subst isExit
    rw [shellTranscript_exits h, puts_append]
    exact List.prefix_append _ _
  by_cases isDump : text = dumppageCommand
  · subst isDump
    cases hnext : readLine 16 rest with
    | none =>
        rw [shellTranscript_asks h hnext, puts_append]
        exact List.prefix_append _ _
    | some read =>
        rw [shellTranscript_dumps h hnext, Transcript.after, puts_append, List.append_assoc]
        exact List.prefix_append _ _
  · rw [shellTranscript_runs h isExit isDump, Transcript.after, List.append_assoc]
    exact List.prefix_append _ _

theorem shellTranscript_grows (hheld : held = [] ∨ ∃ c, c ≠ 0 ∧ held = [c])
    (hx : held <+: x ++ held') (junk : Nat → UInt64) (d : List UInt8) :
    (shellTranscript fg held junk d).GrowsTo (shellTranscript fg held' junk (d ++ x)) := by
  have hlonger : ∀ d : List UInt8, d ++ held <+: d ++ x ++ held' := fun d => by
    rw [List.append_assoc]
    exact (List.prefix_append_right_inj d).mpr hx
  cases hline : readLine 256 d with
  | none =>
      rw [shellTranscript_waits hline]
      refine ⟨List.nil_prefix, ?_⟩
      cases hmore : readLine 256 (d ++ x) with
      | none =>
          rw [shellTranscript_waits hmore]
          refine puts_grow ?_
          exact (List.prefix_append_right_inj _).mpr (glyphs_grow _ (hlonger d))
      | some line =>
          have htext := unfinished_prefix hline hheld hx hmore
          refine List.IsPrefix.trans (puts_grow ?_) (shellTranscript_prompted hmore)
          rw [prompted, List.append_assoc]
          refine (List.prefix_append_right_inj _).mpr ?_
          exact (glyphs_grow _ htext).trans (List.prefix_append _ _)
  | some line =>
      obtain ⟨text, rest⟩ := line
      have hline' := readLine_append hline x
      by_cases isExit : text = exitCommand
      · subst isExit
        rw [shellTranscript_exits hline, shellTranscript_exits hline']
        exact .refl _
      by_cases isDump : text = dumppageCommand
      · subst isDump
        cases hnext : readLine 16 rest with
        | none =>
            rw [shellTranscript_asks hline hnext]
            cases hmore : readLine 16 (rest ++ x) with
            | none =>
                rw [shellTranscript_asks hline' hmore]
                refine ⟨List.prefix_refl _, puts_grow ?_⟩
                refine (List.prefix_append_right_inj _).mpr ?_
                exact (List.prefix_append_right_inj _).mpr (glyphs_grow _ (hlonger rest))
            | some read =>
                have hnumber := unfinished_prefix hnext hheld hx hmore
                rw [shellTranscript_dumps hline' hmore]
                refine ⟨⟨_, rfl⟩, .trans (puts_grow ?_) (List.prefix_append _ _)⟩
                simp only [dumped, asked, List.append_assoc]
                refine (List.prefix_append_right_inj _).mpr ?_
                refine (List.prefix_append_right_inj _).mpr ?_
                exact (glyphs_grow _ hnumber).trans (List.prefix_append _ _)
        | some read =>
            obtain ⟨number, rest'⟩ := read
            rw [shellTranscript_dumps hline hnext,
              shellTranscript_dumps hline' (readLine_append hnext x)]
            exact (shellTranscript_grows hheld hx _ rest').after _ _
      · rw [shellTranscript_runs hline isExit isDump,
          shellTranscript_runs hline' isExit isDump]
        exact (shellTranscript_grows hheld hx junk rest).after _ _
termination_by d.length
decreasing_by
  · exact (readLine_rest_lt (by omega) hnext).trans (readLine_rest_lt (by omega) hline)
  · exact readLine_rest_lt (by omega) hline

theorem kernelTranscript_grows (k : MemmapConstants) (boot : BootResponses)
    (hheld : held = [] ∨ ∃ c, c ≠ 0 ∧ held = [c]) (hx : held <+: x ++ held')
    (junk : Nat → UInt64) (d : List UInt8) :
    (kernelTranscript k boot held junk d).GrowsTo
      (kernelTranscript k boot held' junk (d ++ x)) := by
  unfold kernelTranscript
  split
  · split
    · exact .refl _
    · split
      · exact .refl _
      · exact (shellTranscript_grows hheld hx junk d).after _ _
  · exact .refl _

theorem hearing_grows (k : MemmapConstants) (boot : BootResponses) (s : Machine)
    (more : List UInt8) :
    (kernelTranscript k boot s.pending s.junk s.typed).GrowsTo
      (kernelTranscript k boot (s.hearing more).pending (s.hearing more).junk
        (s.hearing more).typed) := by
  have hsamples : (s.hearing more).samples 0x60 = s.samples 0x60 ++ more := by
    simp [Machine.hearing]
  obtain ⟨x, htyped, hpending⟩ := typed_grows .polling (s.samples 0x60) more
  rw [← hsamples] at htyped hpending
  have hmore : (s.hearing more).typed = s.typed ++ x := htyped
  rw [hmore]
  exact kernelTranscript_grows k boot (pending_one .polling _) hpending s.junk s.typed

end Growth

/-- Whatever is typed on, what a run has shown stays on its screen and the lines that it has
handled stay handled. A run that has halted is the same to the last byte, and what is typed
on is left unread. -/
theorem start_grows (k : MemmapConstants) (handlers : ExceptionHandlers) (boot : BootResponses)
    {s : Machine} (fresh : s.init = false) (more : List UInt8) :
    ∃ why s₁ why' s₂, (start k handlers boot).Stops s why s₁ ∧
      (start k handlers boot).Stops (s.hearing more) why' s₂ ∧
      s₁.screen <+: s₂.screen ∧ s₁.handled <+: s₂.handled ∧
      (why = .halted → why' = .halted ∧ s₂ = s₁.hearing more) := by
  obtain ⟨s₁, hstop₁, hscreen₁, hhandled₁⟩ := start_transcript k handlers boot fresh
  obtain ⟨s₂, hstop₂, hscreen₂, hhandled₂⟩ :=
    start_transcript k handlers boot (s := s.hearing more) fresh
  have hgrows := hearing_grows k boot s more
  refine ⟨_, s₁, _, s₂, hstop₁, hstop₂, ?_, ?_, fun hwhy => ?_⟩
  · rw [hscreen₁, hscreen₂]
    exact (List.prefix_append_right_inj _).mpr hgrows.out
  · rw [hhandled₁, hhandled₂]
    exact (List.prefix_append_right_inj _).mpr hgrows.log
  · rw [hwhy] at hstop₁
    obtain ⟨s', hstop, rfl⟩ := (start_unheard k handlers boot).stops rfl hstop₁ (by decide)
    obtain ⟨hwhy', hsame⟩ := Outcome.stopped.inj (hstop.unique hstop₂)
    exact ⟨hwhy'.symm, hsame.symm⟩

/-- `exit` and Enter. -/
def exitTyped : Machine :=
  { Machine.reset with samples := fun _ => [18, 146, 45, 173, 23, 151, 20, 148, 28, 156] }

theorem kernelTranscript_exit :
    (kernelTranscript limineConstants xgaBoot exitTyped.pending exitTyped.junk
      exitTyped.typed).why = .halted := by
  have hexit : readLine 256 exitTyped.typed = some (exitCommand, []) := by decide
  simp only [kernelTranscript, xgaBoot, shellTranscript_exits hexit, Transcript.after]

/-- What is typed behind `exit` stays unread. -/
theorem start_grows_exit :
    ∃ s₁, (start limineConstants linkedHandlers xgaBoot).Stops exitTyped .halted s₁ ∧
      (start limineConstants linkedHandlers xgaBoot).Stops (exitTyped.hearing [35, 163]) .halted
        (s₁.hearing [35, 163]) := by
  obtain ⟨why, s₁, why', s₂, hstop, hmore, -, -, hhalted⟩ :=
    start_grows limineConstants linkedHandlers xgaBoot (s := exitTyped) rfl [35, 163]
  obtain ⟨s', hexit, -⟩ :=
    start_transcript limineConstants linkedHandlers xgaBoot (s := exitTyped) rfl
  rw [kernelTranscript_exit] at hexit
  cases hstop.unique hexit
  obtain ⟨rfl, rfl⟩ := hhalted rfl
  exact ⟨s₁, hstop, hmore⟩

end BenchOS
