import BenchOS.Printf

/-!
Where `printf` stops reading its format. The loop moves the format pointer in two
places and looks for the terminator in one, so a `%` without a partner takes the
terminator for it: the NUL is sent to the console and the loop goes on behind it.
-/
namespace BenchOS

/-- The bytes that are `printf`'s to read: its format with the terminator, the strings it
is given with theirs, its buffer and the literal it prints a `%` with. -/
def MayRead (fmt : Pointer) (n : Nat) (args : List VaArg) (vals : List FmtArg) (p : Pointer) :
    Prop :=
  (∃ i, i ≤ n ∧ p = fmt.add i) ∨
    (∃ q t i, (VaArg.string q, FmtArg.text t) ∈ args.zip vals ∧ i ≤ t.length ∧ p = q.add i) ∨
    (∃ i, i ≤ 16 ∧ p = .loc (numHex.add i)) ∨ p = literal "%"

theorem permits_mayRead (fmt : Pointer) (n : Nat) (args : List VaArg) (vals : List FmtArg) :
    Permits (MayRead fmt n args vals) fmt n args vals where
  format := fun i hi => .inl ⟨i, hi, rfl⟩
  texts := fun q t i hmem hi => .inr (.inl ⟨q, t, i, hmem, hi, rfl⟩)
  buffer := fun i hi => .inr (.inr (.inl ⟨i, hi, rfl⟩))
  sign := .inr (.inr (.inr rfl))

theorem argTexts_noNul {m : Mem Object} {args : List VaArg} {vals : List FmtArg}
    (h : List.Forall₂ (ArgHolds m) args vals) : ∀ t, .text t ∈ vals → 0 ∉ t := by
  induction h with
  | nil => simp
  | @cons arg val args vals hav _ ih =>
      intro t ht
      cases ht with
      | head =>
          cases arg with
          | string p =>
              have hp : Holds m p t := hav
              exact ((cstring_iff _ _ _).mp hp.1).1
          | number n => exact hav.elim
      | tail _ ht => exact ih t ht

/-- What has been sent to the screen stays sent. -/
def ScreenGrows (s s' : Machine) : Prop := s.screen <+: s'.screen

instance : Std.Refl ScreenGrows := ⟨fun s => List.prefix_refl s.screen⟩

instance : IsTrans Machine ScreenGrows := ⟨fun _ _ _ h k => List.IsPrefix.trans h k⟩

section Screen
open Prog

theorem load_keeps (p : Pointer) : Keeps ScreenGrows (load p) := by
  intro n s o h
  rw [load] at h
  split at h <;> cases h <;> exact List.prefix_refl _

theorem modify_keeps {f : Machine → Machine} (h : ∀ s, (f s).screen = s.screen) :
    Keeps ScreenGrows (Prog.modify f : Kernel Unit) :=
  keeps_modify fun s => by rw [ScreenGrows, h s]

theorem ssfnPutc_keeps (c : UInt8) : Keeps ScreenGrows (ssfnPutc c) :=
  keeps_modify fun s => List.prefix_append s.screen _

theorem consolePutCharacter_keeps (p : Pointer) (fg : UInt32) :
    Keeps ScreenGrows (consolePutCharacter p fg) :=
  .bind (modify_keeps fun _ => rfl) fun _ => .bind (load_keeps p) fun c => ssfnPutc_keeps c

theorem consolePutString_keeps (p : Pointer) (fg : UInt32) :
    Keeps ScreenGrows (consolePutString p fg) := by
  refine .bind (modify_keeps fun _ => rfl) fun _ => .loop (fun p => ?_) p
  refine .bind (load_keeps p) fun c => ?_
  split
  · exact .bind (load_keeps p) fun c => .bind (ssfnPutc_keeps c) fun _ => keeps_pure _
  · exact keeps_pure _

theorem log2_keeps (n : UInt64) : Keeps ScreenGrows (log2 n) := by
  refine .loop (fun b => ?_) _
  rw [log2Turn]
  split <;> exact keeps_pure _

theorem writeDigits_keeps (num : UInt64) (result : Location) :
    Keeps ScreenGrows (writeDigits num result) := by
  refine .bind (log2_keeps num) fun bits => .bind (.loop (fun b => ?_) _) fun _ =>
    modify_keeps fun _ => rfl
  rw [hexDigitTurn]
  split
  · exact .bind (modify_keeps fun _ => rfl) fun _ => keeps_pure _
  · exact keeps_pure _

theorem toHexString_keeps (num : UInt64) (result : Location) :
    Keeps ScreenGrows (toHexString num result) := by
  rw [toHexString]
  split
  · exact .bind (modify_keeps fun _ => rfl) fun _ => .bind (modify_keeps fun _ => rfl) fun _ =>
      writeDigits_keeps num _
  · exact writeDigits_keeps num result

theorem vaArgString_keeps (args : List VaArg) : Keeps ScreenGrows (vaArgString args) := by
  rw [vaArgString.eq_def]
  split
  · exact keeps_pure _
  · exact keeps_stop _

theorem vaArgNumber_keeps (args : List VaArg) : Keeps ScreenGrows (vaArgNumber args) := by
  rw [vaArgNumber.eq_def]
  split
  · exact keeps_pure _
  · exact keeps_stop _

theorem printfDirective_keeps (fmt : Pointer) (args : List VaArg) (fg : UInt32) :
    Keeps ScreenGrows (printfDirective fmt args fg) := by
  refine .bind (load_keeps fmt) fun c => ?_
  split
  · exact .bind (vaArgString_keeps args) fun r => .bind (consolePutString_keeps r.1 fg) fun _ =>
      keeps_pure _
  · split
    · exact .bind (vaArgNumber_keeps args) fun r => .bind (toHexString_keeps r.1 numHex) fun _ =>
        .bind (consolePutString_keeps _ fg) fun _ => keeps_pure _
    · exact .bind (consolePutCharacter_keeps _ fg) fun _ =>
        .bind (consolePutCharacter_keeps fmt fg) fun _ => keeps_pure _

theorem printf_keeps (fmt : Pointer) (args : List VaArg) :
    Keeps ScreenGrows (printf fmt args) := by
  refine .loop (fun b => ?_) _
  obtain ⟨fmt, args⟩ := b
  refine .bind (load_keeps fmt) fun c => ?_
  split
  · refine .bind keeps_get fun s => .bind (load_keeps fmt) fun c => ?_
    split
    · exact printfDirective_keeps _ args _
    · exact .bind (consolePutCharacter_keeps fmt _) fun _ => keeps_pure _
  · exact keeps_pure _

end Screen

theorem read_percent (m : Mem Object) : m.read (literal "%") = some percent := rfl

/-- A `%` with no partner is printed with the terminator, and the loop goes on after it. -/
theorem unpaired_turn {s : Machine} {fmt : Pointer} (args : List VaArg)
    (h : CString s.mem fmt [percent]) :
    ∃ s', (printfTurn (fmt, args)).Returns s (.again (fmt.add 2, args)) s' ∧
      s'.screen = s.screen ++ [⟨percent, s.globalFg⟩, ⟨0, s.globalFg⟩] := by
  obtain ⟨hread, -, hend⟩ := h
  have hnul : s.mem.read (fmt.add 1) = some 0 := hend
  let s' : Machine :=
    { s with
      ssfnDst := { s.ssfnDst with fg := s.globalFg }
      screen := s.screen ++ [⟨percent, s.globalFg⟩, ⟨0, s.globalFg⟩]
      bus := s.bus ++ [.read fmt, .read fmt, .read (fmt.add 1), .read (literal "%"),
        .read (fmt.add 1)] }
  have hpercent : percent = '%'.toUInt8 := rfl
  have hnonzero : '%'.toUInt8 ≠ 0 := by decide
  have hs : ¬ (0 : UInt8) = 's'.toUInt8 := by decide
  have hx : ¬ (0 : UInt8) = 'x'.toUInt8 := by decide
  refine ⟨s', .of_forall fun _ => ?_, rfl⟩
  simp [printfTurn, Over.printfTurn, Over.printfDirective, load, Over.consolePutCharacter, setFg,
    ssfnPutc, hread, hnul, read_percent, hpercent, hnonzero, hs, hx, s']

/-- With the arguments its directives take, `printf` ends, reads nothing beyond the
terminator of its format and sends no NUL exactly when every `%` has a partner. -/
theorem printf_contained_iff {s : Machine} {fmt : Pointer} {f : List UInt8}
    {args : List VaArg} {vals rest : List FmtArg} {out : List UInt8} (hf : Holds s.mem fmt f)
    (ha : List.Forall₂ (ArgHolds s.mem) args vals)
    (hr : render (pairs f) vals = some (out, rest)) :
    (∃ left s' t new, (printf fmt args).Returns s left s' ∧ s'.bus = s.bus ++ t ∧
        ReadsOnly (MayRead fmt f.length args vals) t ∧
        s'.screen = s.screen ++ new ∧ ∀ g ∈ new, g.char ≠ 0) ↔
      directives f ≠ none := by
  constructor
  · rintro ⟨left, s', t, new, hprintf, -, -, hnew, hnonul⟩ hnone
    obtain ⟨g, hg, hread⟩ := directives_none hnone
    rw [hg] at hf
    obtain ⟨s₁, hreach, hp, hend, -⟩ := printf_reaches hread hf permits_true ha hr
    obtain ⟨s₂, hturn, hscreen⟩ := unpaired_turn (args.drop (arity (pairs f))) hend.1
    have hrest := Prog.Ends.of_loop_again hturn ((hreach.ends_iff _).mp hprintf)
    -- Whatever the rest of the run does, the NUL it has sent stays on the screen.
    obtain ⟨N, hN⟩ := hrest
    obtain ⟨more, hmore⟩ : s₂.screen <+: s'.screen :=
      printf_keeps _ _ N s₂ _ (hN N (Nat.le_refl N))
    rw [hscreen, hp.prints.screen_eq, hnew, List.append_assoc, List.append_assoc,
      List.append_cancel_left_eq] at hmore
    exact hnonul ⟨0, s₁.globalFg⟩ (hmore ▸ by simp) rfl
  · intro hsome
    obtain ⟨ds, hds⟩ := Option.ne_none_iff_exists'.mp hsome
    rw [pairs_of_directives hds] at hr
    obtain ⟨s', hprintf, hp⟩ := printf_reads hds hf (permits_mayRead _ _ _ _) ha hr
    obtain ⟨t, ht, hreads⟩ := hp.reads
    have hno : 0 ∉ out :=
      render_noNul hds ((cstring_iff _ _ _).mp hf.1).1 (argTexts_noNul ha) hr
    refine ⟨_, s', t, _, hprintf, ht, hreads, hp.prints.screen_eq, ?_⟩
    intro g hg
    obtain ⟨c, hc, rfl⟩ := List.mem_map.mp hg
    exact fun hzero : c = 0 => hno (hzero ▸ hc)

theorem printf_contained_percent :
    ∃ left s' new, (printf (literal "100%%") []).Returns Machine.reset left s' ∧
      s'.screen = Machine.reset.screen ++ new ∧ ∀ g ∈ new, g.char ≠ 0 := by
  have hfmt : Holds Machine.reset.mem (literal "100%%") (bytes "100%%") :=
    holds_literal _ _ (by decide)
  have hrender : render (pairs (bytes "100%%")) [] = some (bytes "100%%", []) := rfl
  have hpaired : directives (bytes "100%%") ≠ none := by decide
  obtain ⟨left, s', t, new, hprintf, -, -, hnew, hno⟩ :=
    (printf_contained_iff hfmt .nil hrender).mpr hpaired
  exact ⟨left, s', new, hprintf, hnew, hno⟩

theorem printf_runs_past_percent :
    ∃ s', (printf (literal "100%") []).Stops Machine.reset .undefined s' ∧
      (¬ ∃ left s'', (printf (literal "100%") []).Returns Machine.reset left s'') ∧
      ⟨0, 0⟩ ∈ s'.screen := by
  have hfmt : Holds Machine.reset.mem (literal "100%") (bytes "100" ++ [percent]) :=
    holds_literal _ "100%" (by decide)
  have hplain : percent ∉ bytes "100" := by decide
  obtain ⟨s₁, hreach, hp, hend, -⟩ := printf_reaches (directives_plain hplain) hfmt
    permits_true .nil (render_plain (bytes "100") [])
  obtain ⟨s₂, hturn, hscreen⟩ := unpaired_turn (([] : List VaArg).drop _) hend.1
  have hbeyond : (printfTurn (((literal "100%").add 3).add 2, [])).Stops s₂ .undefined s₂ :=
    .of_forall fun _ => rfl
  have hstop : (printf (literal "100%") []).Stops Machine.reset .undefined s₂ :=
    (hreach.ends_iff _).mpr (Prog.loop_again hturn (Prog.loop_stop hbeyond))
  refine ⟨s₂, hstop, fun ⟨left, s'', h⟩ => ?_, ?_⟩
  · cases hstop.unique h
  · rw [hscreen, hp.prints.globalFg_eq]
    simp [Machine.reset]

end BenchOS
