import BenchOS.Format
import BenchOS.Printing

/-!
`printf` prints the directives of its format one by one, and from its arguments each
directive takes its own. What it reads on the way is kept for a predicate that the
caller chooses.
-/
namespace BenchOS

def ArgHolds (m : Mem Object) : VaArg → FmtArg → Prop
  | .string p, .text t => Holds m p t
  | .number n, .number k => n = k
  | _, .unread => True
  | _, _ => False

theorem ArgHolds.frame {s s' : Machine} {out : List Glyph} (h : Prints s s' out)
    {args : List VaArg} {vals : List FmtArg}
    (ha : List.Forall₂ (ArgHolds s.mem) args vals) :
    List.Forall₂ (ArgHolds s'.mem) args vals := by
  apply ha.imp
  intro arg val hav
  cases arg <;> cases val <;> first | trivial | exact h.holds hav

/-- `P` holds of every byte that `printf` may read: `n` bytes of the format and the one
after them, the strings among its arguments, its buffer and the literal it prints a `%`
with. -/
structure Permits (P : Pointer → Prop) (fmt : Pointer) (n : Nat) (args : List VaArg)
    (vals : List FmtArg) : Prop where
  format : ∀ i, i ≤ n → P (fmt.add i)
  texts : ∀ p t i, (VaArg.string p, FmtArg.text t) ∈ args.zip vals → i ≤ t.length → P (p.add i)
  buffer : ∀ i, i ≤ 16 → P (.loc (numHex.add i))
  sign : P (literal "%")

section Permits
variable {P : Pointer → Prop} {fmt : Pointer} {n : Nat} {args : List VaArg} {vals : List FmtArg}

theorem permits_true : Permits (fun _ => True) fmt n args vals :=
  ⟨fun _ _ => trivial, fun _ _ _ _ _ => trivial, fun _ _ => trivial, trivial⟩

theorem Permits.here (h : Permits P fmt n args vals) : P fmt := by
  simpa using h.format 0 (Nat.zero_le n)

theorem Permits.advance {k : Nat} (h : Permits P fmt (k + n) args vals) :
    Permits P (fmt.add k) n args vals where
  format := fun i hi => by simpa using h.format (k + i) (by omega)
  texts := h.texts
  buffer := h.buffer
  sign := h.sign

theorem Permits.rest {arg : VaArg} {val : FmtArg}
    (h : Permits P fmt n (arg :: args) (val :: vals)) : Permits P fmt n args vals where
  format := h.format
  texts := fun p t i hmem => h.texts p t i (List.mem_cons_of_mem _ hmem)
  buffer := h.buffer
  sign := h.sign

theorem printHex_prints (h : Permits P fmt n args vals) (k : UInt64) (fg : UInt32)
    (s : Machine) :
    ∃ s₁ s', (toHexString k numHex).Returns s () s₁ ∧
      (consolePutString (.loc numHex) fg).Returns s₁ () s' ∧
      PrintsFrom P s s' (glyphs fg (hexText k.toNat)) := by
  obtain ⟨t, ht, hwrite⟩ := toHexString_returns k numHex s
  let s₁ : Machine :=
    { s with
      mem := s.mem.blit numHex (hexText k.toNat ++ [0])
      bus := s.bus ++ t }
  have hle := hexText_length_le (UInt64.toNat_lt k)
  have hstored : PrintsFrom P s s₁ [] := by
    refine ⟨⟨s₁.mem, s.ssfnDst.fg, t, fun l hl => s.mem.blit_other numHex hl, by simp [s₁]⟩,
      t, rfl, ?_⟩
    intro p hp
    obtain ⟨i, c, -, hwrite⟩ := ht _ hp
    cases hwrite
  have htext : CString s₁.mem (.loc numHex) (hexText k.toNat) :=
    cstring_blit s.mem numHex _ (hexText_noNul _) (by omega)
  obtain ⟨s', hput, hp⟩ :=
    consolePutString_reads fg htext fun i hi => h.buffer i (by omega)
  exact ⟨s₁, s', hwrite, hput, hstored.trans hp⟩

end Permits

theorem forall₂_text {m : Mem Object} {args : List VaArg} {t : List UInt8}
    {vals : List FmtArg} (h : List.Forall₂ (ArgHolds m) args (.text t :: vals)) :
    ∃ p args', args = .string p :: args' ∧ Holds m p t ∧
      List.Forall₂ (ArgHolds m) args' vals := by
  cases h with
  | @cons arg _ args' _ harg hargs =>
      cases arg with
      | string p => exact ⟨p, args', rfl, harg, hargs⟩
      | number n => exact harg.elim

theorem forall₂_number {m : Mem Object} {args : List VaArg} {n : UInt64}
    {vals : List FmtArg} (h : List.Forall₂ (ArgHolds m) args (.number n :: vals)) :
    ∃ args', args = .number n :: args' ∧ List.Forall₂ (ArgHolds m) args' vals := by
  cases h with
  | @cons arg _ args' _ harg hargs =>
      cases arg with
      | string p => exact harg.elim
      | number k => exact ⟨args', by rw [show k = n from harg], hargs⟩

/-- From `s` to `s'` a turn has printed `out`. The format goes on with the `n` bytes from
`fmt` on, and `args` are the arguments left for it. -/
structure Leaves (P : Pointer → Prop) (s s' : Machine) (out : List Glyph) (fmt : Pointer)
    (n : Nat) (args : List VaArg) (vals : List FmtArg) : Prop where
  prints : PrintsFrom P s s' out
  holds : List.Forall₂ (ArgHolds s'.mem) args vals
  permits : Permits P fmt n args vals

section Run
variable {P : Pointer → Prop} {s : Machine} {fmt : Pointer} {args : List VaArg}
  {vals rest : List FmtArg}

theorem Permits.reading {n : Nat} (hP : Permits P fmt n args vals) (s : Machine) :
    PrintsFrom P s (s.reading [fmt]) [] :=
  printsFrom_reading s (by simpa using hP.here)

theorem printfDirective_string {t : List UInt8} {n : Nat}
    (hread : s.mem.read fmt = some 's'.toUInt8)
    (hP : Permits P fmt (1 + n) args (.text t :: vals))
    (ha : List.Forall₂ (ArgHolds s.mem) args (.text t :: vals)) (fg : UInt32) :
    ∃ s', (printfDirective fmt args fg).Returns s (.again (fmt.add 1, args.drop 1)) s' ∧
      Leaves P s s' (glyphs fg t) (fmt.add 1) n (args.drop 1) vals := by
  have hlook := hP.reading s
  obtain ⟨p, args', rfl, hp, hargs⟩ := forall₂_text ha
  obtain ⟨s', hput, hs'⟩ := consolePutString_reads fg (hlook.prints.holds hp).1
    fun i hi => hP.texts p t i List.mem_cons_self hi
  have hprints := hlook.trans hs'
  refine ⟨s', (load_returns hread).bind ?_, hprints, ArgHolds.frame hprints.prints hargs,
    hP.rest.advance⟩
  exact (Prog.returns_pure _ _).bind (hput.bind (Prog.returns_pure _ _))

theorem printfDirective_hex {k : UInt64} {n : Nat}
    (hread : s.mem.read fmt = some 'x'.toUInt8)
    (hP : Permits P fmt (1 + n) args (.number k :: vals))
    (ha : List.Forall₂ (ArgHolds s.mem) args (.number k :: vals)) (fg : UInt32) :
    ∃ s', (printfDirective fmt args fg).Returns s (.again (fmt.add 1, args.drop 1)) s' ∧
      Leaves P s s' (glyphs fg (hexText k.toNat)) (fmt.add 1) n (args.drop 1) vals := by
  have hlook := hP.reading s
  obtain ⟨args', rfl, hargs⟩ := forall₂_number ha
  obtain ⟨s₁, s', hwrite, hput, hs'⟩ := printHex_prints hP k fg (s.reading [fmt])
  have hprints := hlook.trans hs'
  refine ⟨s', (load_returns hread).bind ?_, hprints, ArgHolds.frame hprints.prints hargs,
    hP.rest.advance⟩
  exact (Prog.returns_pure _ _).bind (hwrite.bind (hput.bind (Prog.returns_pure _ _)))

theorem printfDirective_pair {c : UInt8} {f : List UInt8} (hc : (Directive.pair c).Read)
    (hf : Holds s.mem fmt (c :: f)) (hP : Permits P fmt (1 + f.length) args vals)
    (ha : List.Forall₂ (ArgHolds s.mem) args vals) (fg : UInt32) :
    ∃ s', (printfDirective fmt args fg).Returns s (.again (fmt.add 1, args)) s' ∧
      Leaves P s s' (glyphs fg [percent, c]) (fmt.add 1) f.length args vals := by
  have hlook := hP.reading s
  obtain ⟨hs, hx⟩ : c ≠ 's'.toUInt8 ∧ c ≠ 'x'.toUInt8 := hc
  have hpercent : (s.reading [fmt]).mem.read (literal "%") = some percent := rfl
  obtain ⟨s₁, hput₁, hs₁⟩ := consolePutCharacter_prints fg hpercent hP.sign
  have hread : s₁.mem.read fmt = some c :=
    (hs₁.prints.holds (hlook.prints.holds hf)).1.1
  obtain ⟨s', hput, hs'⟩ := consolePutCharacter_prints fg hread hP.here
  have hprints := (hlook.trans hs₁).trans hs'
  refine ⟨s', (load_returns hf.1.1).bind ?_, hprints, ArgHolds.frame hprints.prints ha,
    hP.advance⟩
  rw [if_neg hs, if_neg hx]
  exact hput₁.bind (hput.bind (Prog.returns_pure _ _))

theorem printf_directive {d : Directive} {c : UInt8} {f out : List UInt8}
    (hd : d.Read) (hsrc : d.source = [percent, c]) (hf : Holds s.mem fmt (c :: f))
    (hP : Permits P fmt (1 + f.length) args vals)
    (ha : List.Forall₂ (ArgHolds s.mem) args vals)
    (hr : d.render vals = some (out, rest)) (fg : UInt32) :
    ∃ s', (printfDirective fmt args fg).Returns s
        (.again (fmt.add 1, args.drop d.arity)) s' ∧
      Leaves P s s' (glyphs fg out) (fmt.add 1) f.length (args.drop d.arity) rest := by
  cases d with
  | char c' => simp [Directive.source] at hsrc
  | string =>
      obtain rfl : 's'.toUInt8 = c := by simpa [Directive.source] using hsrc
      cases vals with
      | nil => cases hr
      | cons v vals => cases v with
        | number n => cases hr
        | unread => cases hr
        | text t =>
            cases hr
            exact printfDirective_string hf.1.1 hP ha fg
  | hex =>
      obtain rfl : 'x'.toUInt8 = c := by simpa [Directive.source] using hsrc
      cases vals with
      | nil => cases hr
      | cons v vals => cases v with
        | text t => cases hr
        | unread => cases hr
        | number n =>
            cases hr
            exact printfDirective_hex hf.1.1 hP ha fg
  | pair c' =>
      obtain rfl : c' = c := by simpa [Directive.source] using hsrc
      cases hr
      exact printfDirective_pair hd hf hP ha fg

/-- The first character of a turn is looked at twice before anything is printed. -/
theorem printfTurn_looks {c : UInt8} {f : List UInt8} (hf : Holds s.mem fmt (c :: f))
    {r : Turn (Pointer × List VaArg) (List VaArg)} {s' : Machine}
    (h : (if c = '%'.toUInt8 then printfDirective (fmt.add 1) args s.globalFg
      else do
        consolePutCharacter fmt s.globalFg
        pure (.again (fmt.add 1, args))).Returns ((s.reading [fmt]).reading [fmt]) r s') :
    (printfTurn (fmt, args)).Returns s r s' := by
  have hread : s.mem.read fmt = some c := hf.1.1
  refine (load_returns hread).bind ?_
  rw [if_pos hf.1.2.1]
  exact (Prog.returns_get _).bind ((load_returns (s := s.reading [fmt]) hread).bind h)

theorem printf_turn {d : Directive} {f out : List UInt8} (hd : d.Read)
    (hf : Holds s.mem fmt (d.source ++ f))
    (hP : Permits P fmt (d.source.length + f.length) args vals)
    (ha : List.Forall₂ (ArgHolds s.mem) args vals)
    (hr : d.render vals = some (out, rest)) :
    ∃ s', (printfTurn (fmt, args)).Returns s
        (.again (fmt.add d.source.length, args.drop d.arity)) s' ∧
      Holds s'.mem (fmt.add d.source.length) f ∧
      Leaves P s s' (glyphs s.globalFg out) (fmt.add d.source.length) f.length
        (args.drop d.arity) rest := by
  have hlook : PrintsFrom P s ((s.reading [fmt]).reading [fmt]) [] :=
    (hP.reading s).trans (hP.reading _)
  by_cases hchar : ∃ c, d = .char c
  · obtain ⟨c, rfl⟩ := hchar
    cases hr
    have hc : c ≠ '%'.toUInt8 := hd
    obtain ⟨s', hput, hs'⟩ := consolePutCharacter_prints s.globalFg
      (hlook.prints.holds hf).1.1 hP.here
    have hprints : PrintsFrom P s s' (glyphs s.globalFg [c]) := hlook.trans hs'
    refine ⟨s', printfTurn_looks hf ?_, hprints.prints.holds hf.tail, hprints,
      ArgHolds.frame hprints.prints ha, hP.advance⟩
    rw [if_neg hc]
    exact hput.bind (Prog.returns_pure _ _)
  · obtain ⟨c, hsrc⟩ : ∃ c, d.source = [percent, c] := by
      cases d with
      | char c => exact absurd ⟨c, rfl⟩ hchar
      | string => exact ⟨_, rfl⟩
      | hex => exact ⟨_, rfl⟩
      | pair c => exact ⟨c, rfl⟩
    have hlen : d.source.length = 2 := by rw [hsrc]; rfl
    rw [hlen] at hP ⊢
    rw [hsrc] at hf
    have hP₁ : Permits P (fmt.add 1) (1 + f.length) args vals := by
      rw [show 2 + f.length = 1 + (1 + f.length) by omega] at hP
      exact hP.advance
    obtain ⟨s', hturn, hs'⟩ := printf_directive hd hsrc
      (hlook.prints.holds hf.tail) hP₁ (ArgHolds.frame hlook.prints ha) hr s.globalFg
    rw [Ptr.add_add] at hturn hs'
    have hprints : PrintsFrom P s s' (glyphs s.globalFg out) := hlook.trans hs'.prints
    have hnext := hprints.prints.holds hf.tail.tail
    rw [Ptr.add_add] at hnext
    refine ⟨s', printfTurn_looks hf ?_, hnext, hprints, hs'.holds, hs'.permits⟩
    have hpercent : percent = '%'.toUInt8 := rfl
    rw [if_pos hpercent]
    exact hturn

/-- The loop prints the directives that a format begins with and comes to what follows. -/
theorem printf_reaches {ds : List Directive} {f g out : List UInt8}
    (hd : directives f = some ds) (hf : Holds s.mem fmt (f ++ g))
    (hP : Permits P fmt (f.length + g.length) args vals)
    (ha : List.Forall₂ (ArgHolds s.mem) args vals) (hr : render ds vals = some (out, rest)) :
    ∃ s', Prog.Reaches printfTurn (fmt, args) s (fmt.add f.length, args.drop (arity ds)) s' ∧
      PrintsFrom P s s' (glyphs s.globalFg out) ∧ Holds s'.mem (fmt.add f.length) g ∧
      Permits P (fmt.add f.length) g.length (args.drop (arity ds)) rest := by
  induction ds generalizing s fmt args vals f out with
  | nil =>
      cases hr
      obtain rfl := directives_nil hd
      refine ⟨s, ?_, ⟨Prints.refl s, [], by simp, by simp [ReadsOnly]⟩, by simpa using hf, ?_⟩
      · simpa [arity] using Prog.Reaches.refl (fmt, args) s
      · simpa [arity] using hP
  | cons d ds ih =>
      obtain ⟨hread, h, rfl, hg⟩ := directives_cons hd
      obtain ⟨a, mid, b, hra, hrb, rfl⟩ := render_cons hr
      rw [List.append_assoc] at hf
      rw [List.length_append, Nat.add_assoc, ← List.length_append] at hP
      obtain ⟨s₁, hturn, hf', hp, ha', hP'⟩ := printf_turn hread hf hP ha hra
      rw [List.length_append] at hP'
      obtain ⟨s', hreach, hp', hend, hrest⟩ := ih hg hf' hP' ha' hrb
      rw [hp.prints.globalFg_eq] at hp'
      have hplace : fmt.add (d.source ++ h).length = (fmt.add d.source.length).add h.length := by
        rw [List.length_append, Ptr.add_add]
      have hleft : args.drop (arity (d :: ds)) = (args.drop d.arity).drop (arity ds) := by
        simp [arity, List.drop_drop]
      rw [hplace, hleft]
      exact ⟨s', .turn hturn hreach, by simpa using hp.trans hp', hend, hrest⟩

theorem printf_reads {ds : List Directive} {f out : List UInt8} (hd : directives f = some ds)
    (hf : Holds s.mem fmt f) (hP : Permits P fmt f.length args vals)
    (ha : List.Forall₂ (ArgHolds s.mem) args vals) (hr : render ds vals = some (out, rest)) :
    ∃ s', (printf fmt args).Returns s (args.drop (arity ds)) s' ∧
      PrintsFrom P s s' (glyphs s.globalFg out) := by
  obtain ⟨s₁, hreach, hp, hend, hrest⟩ := printf_reaches (g := []) hd
    (by simpa using hf) (by simpa using hP) ha hr
  have hread : s₁.mem.read (fmt.add f.length) = some 0 := hend.1
  have hend : PrintsFrom P s₁ (s₁.reading [fmt.add f.length]) [] :=
    printsFrom_reading s₁ (by simpa using hrest.here)
  have hlast := hp.trans hend
  rw [List.append_nil] at hlast
  refine ⟨_, (hreach.ends_iff _).mpr (Prog.loop_leave ?_), hlast⟩
  exact (load_returns hread).bind (Prog.returns_pure _ _)

theorem printf_prints {ds : List Directive} {f out : List UInt8} (hd : directives f = some ds)
    (hf : Holds s.mem fmt f) (ha : List.Forall₂ (ArgHolds s.mem) args vals)
    (hr : render ds vals = some (out, rest)) :
    ∃ s', (printf fmt args).Returns s (args.drop (arity ds)) s' ∧
      Prints s s' (glyphs s.globalFg out) := by
  obtain ⟨s', hprintf, hp⟩ := printf_reads hd hf permits_true ha hr
  exact ⟨s', hprintf, hp.prints⟩

end Run

theorem argHolds_unread (m : Mem Object) (args : List VaArg) :
    List.Forall₂ (ArgHolds m) args (args.map fun _ => .unread) := by
  induction args with
  | nil => exact .nil
  | cons arg args ih => exact .cons (by cases arg <;> trivial) ih

theorem printf_renders {s : Machine} {fmt : Pointer} {vals rest : List FmtArg}
    {f out : List UInt8} (args : List VaArg) (h : Renders f vals out rest)
    (hf : Holds s.mem fmt f) (ha : List.Forall₂ (ArgHolds s.mem) args vals) :
    ∃ left s', (printf fmt args).Returns s left s' ∧ Prints s s' (glyphs s.globalFg out) := by
  obtain ⟨ds, hds, hr⟩ := h
  obtain ⟨s', hprintf, hp⟩ := printf_prints hds hf ha hr
  exact ⟨_, s', hprintf, hp⟩

theorem printf_literal (s : Machine) (text : String) (h : 0 ∉ bytes text)
    (hplain : percent ∉ bytes text) :
    ∃ left s', (printf (literal text) []).Returns s left s' ∧
      Prints s s' (glyphs s.globalFg (bytes text)) :=
  printf_renders [] (renders_plain hplain []) (holds_literal s.mem text h) .nil

/-- `printf` renders its format: in the colour of the kernel, with each argument in
the place of its directive and taken by it alone. Two formats print what their
concatenation prints, and a format without `%` what `consolePutString` prints. -/
theorem printf_faithful (s : Machine) :
    (∀ fmt f ds args vals out rest, Holds s.mem fmt f → directives f = some ds →
      List.Forall₂ (ArgHolds s.mem) args vals → render ds vals = some (out, rest) →
      ∃ s', (printf fmt args).Returns s (args.drop (arity ds)) s' ∧
        s'.screen = s.screen ++ glyphs s.globalFg out) ∧
    (∀ fmtF fmtG fmtFG f g ds es argsF argsG valsF valsG a b rest,
      Holds s.mem fmtF f → Holds s.mem fmtG g → Holds s.mem fmtFG (f ++ g) →
      directives f = some ds → directives g = some es →
      List.Forall₂ (ArgHolds s.mem) argsF valsF → List.Forall₂ (ArgHolds s.mem) argsG valsG →
      render ds valsF = some (a, []) → render es valsG = some (b, rest) →
      ∃ out sFG sF sG leftFG leftF leftG,
        (printf fmtFG (argsF ++ argsG)).Returns s leftFG sFG ∧
        (printf fmtF argsF).Returns s leftF sF ∧ (printf fmtG argsG).Returns sF leftG sG ∧
        sFG.screen = s.screen ++ out ∧ sG.screen = s.screen ++ out) ∧
    (∀ fmt f args, Holds s.mem fmt f → percent ∉ f →
      ∃ s₁ s₂, (printf fmt args).Returns s args s₁ ∧
        (consolePutString fmt s.globalFg).Returns s () s₂ ∧ s₁.screen = s₂.screen) := by
  refine ⟨?_, ?_, ?_⟩
  · intro fmt f ds args vals out rest hf hd ha hr
    obtain ⟨s', hprintf, hp⟩ := printf_prints hd hf ha hr
    exact ⟨s', hprintf, hp.screen_eq⟩
  · intro fmtF fmtG fmtFG f g ds es argsF argsG valsF valsG a b rest
      hF hG hFG hds hes haF haG hrF hrG
    obtain ⟨sFG, hprintFG, hpFG⟩ := printf_prints (directives_append hds hes) hFG
      (List.rel_append haF haG) (render_append hrF hrG)
    obtain ⟨sF, hprintF, hpF⟩ := printf_prints hds hF haF hrF
    obtain ⟨sG, hprintG, hpG⟩ := printf_prints hes (hpF.holds hG) (ArgHolds.frame hpF haG) hrG
    rw [hpF.globalFg_eq] at hpG
    refine ⟨_, sFG, sF, sG, _, _, _, hprintFG, hprintF, hprintG, hpFG.screen_eq, ?_⟩
    rw [glyphs_append]
    exact (hpF.trans hpG).screen_eq
  · intro fmt f args hf hplain
    obtain ⟨s₁, hprintf, hp₁⟩ := printf_prints (directives_plain hplain) hf
      (argHolds_unread s.mem args) (render_plain f _)
    obtain ⟨s₂, hput, hp₂⟩ := consolePutString_prints s.globalFg hf.1
    rw [arity_plain, List.drop_zero] at hprintf
    exact ⟨s₁, s₂, hprintf, hput, hp₁.screen_eq.trans hp₂.screen_eq.symm⟩

theorem printf_faithful_status :
    ∃ s', (printf (literal "%s%%\n") [.string (literal "BAD")]).Returns Machine.reset [] s' ∧
      s'.screen = Machine.reset.screen ++ glyphs Machine.reset.globalFg (bytes "BAD%%\n") := by
  have hfmt : Holds Machine.reset.mem (literal "%s%%\n") (bytes "%s%%\n") :=
    holds_literal _ _ (by decide)
  have harg : Holds Machine.reset.mem (literal "BAD") (bytes "BAD") :=
    holds_literal _ _ (by decide)
  have hargs : List.Forall₂ (ArgHolds Machine.reset.mem) [.string (literal "BAD")]
      [.text (bytes "BAD")] := .cons harg .nil
  have hread : directives (bytes "%s%%\n") =
      some [.string, .pair percent, .char '\n'.toUInt8] := by decide
  have hrender : render [.string, .pair percent, .char '\n'.toUInt8] [.text (bytes "BAD")] =
      some (bytes "BAD%%\n", []) := rfl
  exact (printf_faithful Machine.reset).1 _ _ _ _ _ _ _ hfmt hread hargs hrender

end BenchOS
