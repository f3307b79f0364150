import BenchOS.HexText

/-!
A structural reading of the format of `printf`: a list of directives, each with the
characters it prints and the arguments it takes.

The reading pairs every `%` with the character after it, from left to right. It
has no answer for a format whose last `%` is left without a partner.
-/
namespace BenchOS

def percent : UInt8 := '%'.toUInt8

inductive Directive where
  | char (c : UInt8)
  | string
  | hex
  | pair (c : UInt8)
  deriving DecidableEq

def directiveOf (c : UInt8) : Directive :=
  if c = 's'.toUInt8 then .string else if c = 'x'.toUInt8 then .hex else .pair c

def directives : List UInt8 → Option (List Directive)
  | [] => some []
  | c :: f =>
    if c = percent then
      match f with
      | [] => none
      | d :: f => (directives f).map (directiveOf d :: ·)
    else
      (directives f).map (.char c :: ·)

/-- The directives that `printf` meets in a format, whether or not a last `%` is left
without a partner. -/
def pairs : List UInt8 → List Directive
  | [] => []
  | c :: f =>
    if c = percent then
      match f with
      | [] => []
      | d :: f => directiveOf d :: pairs f
    else
      .char c :: pairs f

/-- What an argument of `printf` stands for; nothing need be known of one that no
directive takes. -/
inductive FmtArg where
  | text (t : List UInt8)
  | number (n : UInt64)
  | unread

def Directive.render : Directive → List FmtArg → Option (List UInt8 × List FmtArg)
  | .char c, vals => some ([c], vals)
  | .pair c, vals => some ([percent, c], vals)
  | .string, .text t :: vals => some (t, vals)
  | .hex, .number n :: vals => some (hexText n.toNat, vals)
  | _, _ => none

/-- The text of a format and the arguments it leaves. -/
def render : List Directive → List FmtArg → Option (List UInt8 × List FmtArg)
  | [], vals => some ([], vals)
  | d :: ds, vals => do
    let (out, vals) ← d.render vals
    let (more, vals) ← render ds vals
    some (out ++ more, vals)

def Directive.arity : Directive → Nat
  | .string | .hex => 1
  | _ => 0

def arity (ds : List Directive) : Nat := (ds.map Directive.arity).sum

def Directive.source : Directive → List UInt8
  | .char c => [c]
  | .string => [percent, 's'.toUInt8]
  | .hex => [percent, 'x'.toUInt8]
  | .pair c => [percent, c]

/-- The directives that the reading of a format can give. -/
def Directive.Read : Directive → Prop
  | .char c => c ≠ percent
  | .pair c => c ≠ 's'.toUInt8 ∧ c ≠ 'x'.toUInt8
  | _ => True

theorem directiveOf_read (c : UInt8) : (directiveOf c).Read := by
  unfold directiveOf
  split
  · trivial
  · split
    · trivial
    · exact ⟨by assumption, by assumption⟩

theorem directiveOf_source (c : UInt8) : (directiveOf c).source = [percent, c] := by
  unfold directiveOf
  split
  · simp_all [Directive.source]
  · split <;> simp_all [Directive.source]

theorem directives_nil {f : List UInt8} (h : directives f = some []) : f = [] := by
  unfold directives at h
  split at h
  · rfl
  · split at h
    · split at h <;> simp_all
    · simp_all

theorem directives_cons {f : List UInt8} {d : Directive} {ds : List Directive}
    (h : directives f = some (d :: ds)) :
    d.Read ∧ ∃ g, f = d.source ++ g ∧ directives g = some ds := by
  unfold directives at h
  split at h
  · cases h
  · rename_i c f
    split at h
    · rename_i hc
      split at h
      · cases h
      · rename_i e g
        obtain ⟨es, hes, hcons⟩ := Option.map_eq_some_iff.mp h
        cases hcons
        exact ⟨directiveOf_read e, g, by rw [directiveOf_source, hc]; rfl, hes⟩
    · rename_i hc
      obtain ⟨es, hes, hcons⟩ := Option.map_eq_some_iff.mp h
      cases hcons
      exact ⟨hc, f, rfl, hes⟩

theorem directives_source {d : Directive} (hd : d.Read) (g : List UInt8) :
    directives (d.source ++ g) = (directives g).map (d :: ·) := by
  cases d with
  | char c =>
      have hc : c ≠ percent := hd
      rw [Directive.source, List.singleton_append, directives.eq_def]
      simp only [hc, if_false]
  | string => rfl
  | hex => rfl
  | pair c =>
      obtain ⟨hs, hx⟩ : c ≠ 's'.toUInt8 ∧ c ≠ 'x'.toUInt8 := hd
      have hof : directiveOf c = .pair c := by simp only [directiveOf, hs, hx, if_false]
      have hpair : directives (percent :: c :: g) =
          (directives g).map (directiveOf c :: ·) := rfl
      simpa [hof, Directive.source] using hpair

theorem directives_append {f g : List UInt8} {ds es : List Directive}
    (hf : directives f = some ds) (hg : directives g = some es) :
    directives (f ++ g) = some (ds ++ es) := by
  induction ds generalizing f with
  | nil => rw [directives_nil hf]; exact hg
  | cons d ds ih =>
      obtain ⟨hd, f', rfl, hf'⟩ := directives_cons hf
      rw [List.append_assoc, directives_source hd, ih hf']
      rfl

theorem pairs_of_directives {f : List UInt8} {ds : List Directive}
    (h : directives f = some ds) : pairs f = ds := by
  induction f using pairs.induct generalizing ds with
  | case1 => cases h; rfl
  | case2 => cases h
  | case3 d f ih =>
      obtain ⟨es, hes, rfl⟩ := Option.map_eq_some_iff.mp h
      rw [← ih hes]
      rfl
  | case4 c f hc ih =>
      rw [directives.eq_def] at h
      simp only [hc, if_false] at h
      obtain ⟨es, hes, rfl⟩ := Option.map_eq_some_iff.mp h
      rw [pairs.eq_def]
      simp only [hc, if_false, ih hes]

/-- A format without a reading is one that has a reading and a last `%`. -/
theorem directives_none {f : List UInt8} (h : directives f = none) :
    ∃ g, f = g ++ [percent] ∧ directives g = some (pairs f) := by
  induction f using pairs.induct with
  | case1 => cases h
  | case2 => exact ⟨[], rfl, rfl⟩
  | case3 d f ih =>
      obtain ⟨g, rfl, hg⟩ := ih (Option.map_eq_none_iff.mp h)
      refine ⟨percent :: d :: g, rfl, ?_⟩
      show (directives g).map (directiveOf d :: ·) = _
      rw [hg]
      rfl
  | case4 c f hc ih =>
      rw [directives.eq_def] at h
      simp only [hc, if_false] at h
      obtain ⟨g, rfl, hg⟩ := ih (Option.map_eq_none_iff.mp h)
      refine ⟨c :: g, rfl, ?_⟩
      rw [directives.eq_def, pairs.eq_def]
      simp only [hc, if_false, hg, Option.map_some]

theorem Directive.render_append {d : Directive} {vals rest more : List FmtArg}
    {out : List UInt8} (h : d.render vals = some (out, rest)) :
    d.render (vals ++ more) = some (out, rest ++ more) := by
  cases d with
  | char c => cases h; rfl
  | pair c => cases h; rfl
  | string =>
      cases vals with
      | nil => cases h
      | cons v vals => cases v with
        | text t => cases h; rfl
        | number n => cases h
        | unread => cases h
  | hex =>
      cases vals with
      | nil => cases h
      | cons v vals => cases v with
        | text t => cases h
        | number n => cases h; rfl
        | unread => cases h

theorem render_cons {d : Directive} {ds : List Directive} {vals rest : List FmtArg}
    {out : List UInt8} (h : render (d :: ds) vals = some (out, rest)) :
    ∃ a mid b, d.render vals = some (a, mid) ∧ render ds mid = some (b, rest) ∧
      out = a ++ b := by
  simp only [render, Option.bind_eq_bind, Option.bind_eq_some_iff, Option.some.injEq] at h
  obtain ⟨⟨a, mid⟩, hd, ⟨b, rest'⟩, hds, heq⟩ := h
  cases heq
  exact ⟨a, mid, b, hd, hds, rfl⟩

theorem render_cons_eq {d : Directive} {ds : List Directive} {vals mid rest : List FmtArg}
    {a b : List UInt8} (hd : d.render vals = some (a, mid))
    (hds : render ds mid = some (b, rest)) : render (d :: ds) vals = some (a ++ b, rest) := by
  rw [render, hd]
  show Option.bind (render ds mid) _ = _
  rw [hds]
  rfl

theorem render_append {ds es : List Directive} {as bs rest : List FmtArg}
    {a b : List UInt8} (hds : render ds as = some (a, []))
    (hes : render es bs = some (b, rest)) :
    render (ds ++ es) (as ++ bs) = some (a ++ b, rest) := by
  induction ds generalizing as a with
  | nil =>
      cases hds
      exact hes
  | cons d ds ih =>
      obtain ⟨a₁, mid, a₂, hd, hrest, rfl⟩ := render_cons hds
      rw [List.append_assoc]
      exact render_cons_eq (Directive.render_append hd) (ih hrest)

theorem directive_noNul {d : Directive} {vals rest : List FmtArg} {out : List UInt8}
    (hd : 0 ∉ d.source) (hv : ∀ t, .text t ∈ vals → 0 ∉ t)
    (h : d.render vals = some (out, rest)) :
    0 ∉ out ∧ ∀ t, .text t ∈ rest → 0 ∉ t := by
  cases d with
  | char c => cases h; exact ⟨hd, hv⟩
  | pair c => cases h; exact ⟨hd, hv⟩
  | string =>
      cases vals with
      | nil => cases h
      | cons v vals => cases v with
        | text t => cases h; exact ⟨hv _ (by simp), fun t ht => hv t (by simp [ht])⟩
        | number n => cases h
        | unread => cases h
  | hex =>
      cases vals with
      | nil => cases h
      | cons v vals => cases v with
        | text t => cases h
        | number n => cases h; exact ⟨hexText_noNul _, fun t ht => hv t (by simp [ht])⟩
        | unread => cases h

theorem render_noNul {f : List UInt8} {ds : List Directive} {vals rest : List FmtArg}
    {out : List UInt8} (hd : directives f = some ds) (hf : 0 ∉ f)
    (hv : ∀ t, .text t ∈ vals → 0 ∉ t) (h : render ds vals = some (out, rest)) : 0 ∉ out := by
  induction ds generalizing f vals out with
  | nil => cases h; simp
  | cons d ds ih =>
      obtain ⟨-, g, rfl, hg⟩ := directives_cons hd
      obtain ⟨a, mid, b, ha, hb, rfl⟩ := render_cons h
      obtain ⟨hsrc, hgno⟩ : 0 ∉ d.source ∧ 0 ∉ g := by simpa using hf
      obtain ⟨hano, hmid⟩ := directive_noNul hsrc hv ha
      have hbno := ih hg hgno hmid hb
      simpa using ⟨hano, hbno⟩

theorem directives_plain {f : List UInt8} (h : percent ∉ f) :
    directives f = some (f.map .char) := by
  induction f with
  | nil => rfl
  | cons c f ih =>
      obtain ⟨hc, hf⟩ : percent ≠ c ∧ percent ∉ f := by simpa using h
      have hone := directives_source (d := .char c) (Ne.symm hc) f
      rw [ih hf] at hone
      exact hone

theorem arity_plain (f : List UInt8) : arity (f.map .char) = 0 := by
  induction f with
  | nil => rfl
  | cons c f ih => simpa [arity, Directive.arity] using ih

theorem render_plain (f : List UInt8) (vals : List FmtArg) :
    render (f.map .char) vals = some (f, vals) := by
  induction f with
  | nil => rfl
  | cons c f ih =>
      have hd : Directive.render (.char c) vals = some ([c], vals) := rfl
      exact render_cons_eq hd ih

/-- The format `f` is printed as `out` and leaves the arguments `rest`. -/
def Renders (f : List UInt8) (vals : List FmtArg) (out : List UInt8) (rest : List FmtArg) :
    Prop :=
  ∃ ds, directives f = some ds ∧ render ds vals = some (out, rest)

theorem renders_plain {f : List UInt8} (h : percent ∉ f) (vals : List FmtArg) :
    Renders f vals f vals :=
  ⟨_, directives_plain h, render_plain f vals⟩

/-- Plain text and one directive before a format. -/
theorem Renders.directive {d : Directive} (hd : d.Read) {f : List UInt8}
    {vals rest : List FmtArg} {out : List UInt8} (h : Renders f vals out rest)
    (pre : List UInt8) (hpre : percent ∉ pre) {arg : FmtArg} {a : List UInt8}
    (ha : d.render (arg :: vals) = some (a, vals)) :
    Renders (pre ++ (d.source ++ f)) (arg :: vals) (pre ++ (a ++ out)) rest := by
  obtain ⟨ds, hds, hr⟩ := h
  have hone := directives_source hd f
  rw [hds] at hone
  exact ⟨_, directives_append (directives_plain hpre) hone,
    render_append (render_plain pre []) (render_cons_eq ha hr)⟩

theorem Renders.number {f : List UInt8} {vals rest : List FmtArg} {out : List UInt8}
    (h : Renders f vals out rest) (pre : List UInt8) (n : UInt64) (hpre : percent ∉ pre) :
    Renders (pre ++ (bytes "%x" ++ f)) (.number n :: vals)
      (pre ++ (hexText n.toNat ++ out)) rest :=
  h.directive (d := .hex) trivial pre hpre rfl

theorem Renders.text {f : List UInt8} {vals rest : List FmtArg} {out : List UInt8}
    (h : Renders f vals out rest) (pre t : List UInt8) (hpre : percent ∉ pre) :
    Renders (pre ++ (bytes "%s" ++ f)) (.text t :: vals) (pre ++ (t ++ out)) rest :=
  h.directive (d := .string) trivial pre hpre rfl

end BenchOS
