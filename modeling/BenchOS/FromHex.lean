import BenchOS.Printf
import BenchOS.Main

/-!
What `fromHexString` makes of a text. It gives the digit that is `j` places from
the end the weight `16 * (j + 1)`, where a base-16 numeral has `16 ^ j`, so it
undoes `toHexString` on two numbers only.

`strlen` returns no value, so the count it has made is not what its caller gets;
statements that need the count say that the two agree.
-/
namespace BenchOS

/-- The number that the loop of `fromHexString` adds up to, from `num` on. -/
def weigh (text : List UInt8) (length : UInt32) (junk : Nat → UInt64) (num : UInt64) : UInt64 :=
  match text with
  | [] => num
  | c :: text =>
    match digitOf c with
    | some digit =>
      weigh text (length - 1) junk (num + (UInt32.ofNat digit * length * 16).toUInt64)
    | none =>
      weigh text (length - 1) (fun i => junk (i + 1))
        (num + ((junk 0).toUInt32 * length * 16).toUInt64)

/-- The call of `strlen` for the string at `p`, if it comes next, yields its length. -/
def StrlenCounts (s : Machine) (p : Pointer) : Prop :=
  ∀ text, CString s.mem p text → (s.junk 0).toUInt32.toNat = text.length

theorem strlenCounts_of {s : Machine} {p : Pointer} {text : List UInt8}
    (h : CString s.mem p text) (hcount : (s.junk 0).toUInt32.toNat = text.length) :
    StrlenCounts s p := by
  intro text' h'
  rw [hcount, h.unique h']

theorem strlen_loop {p : Pointer} {text : List UInt8} {s : Machine} (l : UInt32)
    (h : CString s.mem p text) :
    ∃ l' ps, (Prog.loop strlenTurn (l, p)).Returns s l' (s.reading ps) := by
  induction text generalizing p s l with
  | nil =>
      have hread : s.mem.read p = some 0 := h
      refine ⟨l, [p], Prog.loop_leave ?_⟩
      exact (load_returns hread).bind (Prog.returns_pure _ _)
  | cons c text ih =>
      obtain ⟨hread, hc, htail⟩ := h
      have hturn : (strlenTurn (l, p)).Returns s (.again (l + 1, p.add 1)) (s.reading [p]) := by
        apply (load_returns hread).bind
        rw [if_pos hc]
        exact Prog.returns_pure _ _
      obtain ⟨l', ps, hloop⟩ := ih (s := s.reading [p]) (l + 1) htail
      rw [Machine.reading_reading] at hloop
      exact ⟨l', [p] ++ ps, Prog.loop_again hturn hloop⟩

theorem strlen_returns {p : Pointer} {text : List UInt8} {s : Machine}
    (h : CString s.mem p text) :
    ∃ ps, (strlen p).Returns s (s.junk 0).toUInt32
      ((s.reading ps).withJunk fun i => s.junk (i + 1)) := by
  obtain ⟨l, ps, hloop⟩ := strlen_loop 0 h
  refine ⟨ps, hloop.bind ?_⟩
  exact .of_forall fun _ => rfl

/-- How many characters of a text leave `digit` indeterminate. -/
def strays (text : List UInt8) : Nat := text.countP fun c => (digitOf c).isNone

/-- The cases of the `switch` are the digits with their values. -/
theorem lookup_digitCases (c : UInt8) :
    digitCases.lookup c = (digitOf c).map UInt32.ofNat := by
  by_cases h : c ∈ alphabet
  · have all : alphabet.all fun c =>
        digitCases.lookup c = some (UInt32.ofNat (alphabet.idxOf c)) := by decide
    rw [digitOf, if_pos h]
    simpa using List.all_eq_true.mp all c h
  · have hkeys : alphabet = digitCases.map (·.1) := by decide
    rw [digitOf, if_neg h, Option.map_none, List.lookup_eq_none_iff]
    intro entry hentry
    have hne : c ≠ entry.1 := by
      intro heq
      rw [hkeys] at h
      exact h (heq ▸ List.mem_map_of_mem hentry)
    simpa using hne

theorem fromHex_loop {p : Pointer} {text : List UInt8} {s : Machine} (num : UInt64)
    (length : UInt32) (h : CString s.mem p text) :
    ∃ ps, (Prog.loop fromHexTurn (num, p, length)).Returns s (weigh text length s.junk num)
      ((s.reading ps).withJunk fun i => s.junk (i + strays text)) := by
  induction text generalizing p s num length with
  | nil =>
      have hread : s.mem.read p = some 0 := h
      refine ⟨[p], Prog.loop_leave ?_⟩
      exact (load_returns hread).bind (Prog.returns_pure _ _)
  | cons c text ih =>
      obtain ⟨hread, hc, htail⟩ := h
      have hswitch := lookup_digitCases c
      cases hcase : digitOf c with
      | some digit =>
          rw [hcase, Option.map_some] at hswitch
          have hturn : (fromHexTurn (num, p, length)).Returns s
              (.again (num + (UInt32.ofNat digit * length * 16).toUInt64, p.add 1, length - 1))
              (s.reading [p, p]) :=
            .of_forall fun _ => by
              simp [fromHexTurn, load, hread, hc, switchDigit, hswitch, Machine.reading]
          obtain ⟨ps, hloop⟩ := ih (s := s.reading [p, p])
            (num + (UInt32.ofNat digit * length * 16).toUInt64) (length - 1) htail
          have hstrays : strays (c :: text) = strays text := by simp [strays, hcase]
          rw [Machine.reading_reading] at hloop
          rw [weigh, hcase, hstrays]
          exact ⟨[p, p] ++ ps, Prog.loop_again hturn hloop⟩
      | none =>
          rw [hcase, Option.map_none] at hswitch
          let s₁ := s.withJunk fun i => s.junk (i + 1)
          have hturn : (fromHexTurn (num, p, length)).Returns s
              (.again (num + ((s.junk 0).toUInt32 * length * 16).toUInt64, p.add 1,
                length - 1)) (s₁.reading [p, p]) :=
            .of_forall fun _ => by
              simp [fromHexTurn, load, hread, hc, switchDigit, hswitch, indeterminate, s₁,
                Machine.withJunk, Machine.reading]
          obtain ⟨ps, hloop⟩ := ih (s := s₁.reading [p, p])
            (num + ((s.junk 0).toUInt32 * length * 16).toUInt64) (length - 1) htail
          have hstrays : strays (c :: text) = strays text + 1 := by simp [strays, hcase]
          rw [Machine.reading_reading] at hloop
          rw [weigh, hcase, hstrays]
          exact ⟨[p, p] ++ ps, Prog.loop_again hturn hloop⟩

def lengthNotice (length : UInt32) : List UInt8 :=
  bytes "\nlength: 0x" ++ (hexText length.toNat ++ bytes "\n")

/-- `fromHexString` uses up one indeterminate value for `strlen` and one for each
character that is no digit. -/
theorem fromHexString_uses {p : Pointer} {text : List UInt8} {s : Machine}
    (h : Holds s.mem p text) :
    ∃ s', (fromHexString p).Returns s
        (weigh text (s.junk 0).toUInt32 (fun i => s.junk (i + 1)) 0) s' ∧
      Prints (s.withJunk fun i => s.junk (i + strays text + 1)) s'
        (glyphs s.globalFg (lengthNotice (s.junk 0).toUInt32)) := by
  obtain ⟨ps, hstrlen⟩ := strlen_returns h.1
  let s₁ := (s.reading ps).withJunk fun i => s.junk (i + 1)
  let junk := fun i => s.junk (i + strays text + 1)
  have hformat : Holds s₁.mem (literal "\nlength: 0x%x\n") (bytes "\nlength: 0x%x\n") :=
    holds_literal _ _ (by decide)
  have hplain : percent ∉ bytes "\n" := by decide
  have hrender := (renders_plain hplain []).number (bytes "\nlength: 0x")
    (s.junk 0).toUInt32.toUInt64 (by decide)
  obtain ⟨left, s₂, hprintf, hs₂⟩ := printf_renders (s := s₁)
    [.number (s.junk 0).toUInt32.toUInt64] hrender hformat (.cons rfl .nil)
  obtain ⟨qs, hloop⟩ := fromHex_loop 0 (s.junk 0).toUInt32 (hs₂.holds h).1
  rw [hs₂.junk_eq] at hloop
  refine ⟨(s₂.reading qs).withJunk junk, hstrlen.bind (hprintf.bind hloop), ?_⟩
  have hwhole := ((prints_reading s ps).withJunk junk).trans
    ((hs₂.trans (prints_reading s₂ qs)).withJunk junk)
  have hcolour : s₁.globalFg = s.globalFg := rfl
  simpa [lengthNotice, hcolour] using hwhole

theorem fromHexString_returns {p : Pointer} {text : List UInt8} {s : Machine}
    (h : Holds s.mem p text) :
    ∃ junk s', (fromHexString p).Returns s
        (weigh text (s.junk 0).toUInt32 (fun i => s.junk (i + 1)) 0) s' ∧
      Prints (s.withJunk junk) s' (glyphs s.globalFg (lengthNotice (s.junk 0).toUInt32)) :=
  ⟨_, fromHexString_uses h⟩

/-- The weights `fromHexString` gives to digits. -/
def linearValue : List Nat → Nat
  | [] => 0
  | d :: ds => 16 * (ds.length + 1) * d + linearValue ds

theorem linearValue_le {ds : List Nat} (h : ∀ d ∈ ds, d < 16) :
    linearValue ds ≤ 120 * ds.length * (ds.length + 1) := by
  induction ds with
  | nil => simp [linearValue]
  | cons d ds ih =>
      have hd : d ≤ 15 := Nat.le_of_lt_succ (h d (by simp))
      have hds := ih fun e he => h e (by simp [he])
      have hfirst : 16 * (ds.length + 1) * d ≤ 16 * (ds.length + 1) * 15 :=
        Nat.mul_le_mul_left _ hd
      rw [linearValue, List.length_cons]
      nlinarith

theorem linearValue_lt_value {d : Nat} {ds : List Nat} (hlead : d ≠ 0)
    (hdigits : ∀ e ∈ d :: ds, e < 16) (hshort : ds.length < 16) (hlong : 3 ≤ ds.length) :
    linearValue (d :: ds) < Numeral.value 16 (d :: ds) := by
  have hle := linearValue_le hdigits
  have hge := Numeral.pow_le_value (b := 16) hlead ds
  rw [List.length_cons] at hle
  have hall : ∀ k < 16, 3 ≤ k → 120 * (k + 1) * (k + 1 + 1) < 16 ^ k := by decide
  have hgap := hall ds.length hshort hlong
  omega

/-- The only numeral whose places have the weights that `fromHexString` gives them. -/
theorem linearValue_eq_value_iff {d : Nat} {ds : List Nat} (hlead : d ≠ 0)
    (hdigits : ∀ e ∈ d :: ds, e < 16) (hlen : ds.length < 16) :
    linearValue (d :: ds) = Numeral.value 16 (d :: ds) ↔ d :: ds = [1, 13, 0] := by
  constructor
  · intro heq
    have hshort : ds.length < 3 := by
      by_contra hlong
      have hlt := linearValue_lt_value hlead hdigits hlen (by omega)
      omega
    have hd : d < 16 := hdigits d (by simp)
    match ds, hdigits, heq, hshort with
    | [], _, heq, _ =>
        simp [linearValue, Numeral.value_cons] at heq
        omega
    | [e], hdigits, heq, _ =>
        have he : e < 16 := hdigits e (by simp)
        simp [linearValue, Numeral.value_cons] at heq
        omega
    | [e, f], hdigits, heq, _ =>
        have he : e < 16 := hdigits e (by simp)
        have hf : f < 16 := hdigits f (by simp)
        simp [linearValue, Numeral.value_cons] at heq
        obtain ⟨rfl, rfl, rfl⟩ : d = 1 ∧ e = 13 ∧ f = 0 := by omega
        rfl
  · intro h
    cases h
    decide

theorem digitOf_mem {c : UInt8} (h : c ∈ alphabet) : digitOf c = some (alphabet.idxOf c) :=
  if_pos h

theorem idxOf_lt {c : UInt8} (h : c ∈ alphabet) : alphabet.idxOf c < 16 :=
  List.idxOf_lt_length_of_mem h

theorem weigh_digits {text : List UInt8} (junk : Nat → UInt64) (num : UInt64)
    (hdigits : ∀ c ∈ text, c ∈ alphabet) (hlen : text.length ≤ 16) :
    weigh text (UInt32.ofNat text.length) junk num =
      num + UInt64.ofNat (linearValue (text.map (alphabet.idxOf ·))) := by
  induction text generalizing num with
  | nil => simp [weigh, linearValue]
  | cons c text ih =>
      rw [List.length_cons] at hlen ⊢
      have hd := idxOf_lt (hdigits c (by simp))
      obtain ⟨d, hdef⟩ : ∃ d, alphabet.idxOf c = d := ⟨_, rfl⟩
      rw [hdef] at hd
      have hcount : UInt32.ofNat (text.length + 1) - 1 = UInt32.ofNat text.length := by
        rw [UInt32.ofNat_add]
        simp
      have hterm : (UInt32.ofNat d * UInt32.ofNat (text.length + 1) * 16).toUInt64 =
          UInt64.ofNat (16 * (text.length + 1) * d) := by
        have hle : d * (text.length + 1) ≤ 15 * 16 := Nat.mul_le_mul (by omega) hlen
        rw [← UInt64.toNat_inj, UInt32.toNat_toUInt64]
        simp only [UInt32.toNat_mul, UInt32.toNat_ofNat', UInt64.toNat_ofNat']
        rw [Nat.mod_eq_of_lt (by omega : d < 2 ^ 32),
          Nat.mod_eq_of_lt (by omega : text.length + 1 < 2 ^ 32),
          Nat.mod_eq_of_lt (by omega : d * (text.length + 1) < 2 ^ 32),
          show 16 * (text.length + 1) * d = 16 * (d * (text.length + 1)) by ring,
          show (16 : UInt32).toNat = 16 from rfl]
        omega
      rw [weigh, digitOf_mem (hdigits c (by simp)), hcount, List.map_cons, linearValue,
        List.length_map, hdef, UInt64.ofNat_add, ← UInt64.add_assoc, ← hterm]
      exact ih _ (fun e he => hdigits e (by simp [he])) (by omega)

theorem fromHexString_digits {p : Pointer} {text : List UInt8} {s : Machine}
    (h : Holds s.mem p text) (hdigits : ∀ c ∈ text, c ∈ alphabet) (hlen : text.length ≤ 16)
    (hcount : StrlenCounts s p) :
    ∃ n s', (fromHexString p).Returns s n s' ∧
      n.toNat = linearValue (text.map (alphabet.idxOf ·)) := by
  obtain ⟨junk, s', hreturns, -⟩ := fromHexString_returns h
  have hlength : (s.junk 0).toUInt32 = UInt32.ofNat text.length := by
    rw [← UInt32.toNat_inj, hcount text h.1, UInt32.toNat_ofNat']
    omega
  refine ⟨_, s', hreturns, ?_⟩
  have hds : ∀ d ∈ text.map (alphabet.idxOf ·), d < 16 := by
    intro d hd
    obtain ⟨c, hc, rfl⟩ := List.mem_map.mp hd
    exact idxOf_lt (hdigits c hc)
  have hle := linearValue_le hds
  have hsmall : 120 * text.length * (text.length + 1) ≤ 120 * 16 * 17 :=
    Nat.mul_le_mul (Nat.mul_le_mul_left _ hlen) (by omega)
  rw [List.length_map] at hle
  rw [hlength, weigh_digits _ _ hdigits hlen, UInt64.zero_add, UInt64.toNat_ofNat']
  omega

theorem linearValue_hexText_iff {n : Nat} (h : n < 2 ^ 64) :
    linearValue ((hexText n).map (alphabet.idxOf ·)) = n ↔ n = 0 ∨ n = 0x1d0 := by
  by_cases hn : n = 0
  · subst hn
    decide
  · have hlen : (Nat.digits 16 n).length ≤ 16 := by
      have hle := hexText_length_le h
      simpa [hexText, hn] using hle
    have hvalue := Numeral.value_digits 16 n
    rw [map_idxOf_hexText hn]
    obtain ⟨d, ds, hcons, hlead⟩ := Numeral.exists_lead (b := 16) hn
    have hdigits : ∀ e ∈ d :: ds, e < 16 := fun e he => digits_lt (hcons ▸ he)
    have hcount : (Nat.digits 16 n).length = ds.length + 1 := by
      rw [← List.length_reverse, hcons, List.length_cons]
    rw [hcons] at hvalue ⊢
    have hiff := linearValue_eq_value_iff hlead hdigits (by omega)
    rw [hvalue] at hiff
    rw [hiff]
    constructor
    · intro hds
      rw [hds] at hvalue
      exact .inr hvalue.symm
    · rintro (hzero | rfl)
      · exact absurd hzero hn
      · rw [← hcons]
        decide

/-- A numeral of 1 to 16 digits that begins with 0 only if it is `0`. -/
structure CanonicalHex (text : List UInt8) : Prop where
  digits : ∀ c ∈ text, c ∈ alphabet
  nonempty : text ≠ []
  short : text.length ≤ 16
  lead : text.head? = some '0'.toUInt8 → text = bytes "0"

theorem hexText_linearValue_iff {text : List UInt8} (h : CanonicalHex text) :
    hexText (linearValue (text.map (alphabet.idxOf ·))) = text ↔ text = bytes "1d0" := by
  constructor
  · intro heq
    obtain ⟨c, rest, rfl⟩ := List.exists_cons_of_ne_nil h.nonempty
    have hvalue := hexValue_hexText (linearValue ((c :: rest).map (alphabet.idxOf ·)))
    rw [heq, hexValue, List.map_cons] at hvalue
    have hlead : alphabet.idxOf c ≠ 0 := by
      intro hzero
      have hc : c = '0'.toUInt8 := by
        rw [← hexChar_idxOf (h.digits c (by simp)), hzero]
        rfl
      have htext := h.lead (by rw [hc]; rfl)
      rw [htext] at heq
      exact absurd heq (by decide)
    have hdigits : ∀ e ∈ alphabet.idxOf c :: rest.map (alphabet.idxOf ·), e < 16 := by
      intro e he
      rw [← List.map_cons (f := (alphabet.idxOf ·))] at he
      obtain ⟨c', hc', rfl⟩ := List.mem_map.mp he
      exact idxOf_lt (h.digits c' hc')
    have hshort := h.short
    have hds := (linearValue_eq_value_iff hlead hdigits
      (by simpa using hshort)).mp hvalue.symm
    have hchars : ((c :: rest).map (alphabet.idxOf ·)).map hexChar = c :: rest := by
      rw [List.map_map]
      conv_rhs => rw [← List.map_id (c :: rest)]
      exact List.map_congr_left fun c' hc' => hexChar_idxOf (h.digits c' hc')
    rw [← hchars, List.map_cons, hds]
    decide
  · intro htext
    subst htext
    decide

/-- Encoding and decoding undo each other for the numbers 0 and 0x1d0 and, on canonical
texts, for `1d0`: nowhere else. -/
theorem hexString_round_trips (result : Location) (s : Machine) :
    (∀ n : UInt64, result.obj ≠ .numHex →
      ∃ s₁, (toHexString n result).Returns s () s₁ ∧ (StrlenCounts s₁ (.loc result) →
        ((∃ s₂, (fromHexString (.loc result)).Returns s₁ n s₂) ↔ n = 0 ∨ n = 0x1d0))) ∧
    (∀ (text : List UInt8) (p : Pointer), CanonicalHex text → Holds s.mem p text →
      StrlenCounts s p →
      ∃ n s₁ s₂, (fromHexString p).Returns s n s₁ ∧ (toHexString n result).Returns s₁ () s₂ ∧
        (CString s₂.mem (.loc result) text ↔ text = bytes "1d0")) := by
  refine ⟨fun n hresult => ?_, fun text p hcanon hp hcount => ?_⟩
  · obtain ⟨s₁, hwrite, htext, -⟩ := toHexString_writes n result s
    refine ⟨s₁, hwrite, ?_⟩
    intro hcount
    have hholds : Holds s₁.mem (.loc result) (hexText n.toNat) := ⟨htext, hresult⟩
    obtain ⟨m, s₂, hread, hm⟩ := fromHexString_digits hholds (fun c hc => hexText_mem hc)
      (hexText_length_le (UInt64.toNat_lt n)) hcount
    have hsame : (∃ s₂, (fromHexString (.loc result)).Returns s₁ n s₂) ↔ m = n := by
      constructor
      · rintro ⟨s₃, h₃⟩
        cases hread.unique h₃
        rfl
      · intro hm
        exact ⟨s₂, hm ▸ hread⟩
    have hiff := linearValue_hexText_iff (UInt64.toNat_lt n)
    have hzero : n = 0 ↔ n.toNat = 0 := UInt64.toNat_inj.symm
    have hother : n = 0x1d0 ↔ n.toNat = 0x1d0 := UInt64.toNat_inj.symm
    rw [← hm, UInt64.toNat_inj, ← hzero, ← hother] at hiff
    exact hsame.trans hiff
  · obtain ⟨n, s₁, hread, hn⟩ := fromHexString_digits hp hcanon.digits hcanon.short hcount
    obtain ⟨s₂, hwrite, htext, -⟩ := toHexString_writes n result s₁
    refine ⟨n, s₁, s₂, hread, hwrite, ?_⟩
    rw [← hexText_linearValue_iff hcanon, ← hn]
    constructor
    · intro hs
      exact htext.unique hs
    · intro hs
      exact hs ▸ htext

/-- An idle machine on which an indeterminate value is `k`. -/
def Machine.yielding (k : UInt64) : Machine := Machine.reset.withJunk fun _ => k

theorem hexString_round_trips_1d0 :
    (∃ s₁ s₂, (toHexString 0x1d0 input).Returns (Machine.yielding 3) () s₁ ∧
      (fromHexString (.loc input)).Returns s₁ 0x1d0 s₂) ∧
    (∃ n s₁ s₂, (fromHexString (literal "1d0")).Returns (Machine.yielding 3) n s₁ ∧
      (toHexString n input).Returns s₁ () s₂ ∧ CString s₂.mem (.loc input) (bytes "1d0")) := by
  constructor
  · obtain ⟨s₁, hwrite, hread⟩ :=
      (hexString_round_trips input (Machine.yielding 3)).1 0x1d0 (by decide)
    obtain ⟨s₁', hwrite', htext, hjunk⟩ := toHexString_writes 0x1d0 input (Machine.yielding 3)
    cases hwrite.unique hwrite'
    have hcount : StrlenCounts s₁ (.loc input) :=
      strlenCounts_of htext (by rw [hjunk]; decide)
    obtain ⟨s₂, h₂⟩ := (hread hcount).mpr (.inr rfl)
    exact ⟨s₁, s₂, hwrite, h₂⟩
  · have htext : Holds (Machine.yielding 3).mem (literal "1d0") (bytes "1d0") :=
      holds_literal _ _ (by decide)
    have hcount : StrlenCounts (Machine.yielding 3) (literal "1d0") :=
      strlenCounts_of htext.1 (by decide)
    have hdigits : ∀ c ∈ bytes "1d0", c ∈ alphabet := by
      have all : (bytes "1d0").all fun c => c ∈ alphabet := by decide
      simpa using all
    obtain ⟨n, s₁, s₂, hread, hwrite, hiff⟩ :=
      (hexString_round_trips input (Machine.yielding 3)).2 (bytes "1d0") (literal "1d0")
        ⟨hdigits, by decide, by decide, by decide⟩ htext hcount
    exact ⟨n, s₁, s₂, hread, hwrite, hiff.mpr rfl⟩

theorem hexString_one_read_as_16 :
    ∃ s₁ s₂, (toHexString 1 input).Returns (Machine.yielding 1) () s₁ ∧
      StrlenCounts s₁ (.loc input) ∧ (fromHexString (.loc input)).Returns s₁ 16 s₂ ∧
      ¬ ∃ s₃, (fromHexString (.loc input)).Returns s₁ 1 s₃ := by
  obtain ⟨s₁, hwrite, htext, hjunk⟩ := toHexString_writes 1 input (Machine.yielding 1)
  have hcount : StrlenCounts s₁ (.loc input) :=
    strlenCounts_of htext (by rw [hjunk]; decide)
  have hinput : input.obj ≠ .numHex := by decide
  have hholds : Holds s₁.mem (.loc input) (hexText 1) := ⟨htext, hinput⟩
  obtain ⟨m, s₂, hread, hm⟩ := fromHexString_digits hholds
    (fun c hc => hexText_mem hc) (by decide) hcount
  have h16 : m = 16 := by
    rw [← UInt64.toNat_inj, hm]
    decide
  subst h16
  refine ⟨s₁, s₂, hwrite, hcount, hread, fun ⟨s₃, h₃⟩ => ?_⟩
  cases hread.unique h₃

end BenchOS
