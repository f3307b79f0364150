import BenchOS.Renderer

/-!
`ssfn_utf8` of `ssfn.h`, which takes one character off a string in UTF-8. It looks at the
upper bits of the first byte only and checks nothing, so a character is read in any form that
is long enough for it.
-/
namespace BenchOS

/-- `*p & mask`, as it enters the value. -/
def maskedByte (p : Pointer) (mask : UInt8) : Kernel UInt32 := do
  let c ← load p
  pure (c &&& mask).toUInt32

/-- `!(*p & bit)` -/
def bitClear (p : Pointer) (bit : UInt8) : Kernel Bool := do
  let c ← load p
  pure (c &&& bit == 0)

/-- The value, and the pointer that `*s` is in the end. -/
def ssfnUtf8 (s : Pointer) : Kernel (UInt32 × Pointer) := do
  let c ← load s
  let single ← bitClear s 128
  if single then
    pure (Renderer.unicodeOf c, s.add 1)
  else
    let two ← bitClear s 32
    if two then
      let a ← maskedByte s 0x1F
      let b ← maskedByte (s.add 1) 0x3F
      pure (a <<< 6 ||| b, (s.add 1).add 1)
    else
      let three ← bitClear s 16
      if three then
        let a ← maskedByte s 0xF
        let b ← maskedByte (s.add 1) 0x3F
        let c ← maskedByte (s.add 2) 0x3F
        pure (a <<< 12 ||| b <<< 6 ||| c, (s.add 2).add 1)
      else
        let four ← bitClear s 8
        if four then
          let a ← maskedByte s 0x7
          let b ← maskedByte (s.add 1) 0x3F
          let c ← maskedByte (s.add 2) 0x3F
          let d ← maskedByte (s.add 3) 0x3F
          pure (a <<< 18 ||| b <<< 12 ||| c <<< 6 ||| d, (s.add 3).add 1)
        else
          pure (0, s.add 1)

/-- `n` calls one after the other. -/
def ssfnUtf8Calls : Nat → Pointer → Kernel (List UInt32 × Pointer)
  | 0, s => pure ([], s)
  | n + 1, s => do
    let (c, s) ← ssfnUtf8 s
    let (cs, s) ← ssfnUtf8Calls n s
    pure (c :: cs, s)

/-- A byte after the first. -/
def trailing (a : Nat) : UInt8 := UInt8.ofNat (a + 0x80)

/-- The forms of up to four bytes in which `v` can be stored. -/
inductive Spells : Nat → List UInt8 → Prop where
  | one {a : Nat} (ha : a < 128) : Spells a [UInt8.ofNat a]
  | two {a b : Nat} (ha : a < 32) (hb : b < 64) :
      Spells (64 * a + b) [UInt8.ofNat (a + 0xC0), trailing b]
  | three {a b c : Nat} (ha : a < 16) (hb : b < 64) (hc : c < 64) :
      Spells (64 * (64 * a + b) + c) [UInt8.ofNat (a + 0xE0), trailing b, trailing c]
  | four {a b c d : Nat} (ha : a < 8) (hb : b < 64) (hc : c < 64) (hd : d < 64) :
      Spells (64 * (64 * (64 * a + b) + c) + d)
        [UInt8.ofNat (a + 0xF0), trailing b, trailing c, trailing d]

/-- `c` gives `v` and does nothing but read, and that among the `n` bytes from `p` on. -/
def Observes {α : Type} (s : Machine) (p : Pointer) (n : Nat) (c : Kernel α) (v : α) : Prop :=
  ∀ ps, ∃ qs, (∀ q ∈ qs, ∃ i, i < n ∧ q = p.add i) ∧
    c.Returns (s.reading ps) v (s.reading (ps ++ qs))

section Bits
variable {a b c d : Nat}

theorem trailing_bits (ha : a < 64) : (trailing a &&& 0x3F).toUInt32 = UInt32.ofNat a := by
  have all : ∀ a < 64, (trailing a &&& 0x3F).toUInt32 = UInt32.ofNat a := by decide
  exact all a ha

theorem append_bits (hb : b < 64) :
    UInt32.ofNat a <<< 6 ||| UInt32.ofNat b = UInt32.ofNat (64 * a + b) := by
  have hor : a <<< 6 ||| b = 64 * a + b := by
    rw [← Nat.shiftLeft_add_eq_or_of_lt (i := 6) hb, Nat.shiftLeft_eq]
    omega
  rw [← hor, UInt32.ofNat_or, UInt32.ofNat_shiftLeft _ _ (by omega)]
  rfl

theorem shiftLeft_twelve (v : UInt32) : v <<< 12 = v <<< 6 <<< 6 := by
  rw [← UInt32.shiftLeft_add (by decide) (by decide) (by decide)]
  rfl

theorem shiftLeft_eighteen (v : UInt32) : v <<< 18 = v <<< 12 <<< 6 := by
  rw [← UInt32.shiftLeft_add (by decide) (by decide) (by decide)]
  rfl

theorem three_bits (hb : b < 64) (hc : c < 64) :
    UInt32.ofNat a <<< 12 ||| UInt32.ofNat b <<< 6 ||| UInt32.ofNat c =
      UInt32.ofNat (64 * (64 * a + b) + c) := by
  rw [← append_bits hc, ← append_bits hb, UInt32.shiftLeft_or, shiftLeft_twelve]

theorem four_bits (hb : b < 64) (hc : c < 64) (hd : d < 64) :
    UInt32.ofNat a <<< 18 ||| UInt32.ofNat b <<< 12 ||| UInt32.ofNat c <<< 6 ||| UInt32.ofNat d =
      UInt32.ofNat (64 * (64 * (64 * a + b) + c) + d) := by
  rw [← append_bits hd, ← three_bits hb hc, UInt32.shiftLeft_or, UInt32.shiftLeft_or,
    shiftLeft_eighteen, shiftLeft_twelve (UInt32.ofNat b)]

end Bits

section Reads
variable {α β : Type} {s : Machine} {p : Pointer} {n : Nat} {b : UInt8} {bs cs : List UInt8}

theorem observes_pure (v : α) : Observes s p n (pure v) v := fun ps =>
  ⟨[], by simp, by simpa using Prog.returns_pure v (s.reading ps)⟩

theorem Observes.bind {c : Kernel α} {f : α → Kernel β} {v : α} {w : β}
    (hc : Observes s p n c v) (hf : Observes s p n (f v) w) : Observes s p n (c >>= f) w := by
  intro ps
  obtain ⟨qs, hqs, hreturns⟩ := hc ps
  obtain ⟨rs, hrs, hreturns'⟩ := hf (ps ++ qs)
  refine ⟨qs ++ rs, ?_, ?_⟩
  · intro q hq
    rcases List.mem_append.mp hq with hq | hq
    · exact hqs q hq
    · exact hrs q hq
  · rw [← List.append_assoc]
    exact hreturns.bind hreturns'

/-- The same bytes, counted from a place before them. -/
theorem Observes.before {c : Kernel α} {v : α} {k : Nat} (h : Observes s (p.add k) n c v) :
    Observes s p (k + n) c v := by
  intro ps
  obtain ⟨qs, hqs, hreturns⟩ := h ps
  refine ⟨qs, ?_, hreturns⟩
  intro q hq
  obtain ⟨i, hi, rfl⟩ := hqs q hq
  exact ⟨k + i, by omega, Ptr.add_add p k i⟩

theorem Observes.longer {c : Kernel α} {v : α} {n' : Nat} (h : Observes s p n c v)
    (hn : n ≤ n') : Observes s p n' c v := by
  intro ps
  obtain ⟨qs, hqs, hreturns⟩ := h ps
  refine ⟨qs, ?_, hreturns⟩
  intro q hq
  obtain ⟨i, hi, rfl⟩ := hqs q hq
  exact ⟨i, by omega, rfl⟩

/-- Byte `i` of those that can be read. -/
theorem observes_load {i : Nat} (h : Yields s.mem p bs) (hb : bs[i]? = some b) :
    Observes s p bs.length (load (p.add i)) b := by
  obtain ⟨hi, -⟩ := List.getElem?_eq_some_iff.mp hb
  intro ps
  refine ⟨[p.add i], ?_, ?_⟩
  · intro q hq
    exact ⟨i, hi, List.mem_singleton.mp hq⟩
  · rw [← Machine.reading_reading]
    exact load_returns ((h i hi).trans hb)

theorem observes_first (h : Yields s.mem p (b :: bs)) :
    Observes s p (b :: bs).length (load p) b := by
  have hload := observes_load h (i := 0) rfl
  rwa [Ptr.add_zero] at hload

theorem observes_masked {i : Nat} (h : Yields s.mem p bs) (hb : bs[i]? = some b)
    {mask : UInt8} {v : UInt32} (hv : (b &&& mask).toUInt32 = v) :
    Observes s p bs.length (maskedByte (p.add i) mask) v :=
  hv ▸ (observes_load h hb).bind (observes_pure _)

theorem observes_lead (h : Yields s.mem p (b :: bs)) {mask : UInt8} {v : UInt32}
    (hv : (b &&& mask).toUInt32 = v) :
    Observes s p (b :: bs).length (maskedByte p mask) v :=
  hv ▸ (observes_first h).bind (observes_pure _)

theorem observes_test (h : Yields s.mem p (b :: bs)) {bit : UInt8} {clear : Bool}
    (hclear : (b &&& bit == 0) = clear) :
    Observes s p (b :: bs).length (bitClear p bit) clear :=
  hclear ▸ (observes_first h).bind (observes_pure _)

end Reads

section Calls
variable {s : Machine} {p : Pointer} {v a b c d : Nat} {bs : List UInt8}

theorem lead_one (ha : a < 128) :
    (UInt8.ofNat a &&& 128 == 0) = true ∧ Renderer.unicodeOf (UInt8.ofNat a) = UInt32.ofNat a := by
  have all : ∀ a < 128, (UInt8.ofNat a &&& 128 == 0) = true ∧
      Renderer.unicodeOf (UInt8.ofNat a) = UInt32.ofNat a := by decide
  exact all a ha

theorem lead_two (ha : a < 32) :
    (UInt8.ofNat (a + 0xC0) &&& 128 == 0) = false ∧ (UInt8.ofNat (a + 0xC0) &&& 32 == 0) = true ∧
      (UInt8.ofNat (a + 0xC0) &&& 0x1F).toUInt32 = UInt32.ofNat a := by
  have all : ∀ a < 32, (UInt8.ofNat (a + 0xC0) &&& 128 == 0) = false ∧
      (UInt8.ofNat (a + 0xC0) &&& 32 == 0) = true ∧
      (UInt8.ofNat (a + 0xC0) &&& 0x1F).toUInt32 = UInt32.ofNat a := by decide
  exact all a ha

theorem lead_three (ha : a < 16) :
    (UInt8.ofNat (a + 0xE0) &&& 128 == 0) = false ∧ (UInt8.ofNat (a + 0xE0) &&& 32 == 0) = false ∧
      (UInt8.ofNat (a + 0xE0) &&& 16 == 0) = true ∧
      (UInt8.ofNat (a + 0xE0) &&& 0xF).toUInt32 = UInt32.ofNat a := by
  have all : ∀ a < 16, (UInt8.ofNat (a + 0xE0) &&& 128 == 0) = false ∧
      (UInt8.ofNat (a + 0xE0) &&& 32 == 0) = false ∧
      (UInt8.ofNat (a + 0xE0) &&& 16 == 0) = true ∧
      (UInt8.ofNat (a + 0xE0) &&& 0xF).toUInt32 = UInt32.ofNat a := by decide
  exact all a ha

theorem lead_four (ha : a < 8) :
    (UInt8.ofNat (a + 0xF0) &&& 128 == 0) = false ∧ (UInt8.ofNat (a + 0xF0) &&& 32 == 0) = false ∧
      (UInt8.ofNat (a + 0xF0) &&& 16 == 0) = false ∧ (UInt8.ofNat (a + 0xF0) &&& 8 == 0) = true ∧
      (UInt8.ofNat (a + 0xF0) &&& 0x7).toUInt32 = UInt32.ofNat a := by
  have all : ∀ a < 8, (UInt8.ofNat (a + 0xF0) &&& 128 == 0) = false ∧
      (UInt8.ofNat (a + 0xF0) &&& 32 == 0) = false ∧
      (UInt8.ofNat (a + 0xF0) &&& 16 == 0) = false ∧
      (UInt8.ofNat (a + 0xF0) &&& 8 == 0) = true ∧
      (UInt8.ofNat (a + 0xF0) &&& 0x7).toUInt32 = UInt32.ofNat a := by decide
  exact all a ha

/-- One call reads one form, whichever it is. -/
theorem ssfnUtf8_spells (h : Spells v bs) (hy : Yields s.mem p bs) :
    Observes s p bs.length (ssfnUtf8 p) (UInt32.ofNat v, p.add bs.length) := by
  cases h with
  | one ha =>
      obtain ⟨hsingle, hvalue⟩ := lead_one ha
      refine (observes_first hy).bind ?_
      refine (observes_test hy hsingle).bind ?_
      rw [← hvalue]
      exact observes_pure _
  | two ha hb =>
      obtain ⟨hsingle, htwo, hlead⟩ := lead_two ha
      have hsecond := observes_masked hy (i := 1) rfl (trailing_bits hb)
      refine (observes_first hy).bind ?_
      refine (observes_test hy hsingle).bind ((observes_test hy htwo).bind ?_)
      refine (observes_lead hy hlead).bind (hsecond.bind ?_)
      rw [append_bits hb, Ptr.add_add]
      exact observes_pure _
  | three ha hb hc =>
      obtain ⟨hsingle, htwo, hthree, hlead⟩ := lead_three ha
      have hsecond := observes_masked hy (i := 1) rfl (trailing_bits hb)
      have hthird := observes_masked hy (i := 2) rfl (trailing_bits hc)
      refine (observes_first hy).bind ?_
      refine (observes_test hy hsingle).bind ((observes_test hy htwo).bind ?_)
      refine (observes_test hy hthree).bind ?_
      refine (observes_lead hy hlead).bind (hsecond.bind (hthird.bind ?_))
      rw [three_bits hb hc, Ptr.add_add]
      exact observes_pure _
  | four ha hb hc hd =>
      obtain ⟨hsingle, htwo, hthree, hfour, hlead⟩ := lead_four ha
      have hsecond := observes_masked hy (i := 1) rfl (trailing_bits hb)
      have hthird := observes_masked hy (i := 2) rfl (trailing_bits hc)
      have hfourth := observes_masked hy (i := 3) rfl (trailing_bits hd)
      refine (observes_first hy).bind ?_
      refine (observes_test hy hsingle).bind ((observes_test hy htwo).bind ?_)
      refine (observes_test hy hthree).bind ((observes_test hy hfour).bind ?_)
      refine (observes_lead hy hlead).bind (hsecond.bind (hthird.bind (hfourth.bind ?_)))
      rw [four_bits hb hc hd, Ptr.add_add]
      exact observes_pure _

/-- A text in any forms is read form by form, and the pointer ends behind it. -/
theorem ssfnUtf8Calls_spells (forms : List (Nat × List UInt8))
    (h : ∀ e ∈ forms, Spells e.1 e.2) (hy : Yields s.mem p (forms.flatMap Prod.snd)) :
    Observes s p (forms.flatMap Prod.snd).length (ssfnUtf8Calls forms.length p)
      (forms.map fun e => UInt32.ofNat e.1, p.add (forms.flatMap Prod.snd).length) := by
  induction forms generalizing p with
  | nil =>
      rw [List.flatMap_nil, List.length_nil, Ptr.add_zero]
      exact observes_pure _
  | cons e forms ih =>
      rw [List.flatMap_cons] at hy ⊢
      obtain ⟨hfirst, hrest⟩ := hy.append
      have hcall := ssfnUtf8_spells (h e (List.mem_cons_self ..)) hfirst
      have hcalls := ih (fun e' he' => h e' (List.mem_cons_of_mem _ he')) hrest
      rw [List.length_append]
      rw [Ptr.add_add] at hcalls
      exact (hcall.longer (Nat.le_add_right _ _)).bind
        (hcalls.before.bind (observes_pure _))

theorem spells_utf8 (c : Char) : Spells c.val.toNat (String.utf8EncodeChar c) := by
  have hlt : c.val.toNat < 0x110000 := by
    rcases c.valid with h | ⟨-, h⟩
    · exact Nat.lt_trans h (by decide)
    · exact h
  simp only [String.utf8EncodeChar]
  generalize c.val.toNat = v at hlt ⊢
  by_cases hone : v ≤ 0x7f
  · rw [if_pos hone]
    exact .one (by omega)
  by_cases htwo : v ≤ 0x7ff
  · have h := Spells.two (a := v / 64 % 32) (b := v % 64) (by omega) (by omega)
    have hv : 64 * (v / 64 % 32) + v % 64 = v := by omega
    rw [if_neg hone, if_pos htwo]
    rwa [hv] at h
  by_cases hthree : v ≤ 0xffff
  · have h := Spells.three (a := v / 4096 % 16) (b := v / 64 % 64) (c := v % 64) (by omega)
      (by omega) (by omega)
    have hv : 64 * (64 * (v / 4096 % 16) + v / 64 % 64) + v % 64 = v := by omega
    rw [if_neg hone, if_neg htwo, if_pos hthree]
    rwa [hv] at h
  · have h := Spells.four (a := v / 262144 % 8) (b := v / 4096 % 64) (c := v / 64 % 64)
      (d := v % 64) (by omega) (by omega) (by omega) (by omega)
    have hv : 64 * (64 * (64 * (v / 262144 % 8) + v / 4096 % 64) + v / 64 % 64) + v % 64 = v := by
      omega
    rw [if_neg hone, if_neg htwo, if_neg hthree]
    rwa [hv] at h

end Calls

/-- The text at the head of a string, read back character by character from its UTF-8: the
values are the characters', no byte behind the text has been looked at and the pointer ends
on what follows it. -/
theorem ssfnUtf8_reads_text {s : Machine} {p : Pointer} {text : List Char} {rest : List UInt8}
    (h : CString s.mem p (text.flatMap String.utf8EncodeChar ++ rest)) :
    ∃ qs p', (ssfnUtf8Calls text.length p).Returns s (text.map Char.val, p') (s.reading qs) ∧
      CString s.mem p' rest ∧
      ∀ q ∈ qs, ∃ i, i < (text.flatMap String.utf8EncodeChar).length ∧ q = p.add i := by
  let forms := text.map fun c => (c.val.toNat, String.utf8EncodeChar c)
  have hbytes : forms.flatMap Prod.snd = text.flatMap String.utf8EncodeChar :=
    List.flatMap_map ..
  have hvalues : forms.map (fun e => UInt32.ofNat e.1) = text.map Char.val := by
    rw [List.map_map]
    exact List.map_congr_left fun c _ => UInt32.ofNat_toNat
  have hforms : ∀ e ∈ forms, Spells e.1 e.2 := by
    intro e he
    obtain ⟨c, -, rfl⟩ := List.mem_map.mp he
    exact spells_utf8 c
  have hall := ssfnUtf8Calls_spells forms hforms (hbytes ▸ h.yields)
  rw [hbytes, hvalues, List.length_map] at hall
  obtain ⟨qs, hqs, hreturns⟩ := hall []
  rw [Machine.reading_nil, List.nil_append] at hreturns
  exact ⟨qs, _, hreturns, h.drop, hqs⟩

/-- One character of each length. -/
theorem ssfnUtf8_reads_text_lengths :
    ∃ qs p', (ssfnUtf8Calls 4 (.lit ("aé€😀".toList.flatMap String.utf8EncodeChar) 0)).Returns
        Machine.reset ([97, 233, 8364, 128512], p') (Machine.reset.reading qs) ∧
      CString Machine.reset.mem p' [] := by
  have h := cstring_lit Machine.reset.mem ("aé€😀".toList.flatMap String.utf8EncodeChar)
    (by decide)
  rw [← List.append_nil ("aé€😀".toList.flatMap String.utf8EncodeChar)] at h
  obtain ⟨qs, p', hreturns, hrest, -⟩ := ssfnUtf8_reads_text h
  exact ⟨qs, p', hreturns, hrest⟩

end BenchOS
