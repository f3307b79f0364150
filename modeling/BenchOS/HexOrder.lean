import BenchOS.HexText

/-!
The texts of `toHexString` in shortlex order. They are numerals without a leading zero
and are ordered as their numbers are, except for zero: its text `00` comes after the
texts of one character.
-/
namespace BenchOS

theorem hexChar_lt {d e : Nat} (hd : d < 16) (he : e < 16) (h : d < e) :
    hexChar d < hexChar e := by
  have all : ∀ d < 16, ∀ e < 16, d < e → hexChar d < hexChar e := by decide
  exact all d hd e he h

theorem shortlex_hexChars {as bs : List Nat} (h : List.Shortlex (· < ·) as bs)
    (ha : ∀ d ∈ as, d < 16) (hb : ∀ d ∈ bs, d < 16) :
    List.Shortlex (· < ·) (as.map hexChar) (bs.map hexChar) :=
  Numeral.shortlex_map (fun _ _ hd he h => hexChar_lt hd he h) h ha hb

theorem shortlex_hexText {n m : Nat} (hn : n ≠ 0) (h : n < m) :
    List.Shortlex (· < ·) (hexText n) (hexText m) := by
  rw [hexText, hexText, if_neg hn, if_neg (by omega)]
  exact shortlex_hexChars (Numeral.shortlex_digits (by omega) h) (fun d hd => digits_lt hd)
    fun d hd => digits_lt hd

/-- The text of zero comes before the texts of two and more characters only. -/
theorem shortlex_hexText_zero {m : Nat} (hm : 0 < m) :
    List.Shortlex (· < ·) (hexText 0) (hexText m) ↔ 16 ≤ m := by
  have hlen := length_hexText (n := m) (by omega)
  have hzero : (hexText 0).length = 2 := rfl
  constructor
  · intro h
    by_contra hsmall
    have hlog : Nat.log 2 m < 4 := Nat.log_lt_of_lt_pow (by omega) (by omega)
    cases List.shortlex_def.mp h with
    | inl hlt => omega
    | inr hlex => omega
  · intro hlarge
    have hlog : 4 ≤ Nat.log 2 m := Nat.le_log_of_pow_le (by omega) hlarge
    cases Nat.lt_or_eq_of_le (show 2 ≤ (hexText m).length by omega) with
    | inl hlt => exact .of_length_lt (by omega)
    | inr heq =>
        -- With two characters on both sides the first decides.
        obtain ⟨d, ds, hcons, hd⟩ := Numeral.exists_lead (b := 16) (n := m) (by omega)
        have hlt : d < 16 := digits_lt (hcons ▸ List.mem_cons_self)
        have htext : hexText m = hexChar d :: ds.map hexChar := by
          rw [hexText, if_neg (by omega), hcons, List.map_cons]
        apply List.Shortlex.of_lex (by omega)
        rw [htext]
        exact .rel (hexChar_lt (by omega) hlt (by omega))

theorem hexText_lead_iff (n : Nat) :
    ((hexText n).head? = some '0'.toUInt8 → hexText n = bytes "0") ↔ n ≠ 0 := by
  by_cases hn : n = 0
  · subst hn
    decide
  · obtain ⟨d, ds, hcons, hd⟩ := Numeral.exists_lead (b := 16) hn
    have hlt : d < 16 := digits_lt (hcons ▸ List.mem_cons_self)
    have hzero : '0'.toUInt8 < hexChar d := hexChar_lt (d := 0) (by omega) hlt (by omega)
    have hhead : (hexText n).head? = some (hexChar d) := by
      rw [hexText, if_neg hn, hcons]
      rfl
    rw [hhead]
    refine ⟨fun _ => hn, fun _ h => ?_⟩
    rw [Option.some.injEq] at h
    exact absurd (h ▸ hzero) (UInt8.lt_irrefl _)

/-- The text of the smaller number comes first exactly when the two are not 0 and a number
of one digit. A text begins with 0 without being `0` exactly when it is the text of 0. -/
theorem toHexString_order (a b : UInt64) (resultA resultB : Location) (s s' : Machine) :
    ∃ sa sb textA textB, (toHexString a resultA).Returns s () sa ∧
      CString sa.mem (.loc resultA) textA ∧ (toHexString b resultB).Returns s' () sb ∧
      CString sb.mem (.loc resultB) textB ∧
      ((a < b → List.Shortlex (· < ·) textA textB) ↔ ¬ (a = 0 ∧ 0 < b ∧ b < 16)) ∧
      ((textA.head? = some '0'.toUInt8 → textA = bytes "0") ↔ a ≠ 0) := by
  obtain ⟨sa, hwriteA, htextA, -⟩ := toHexString_writes a resultA s
  obtain ⟨sb, hwriteB, htextB, -⟩ := toHexString_writes b resultB s'
  have hzero : a = 0 ↔ a.toNat = 0 := UInt64.toNat_inj.symm
  refine ⟨sa, sb, _, _, hwriteA, htextA, hwriteB, htextB, ?_, ?_⟩
  · by_cases ha : a.toNat = 0
    · rw [hzero, ha]
      simp only [UInt64.lt_iff_toNat_lt, ha, UInt64.reduceToNat, true_and, not_and, not_lt]
      constructor
      · intro h hb
        exact (shortlex_hexText_zero hb).mp (h hb)
      · intro h hb
        exact (shortlex_hexText_zero hb).mpr (h hb)
    · refine ⟨fun _ h => ha (hzero.mp h.1), fun _ h => ?_⟩
      exact shortlex_hexText ha (UInt64.lt_iff_toNat_lt.mp h)
  · rw [hexText_lead_iff, ne_eq, ne_eq, hzero]

theorem toHexString_zero_after_one :
    ∃ s₀ s₁, (toHexString 0 numHex).Returns Machine.reset () s₀ ∧
      CString s₀.mem (.loc numHex) (bytes "00") ∧
      (toHexString 1 numHex).Returns Machine.reset () s₁ ∧
      CString s₁.mem (.loc numHex) (bytes "1") ∧
      ¬ List.Shortlex (· < ·) (bytes "00") (bytes "1") := by
  obtain ⟨s₀, hwrite₀, htext₀, -⟩ := toHexString_writes 0 numHex Machine.reset
  obtain ⟨s₁, hwrite₁, htext₁, -⟩ := toHexString_writes 1 numHex Machine.reset
  refine ⟨s₀, s₁, hwrite₀, htext₀, hwrite₁, htext₁, ?_⟩
  rw [List.shortlex_def]
  rintro (hlt | ⟨heq, -⟩)
  · exact absurd hlt (by decide)
  · exact absurd heq (by decide)

end BenchOS
