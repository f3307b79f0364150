import BenchOS.Debug
import BenchOS.Library.Numeral

/-!
What `toHexString` writes. The number of digits comes from a shift loop and the
digits from a division loop; both are met by Mathlib's digit list.

For zero the function has already moved its result pointer when it goes on into
the general path, which writes a second digit: the text of zero is `00`.
-/
namespace BenchOS

/-- The sixteen digits by their values. -/
def alphabet : List UInt8 := bytes "0123456789abcdef"

def hexChar (d : Nat) : UInt8 := alphabet.getD d 0

/-- The characters `toHexString` leaves before the terminator. -/
def hexText (n : Nat) : List UInt8 :=
  if n = 0 then [hexChar 0, hexChar 0] else (Nat.digits 16 n).reverse.map hexChar

def hexValue (text : List UInt8) : Nat := Numeral.value 16 (text.map (alphabet.idxOf ·))

/-- The value of a digit; other characters have none. -/
def digitOf (c : UInt8) : Option Nat := if c ∈ alphabet then some (alphabet.idxOf c) else none

/-- Every event is a store to one of the `n` bytes from `l` on. -/
def WritesOnly (l : Location) (n : Nat) (t : List BusEvent) : Prop :=
  ∀ e ∈ t, ∃ i c, i < n ∧ e = .write (l.add i) c

theorem WritesOnly.mono {l : Location} {n m : Nat} {t : List BusEvent}
    (h : WritesOnly l n t) (hn : n ≤ m) : WritesOnly l m t := by
  intro e he
  obtain ⟨i, c, hi, hc⟩ := h e he
  exact ⟨i, c, by omega, hc⟩

theorem WritesOnly.append {l : Location} {n : Nat} {t u : List BusEvent}
    (h : WritesOnly l n t) (k : WritesOnly l n u) : WritesOnly l n (t ++ u) := by
  intro e he
  cases List.mem_append.mp he with
  | inl he => exact h e he
  | inr he => exact k e he

theorem WritesOnly.shift {l : Location} {k n : Nat} {t : List BusEvent}
    (h : WritesOnly (l.add k) n t) : WritesOnly l (k + n) t := by
  intro e he
  obtain ⟨i, c, hi, hc⟩ := h e he
  exact ⟨k + i, c, by omega, by simpa using hc⟩

theorem writesOnly_write (l : Location) {i n : Nat} (hi : i < n) (c : UInt8) :
    WritesOnly l n [.write (l.add i) c] := by
  intro e he
  exact ⟨i, c, hi, List.mem_singleton.mp he⟩

theorem hexDigits_eq : hexDigits = alphabet := rfl

theorem hexChar_mem {d : Nat} (h : d < 16) : hexChar d ∈ alphabet := by
  have all : ∀ d < 16, hexChar d ∈ alphabet := by decide
  exact all d h

theorem idxOf_hexChar {d : Nat} (h : d < 16) : alphabet.idxOf (hexChar d) = d := by
  have all : ∀ d < 16, alphabet.idxOf (hexChar d) = d := by decide
  exact all d h

theorem digits_lt {n d : Nat} (h : d ∈ (Nat.digits 16 n).reverse) : d < 16 :=
  Nat.digits_lt_base (by omega) (List.mem_reverse.mp h)

theorem hexText_mem {n : Nat} {c : UInt8} (h : c ∈ hexText n) : c ∈ alphabet := by
  unfold hexText at h
  split at h
  · have hc : c = hexChar 0 := by simpa using h
    exact hc ▸ hexChar_mem (by omega)
  · obtain ⟨d, hd, rfl⟩ := List.mem_map.mp h
    exact hexChar_mem (digits_lt hd)

theorem hexText_noNul (n : Nat) : 0 ∉ hexText n := fun h =>
  absurd (hexText_mem h) (by decide)

theorem hexChar_idxOf {c : UInt8} (h : c ∈ alphabet) : hexChar (alphabet.idxOf c) = c := by
  have all : alphabet.all fun c => hexChar (alphabet.idxOf c) = c := by decide
  simpa using List.all_eq_true.mp all c h

theorem map_idxOf_hexText {n : Nat} (hn : n ≠ 0) :
    (hexText n).map (alphabet.idxOf ·) = (Nat.digits 16 n).reverse := by
  rw [hexText, if_neg hn, List.map_map]
  conv_rhs => rw [← List.map_id (Nat.digits 16 n).reverse]
  exact List.map_congr_left fun d hd => idxOf_hexChar (digits_lt hd)

theorem hexValue_hexText (n : Nat) : hexValue (hexText n) = n := by
  by_cases hn : n = 0
  · subst hn
    decide
  · rw [hexValue, map_idxOf_hexText hn, Numeral.value_digits]

theorem hexText_injective {n m : Nat} (h : hexText n = hexText m) : n = m := by
  rw [← hexValue_hexText n, h, hexValue_hexText]

theorem length_hexText {n : Nat} (hn : n ≠ 0) :
    (hexText n).length = (Nat.log 2 n + 4) / 4 := by
  have h := Numeral.length_digits_two_pow (j := 4) (by omega) hn
  simp only [hexText, hn, if_false, List.length_map, List.length_reverse]
  rw [show (16 : Nat) = 2 ^ 4 from rfl, h]
  omega

theorem hexText_length_pos (n : Nat) : 0 < (hexText n).length := by
  by_cases hn : n = 0
  · simp [hexText, hn]
  · rw [length_hexText hn]
    omega

theorem hexText_length_le {n : Nat} (h : n < 2 ^ 64) : (hexText n).length ≤ 16 := by
  by_cases hn : n = 0
  · simp [hexText, hn]
  · have hlog : Nat.log 2 n < 64 := Nat.log_lt_of_lt_pow hn h
    rw [length_hexText hn]
    omega

theorem log2_loop (s : Machine) (k : Nat) (val n : UInt64) (hk : n.toNat ≤ k) :
    (Prog.loop log2Turn (val, n)).Returns s (val + UInt64.ofNat (Nat.log 2 n.toNat)) s := by
  induction k generalizing val n with
  | zero =>
      have hn : n = 0 := by simpa [← UInt64.toNat_inj] using hk
      subst hn
      have hturn : (log2Turn (val, 0)).Returns s (.leave val) s := .of_forall fun _ => rfl
      simpa using Prog.loop_leave hturn
  | succ k ih =>
      by_cases h : n > 1
      · have hturn : (log2Turn (val, n)).Returns s (.again (val + 1, n >>> 1)) s :=
          .of_forall fun _ => by simp [log2Turn, h]
        have hlt : 1 < n.toNat := by simpa [UInt64.lt_iff_toNat_lt] using h
        have hhalf : (n >>> 1).toNat = n.toNat / 2 := by
          simp [UInt64.toNat_shiftRight, Nat.shiftRight_eq_div_pow]
        have hlog : Nat.log 2 n.toNat = Nat.log 2 (n.toNat / 2) + 1 :=
          Nat.log_of_one_lt_of_le (by omega) (by omega)
        have rest := ih (val + 1) (n >>> 1) (by omega)
        rw [hhalf] at rest
        have hval : val + 1 + UInt64.ofNat (Nat.log 2 (n.toNat / 2)) =
            val + UInt64.ofNat (Nat.log 2 n.toNat) := by
          rw [hlog, UInt64.ofNat_add]
          grind
        exact Prog.loop_again hturn (hval ▸ rest)
      · have hturn : (log2Turn (val, n)).Returns s (.leave val) s :=
          .of_forall fun _ => by simp [log2Turn, h]
        have hle : n.toNat ≤ 1 := by simpa [UInt64.lt_iff_toNat_lt] using h
        have hlog : Nat.log 2 n.toNat = 0 := Nat.log_of_lt (by omega)
        simpa [hlog] using Prog.loop_leave hturn

theorem log2_returns (n : UInt64) (s : Machine) :
    (log2 n).Returns s (UInt64.ofNat (Nat.log 2 n.toNat)) s := by
  simpa [log2] using log2_loop s n.toNat 0 n (Nat.le_refl _)

/-- The digit loop stores the last `k` digits, whatever the number. -/
theorem hexDigit_loop (result : Location) (k : Nat) (hk : k < 2 ^ 64) (num : UInt64)
    (s : Machine) :
    ∃ t, WritesOnly result k t ∧
      (Prog.loop (hexDigitTurn result) ((k : Int) - 1, num)).Returns s ()
        { s with
          mem := s.mem.blit result ((Numeral.lastDigits 16 k num.toNat).map hexChar)
          bus := s.bus ++ t } := by
  induction k generalizing num s with
  | zero =>
      refine ⟨[], by simp [WritesOnly], ?_⟩
      apply Prog.loop_leave
      exact .of_forall fun _ => by simp [hexDigitTurn, Numeral.lastDigits]
  | succ k ih =>
      let c := hexChar (num.toNat % 16)
      let s' : Machine :=
        { s with
          mem := Function.update s.mem (result.add k) c
          bus := s.bus ++ [.write (result.add k) c] }
      have hturn : (hexDigitTurn result (((k + 1 : Nat) : Int) - 1, num)).Returns s
          (.again ((k : Int) - 1, num / 16)) s' :=
        .of_forall fun _ => by simp [hexDigitTurn, store, s', c, hexChar, hexDigits_eq]
      obtain ⟨t, ht, rest⟩ := ih (by omega) (num / 16) s'
      refine ⟨[.write (result.add k) c] ++ t,
        (writesOnly_write result (by omega) c).append (ht.mono (by omega)), ?_⟩
      · have hlen : ((Numeral.lastDigits 16 k (num.toNat / 16)).map hexChar).length = k := by
          simp
        have hmem : s'.mem.blit result ((Numeral.lastDigits 16 k (num / 16).toNat).map hexChar) =
            s.mem.blit result ((Numeral.lastDigits 16 (k + 1) num.toNat).map hexChar) := by
          have h := s.mem.blit_blit_before result
            ((Numeral.lastDigits 16 k (num.toNat / 16)).map hexChar) [c] (by simp; omega)
          rw [hlen, Mem.blit_singleton] at h
          simpa [Numeral.lastDigits, s', c] using h
        apply Prog.loop_again hturn
        rw [hmem] at rest
        simpa [s'] using rest

theorem writeDigits_returns (num : UInt64) (result : Location) (s : Machine) :
    let k := (Nat.log 2 num.toNat + 4) / 4
    ∃ t, WritesOnly result (k + 1) t ∧
      (writeDigits num result).Returns s ()
        { s with
          mem := s.mem.blit result ((Numeral.lastDigits 16 k num.toNat).map hexChar ++ [0])
          bus := s.bus ++ t } := by
  intro k
  have hlog : Nat.log 2 num.toNat < 64 := by
    by_cases hn : num.toNat = 0
    · simp [hn]
    · exact Nat.log_lt_of_lt_pow hn (UInt64.toNat_lt num)
  have hk : k ≤ 16 := by omega
  obtain ⟨t, ht, hloop⟩ := hexDigit_loop result k (by omega) num s
  refine ⟨t ++ [.write (result.add k) 0],
    (ht.mono (by omega)).append (writesOnly_write result (by omega) 0), ?_⟩
  · have hbits : (UInt64.ofNat (Nat.log 2 num.toNat)).toNat = Nat.log 2 num.toNat := by
      simp only [UInt64.toNat_ofNat']
      omega
    apply (log2_returns num s).bind
    rw [hbits]
    apply hloop.bind
    have hmem := s.mem.blit_blit result
      ((Numeral.lastDigits 16 k num.toNat).map hexChar) [0] (by simp; omega)
    rw [Mem.blit_singleton] at hmem
    apply Prog.Ends.of_forall
    intro _
    simp only [store, Prog.modify_apply, ← hmem]
    simp [k]

theorem toHexString_zero (result : Location) (s : Machine) :
    ∃ t, WritesOnly result 17 t ∧
      (toHexString 0 result).Returns s ()
        { s with mem := s.mem.blit result (hexText 0 ++ [0]), bus := s.bus ++ t } := by
  have first := store_returns result (hexChar 0) s
  have second := store_returns (result.add 1) 0
    { s with
      mem := Function.update s.mem result (hexChar 0)
      bus := s.bus ++ [.write result (hexChar 0)] }
  obtain ⟨t, ht, hrest⟩ := writeDigits_returns 0 (result.add 1)
    { s with
      mem := Function.update (Function.update s.mem result (hexChar 0)) (result.add 1) 0
      bus := s.bus ++ [.write result (hexChar 0)] ++ [.write (result.add 1) 0] }
  refine ⟨[.write (result.add 0) (hexChar 0)] ++ [.write (result.add 1) 0] ++ t, ?_, ?_⟩
  · exact ((writesOnly_write result (by omega) _).append
      (writesOnly_write result (by omega) 0)).append (ht.shift.mono (by simp))
  · -- The general path stores its one digit over the first terminator.
    have hover : Mem.blit (Function.update (Function.update s.mem result (hexChar 0))
        (result.add 1) 0) (result.add 1) [hexChar 0, 0] =
        s.mem.blit result (hexText 0 ++ [0]) := by
      rw [← Mem.blit_singleton, ← Mem.blit_singleton, Mem.blit_over _ _ (by simp)]
      exact s.mem.blit_blit result [hexChar 0] [hexChar 0, 0] (by simp)
    refine first.bind (second.bind ?_)
    have hone : (Numeral.lastDigits 16 1 0).map hexChar ++ [0] = [hexChar 0, 0] := rfl
    simp only [UInt64.toNat_zero, Nat.log_zero_right, Nat.zero_add, Nat.reduceDiv, hone,
      hover] at hrest
    simpa [List.append_assoc] using hrest

theorem lastDigits_hexText {n : Nat} (hn : n ≠ 0) :
    (Numeral.lastDigits 16 ((Nat.log 2 n + 4) / 4) n).map hexChar = hexText n := by
  have hcount : (Nat.digits 16 n).length = (Nat.log 2 n + 4) / 4 := by
    simpa [hexText, hn] using length_hexText hn
  rw [Numeral.lastDigits_eq_digits (by omega) hcount, hexText, if_neg hn]

theorem toHexString_returns (num : UInt64) (result : Location) (s : Machine) :
    ∃ t, WritesOnly result 17 t ∧
      (toHexString num result).Returns s ()
        { s with
          mem := s.mem.blit result (hexText num.toNat ++ [0])
          bus := s.bus ++ t } := by
  by_cases h : num = 0
  · subst h
    exact toHexString_zero result s
  · obtain ⟨t, ht, hrest⟩ := writeDigits_returns num result s
    have hn : num.toNat ≠ 0 := by simpa [← UInt64.toNat_inj] using h
    have hlen := length_hexText hn
    have hle := hexText_length_le (UInt64.toNat_lt num)
    refine ⟨t, ht.mono (by omega), ?_⟩
    rw [lastDigits_hexText hn] at hrest
    simpa [toHexString, h] using hrest

theorem toHexString_writes (num : UInt64) (result : Location) (s : Machine) :
    ∃ s', (toHexString num result).Returns s () s' ∧
      CString s'.mem (.loc result) (hexText num.toNat) ∧ s'.junk = s.junk := by
  obtain ⟨t, -, hreturns⟩ := toHexString_returns num result s
  have hle := hexText_length_le (UInt64.toNat_lt num)
  exact ⟨_, hreturns, cstring_blit s.mem result _ (hexText_noNul _) (by omega), rfl⟩

/-- `toHexString` ends, stores only into the 17 bytes from `result` on and leaves
there a string of 1 to 16 hexadecimal digits whose value is the number. -/
theorem toHexString_correct :
    ∃ text : UInt64 → List UInt8, Function.Injective text ∧
      ∀ (num : UInt64) (result : Location) (s : Machine), ∃ s' t,
        (toHexString num result).Returns s () s' ∧
        s'.bus = s.bus ++ t ∧ WritesOnly result 17 t ∧
        (∀ l, ¬ result.Covers 17 l → s'.mem l = s.mem l) ∧
        CString s'.mem (.loc result) (text num) ∧
        1 ≤ (text num).length ∧ (text num).length ≤ 16 ∧
        (∀ c ∈ text num, c ∈ alphabet) ∧ hexValue (text num) = num.toNat := by
  refine ⟨fun num => hexText num.toNat, ?_, ?_⟩
  · intro a b h
    exact UInt64.toNat_inj.mp (hexText_injective h)
  · intro num result s
    have hle := hexText_length_le (UInt64.toNat_lt num)
    obtain ⟨t, ht, hreturns⟩ := toHexString_returns num result s
    refine ⟨_, t, hreturns, rfl, ht, ?_, ?_, hexText_length_pos _, hle,
      fun c hc => hexText_mem hc, hexValue_hexText _⟩
    · intro l hl
      exact s.mem.blit_outside result fun hc => hl (Loc.covers_mono hc (by simp; omega))
    · exact cstring_blit s.mem result _ (hexText_noNul _) (by omega)

end BenchOS
