import Mathlib.Data.List.Shortlex
import Mathlib.Data.Nat.Digits.Lemmas
import Mathlib.Data.Nat.Log
import Mathlib.Tactic.Common

/-!
Positional numerals written most significant digit first, over Mathlib's digit
lists (which start with the least significant one), and how the order of numbers
shows in them: digit by digit, and by length when no numeral begins with 0.
-/
namespace Numeral

/-- The last `k` digits of `n`, the most significant first. -/
def lastDigits (b : Nat) : Nat → Nat → List Nat
  | 0, _ => []
  | k + 1, n => lastDigits b k (n / b) ++ [n % b]

/-- The number a digit list stands for, the most significant digit first. -/
def value (b : Nat) (ds : List Nat) : Nat := Nat.ofDigits b ds.reverse

@[simp] theorem length_lastDigits (b k n : Nat) : (lastDigits b k n).length = k := by
  induction k generalizing n with
  | zero => rfl
  | succ k ih => simp [lastDigits, ih]

theorem lastDigits_eq_digits {b : Nat} (hb : 1 < b) {k n : Nat}
    (h : (Nat.digits b n).length = k) : lastDigits b k n = (Nat.digits b n).reverse := by
  induction k generalizing n with
  | zero => simp [lastDigits, List.length_eq_zero_iff.mp h]
  | succ k ih =>
      have hn : n ≠ 0 := by
        intro hzero
        subst hzero
        simp at h
      have hds := Nat.digits_eq_cons_digits_div hb hn
      rw [hds, List.length_cons, Nat.add_right_cancel_iff] at h
      rw [lastDigits, ih h, hds, List.reverse_cons]

@[simp] theorem value_nil (b : Nat) : value b [] = 0 := rfl

theorem value_cons (b d : Nat) (ds : List Nat) :
    value b (d :: ds) = d * b ^ ds.length + value b ds := by
  simp [value, Nat.ofDigits_append, Nat.add_comm, Nat.mul_comm]

/-- A numeral that does not begin with 0 has at least the weight of its first place. -/
theorem pow_le_value {b d : Nat} (hd : d ≠ 0) (ds : List Nat) :
    b ^ ds.length ≤ value b (d :: ds) := by
  rw [value_cons]
  have hone : 1 * b ^ ds.length ≤ d * b ^ ds.length :=
    Nat.mul_le_mul_right _ (Nat.one_le_iff_ne_zero.mpr hd)
  omega

theorem value_append (b : Nat) (as bs : List Nat) :
    value b (as ++ bs) = value b as * b ^ bs.length + value b bs := by
  simp [value, Nat.ofDigits_append, Nat.add_comm, Nat.mul_comm]

theorem value_lt_pow {b : Nat} (hb : 1 < b) {ds : List Nat} (h : ∀ d ∈ ds, d < b) :
    value b ds < b ^ ds.length := by
  have hlt := Nat.ofDigits_lt_base_pow_length hb (l := ds.reverse)
    fun d hd => h d (List.mem_reverse.mp hd)
  simpa [value] using hlt

/-- Two texts of one length with one value are the same. -/
theorem value_inj {b : Nat} (hb : 1 < b) {as bs : List Nat} (hlen : as.length = bs.length)
    (ha : ∀ d ∈ as, d < b) (hbs : ∀ d ∈ bs, d < b) (h : value b as = value b bs) : as = bs := by
  have hrev := Nat.ofDigits_inj_of_len_eq hb (by simpa using hlen)
    (fun d hd => ha d (List.mem_reverse.mp hd)) (fun d hd => hbs d (List.mem_reverse.mp hd)) h
  exact List.reverse_injective hrev

theorem value_digits (b n : Nat) : value b (Nat.digits b n).reverse = n := by
  rw [value, List.reverse_reverse, Nat.ofDigits_digits]

theorem length_digits_two_pow {j n : Nat} (hj : 0 < j) (hn : n ≠ 0) :
    (Nat.digits (2 ^ j) n).length = Nat.log 2 n / j + 1 := by
  rw [Nat.length_digits _ _ (Nat.one_lt_two_pow (by omega)) hn, Nat.log_pow_left]

/-- The numeral of a number other than 0 does not begin with 0. -/
theorem exists_lead {b n : Nat} (hn : n ≠ 0) :
    ∃ d ds, (Nat.digits b n).reverse = d :: ds ∧ d ≠ 0 := by
  obtain ⟨d, ds, hcons⟩ : ∃ d ds, (Nat.digits b n).reverse = d :: ds :=
    List.exists_cons_of_ne_nil (by simpa [Nat.digits_eq_nil_iff_eq_zero] using hn)
  have hback : Nat.digits b n = ds.reverse ++ [d] := by
    rw [← List.reverse_cons, ← hcons, List.reverse_reverse]
  have hlast := Nat.getLast_digit_ne_zero b hn
  refine ⟨d, ds, hcons, ?_⟩
  simpa only [hback, List.getLast_append_singleton] using hlast

section Order
variable {b : Nat}

/-- The front decides between two numerals unless it is the same number in both. -/
theorem sign_append (hb : 1 < b) (as as' : List Nat) {bs bs' : List Nat}
    (hlen : bs.length = bs'.length) (h : ∀ d ∈ bs, d < b) (h' : ∀ d ∈ bs', d < b) :
    Int.sign ((value b (as ++ bs) : Int) - value b (as' ++ bs')) =
      if value b as = value b as' then Int.sign ((value b bs : Int) - value b bs')
      else Int.sign ((value b as : Int) - value b as') := by
  have hlt := value_lt_pow hb h
  have hlt' := value_lt_pow hb h'
  rw [value_append, value_append, hlen]
  rw [hlen] at hlt
  generalize value b as = x, value b as' = y, value b bs = u, value b bs' = v,
    b ^ bs'.length = w at *
  split
  · rename_i heq
    rw [heq]
    congr 1
    push_cast
    ring
  · rename_i hne
    cases Nat.lt_or_gt_of_ne hne with
    | inl hxy =>
        have hstep : (x + 1) * w ≤ y * w := Nat.mul_le_mul_right w hxy
        rw [Nat.succ_mul] at hstep
        rw [Int.sign_eq_neg_one_of_neg (by omega), Int.sign_eq_neg_one_of_neg (by omega)]
    | inr hxy =>
        have hstep : (y + 1) * w ≤ x * w := Nat.mul_le_mul_right w hxy
        rw [Nat.succ_mul] at hstep
        rw [Int.sign_eq_one_of_pos (by omega), Int.sign_eq_one_of_pos (by omega)]

theorem value_cons_lt_iff (hb : 1 < b) {x y : Nat} {as bs : List Nat} (hlen : as.length = bs.length)
    (ha : ∀ d ∈ as, d < b) (hbs : ∀ d ∈ bs, d < b) :
    value b (x :: as) < value b (y :: bs) ↔ x < y ∨ x = y ∧ value b as < value b bs := by
  have hone : ∀ d, value b [d] = d := fun d => by simp [value]
  have hsign := sign_append hb [x] [y] hlen ha hbs
  rw [List.singleton_append, List.singleton_append, hone, hone] at hsign
  have hneg : ∀ u v : Nat, u < v ↔ Int.sign ((u : Int) - v) = -1 := by
    intro u v
    rw [Int.sign_eq_neg_one_iff_neg]
    omega
  rw [hneg (value b (x :: as)), hsign, hneg (value b as)]
  split
  · rename_i heq
    simp [heq]
  · rename_i hne
    rw [← hneg]
    simp [hne]

theorem lex_iff_value_lt (hb : 1 < b) {as bs : List Nat} (hlen : as.length = bs.length)
    (ha : ∀ d ∈ as, d < b) (hbs : ∀ d ∈ bs, d < b) :
    List.Lex (· < ·) as bs ↔ value b as < value b bs := by
  induction as generalizing bs with
  | nil =>
      obtain rfl := List.length_eq_zero_iff.mp hlen.symm
      simp
  | cons x as ih =>
      cases bs with
      | nil => simp at hlen
      | cons y bs =>
          have hlen' : as.length = bs.length := by simpa using hlen
          have ha' : ∀ d ∈ as, d < b := fun d hd => ha d (by simp [hd])
          have hbs' : ∀ d ∈ bs, d < b := fun d hd => hbs d (by simp [hd])
          rw [List.cons_lex_cons_iff, value_cons_lt_iff hb hlen' ha' hbs',
            ih hlen' ha' hbs']

/-- A map that keeps the order of digits keeps the shortlex order of numerals. -/
theorem shortlex_map {α : Type} [LT α] {f : Nat → α}
    (hf : ∀ d e, d < b → e < b → d < e → f d < f e) {as bs : List Nat}
    (h : List.Shortlex (· < ·) as bs) (ha : ∀ d ∈ as, d < b) (hbs : ∀ d ∈ bs, d < b) :
    List.Shortlex (· < ·) (as.map f) (bs.map f) := by
  rw [List.shortlex_def] at h ⊢
  rw [List.length_map, List.length_map]
  apply h.imp_right
  rintro ⟨hlen, hlex⟩
  refine ⟨hlen, ?_⟩
  clear h hlen
  induction hlex with
  | nil => exact .nil
  | rel hlt => exact .rel (hf _ _ (ha _ (by simp)) (hbs _ (by simp)) hlt)
  | cons _ ih =>
      exact .cons (ih (fun d hd => ha d (by simp [hd])) fun d hd => hbs d (by simp [hd]))

/-- Numerals without a leading zero are in shortlex order as their numbers are. -/
theorem shortlex_digits (hb : 1 < b) {n m : Nat} (h : n < m) :
    List.Shortlex (· < ·) (Nat.digits b n).reverse (Nat.digits b m).reverse := by
  have hle := Nat.le_length_digits_le b n m (Nat.le_of_lt h)
  cases Nat.lt_or_eq_of_le hle with
  | inl hlt => exact .of_length_lt (by simpa using hlt)
  | inr heq =>
      have hdigits : ∀ k, ∀ d ∈ (Nat.digits b k).reverse, d < b := fun k d hd =>
        Nat.digits_lt_base hb (List.mem_reverse.mp hd)
      have hlen : (Nat.digits b n).reverse.length = (Nat.digits b m).reverse.length := by
        simpa using heq
      apply List.Shortlex.of_lex hlen
      rw [lex_iff_value_lt hb hlen (hdigits n) (hdigits m), value_digits, value_digits]
      exact h

end Order
end Numeral
