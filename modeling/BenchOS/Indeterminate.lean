import BenchOS.FromHex
import BenchOS.Library.Lines
import Mathlib.Algebra.Order.BigOperators.Group.List

/-!
What the result of `fromHexString` owes to values the C program leaves indeterminate:
the one that the call of `strlen` yields, and `digit` at a character without a case.

Raising the length by one adds 16 times the digit sum, less 2^32 for every place whose
32-bit product wraps. So a text gives one result whatever the length only if these two
always cancel out, which a text of zeros does and no other short text.
-/
namespace BenchOS

/-- The sum of the products for the digits `ds` when the first is given the length `l`. -/
def places : List Nat → UInt32 → Nat
  | [], _ => 0
  | d :: ds, l => 16 * (d * l.toNat % 2 ^ 28) + places ds (l - 1)

/-- The number of places whose product wraps when the length goes up from `l` by one. -/
def wraps : List Nat → UInt32 → Nat
  | [], _ => 0
  | d :: ds, l => (if 2 ^ 28 ≤ d * l.toNat % 2 ^ 28 + d then 1 else 0) + wraps ds (l - 1)

def digitsOf (text : List UInt8) : List Nat := text.map (alphabet.idxOf ·)

/-- Every character is a digit, and from whatever length the places are counted, the sum of
the digits is, modulo 2^60, 2^28 times the number of places whose product wraps when the
length is one more. A text too short for a wrap of every length has digits of no sum
(`steady_short_iff`): it is made of zeros. -/
structure Steady (text : List UInt8) : Prop where
  digits : ∀ c ∈ text, c ∈ alphabet
  level : ∀ l, 2 ^ 28 * wraps (digitsOf text) l % 2 ^ 60 = (digitsOf text).sum % 2 ^ 60

/-- What is indeterminate has no part in the result. -/
def SameResult (p : Pointer) (s : Machine) : Prop :=
  ∀ junk junk' n n' s₁ s₂, (fromHexString p).Returns (s.withJunk junk) n s₁ →
    (fromHexString p).Returns (s.withJunk junk') n' s₂ → n = n'

theorem places_succ {ds : List Nat} (h : ∀ d ∈ ds, d < 16) (l : UInt32) :
    places ds (l + 1) + 2 ^ 32 * wraps ds l = places ds l + 16 * ds.sum := by
  induction ds generalizing l with
  | nil => rfl
  | cons d ds ih =>
      have hd : d < 16 := h d (by simp)
      have hrest := ih (fun e he => h e (by simp [he])) (l - 1)
      have hback : l - 1 + 1 = l + 1 - 1 := by grind
      rw [hback] at hrest
      have hstep : d * (l + 1).toNat % 2 ^ 28 = (d * l.toNat % 2 ^ 28 + d) % 2 ^ 28 := by
        have hsucc : (l + 1).toNat % 2 ^ 28 = (l.toNat + 1) % 2 ^ 28 := by
          rw [UInt32.toNat_add, show (1 : UInt32).toNat = 1 from rfl]
          omega
        rw [Nat.mul_mod, hsucc, ← Nat.mul_mod, Nat.mul_succ, Nat.mod_add_mod]
      have hlow : d * l.toNat % 2 ^ 28 < 2 ^ 28 := Nat.mod_lt _ (by omega)
      simp only [places, wraps, hstep, List.sum_cons]
      generalize d * l.toNat % 2 ^ 28 = x at hlow
      split <;> omega

/-- The sums agree for all lengths if they agree for every two that follow each other. -/
theorem places_level_iff {ds : List Nat} (h : ∀ d ∈ ds, d < 16) :
    (∀ l l', UInt64.ofNat (places ds l) = UInt64.ofNat (places ds l')) ↔
      ∀ l, 2 ^ 28 * wraps ds l % 2 ^ 60 = ds.sum % 2 ^ 60 := by
  have hnext : ∀ l, UInt64.ofNat (places ds (l + 1)) = UInt64.ofNat (places ds l) ↔
      2 ^ 28 * wraps ds l % 2 ^ 60 = ds.sum % 2 ^ 60 := by
    intro l
    have hsucc := places_succ h l
    rw [← UInt64.toNat_inj, UInt64.toNat_ofNat', UInt64.toNat_ofNat']
    omega
  constructor
  · intro hall l
    exact (hnext l).mp (hall (l + 1) l)
  · intro hlevel
    have hzero : ∀ k : Nat, UInt64.ofNat (places ds (UInt32.ofNat k)) =
        UInt64.ofNat (places ds 0) := by
      intro k
      induction k with
      | zero => rfl
      | succ k ih => rw [UInt32.ofNat_add, ← ih]; exact (hnext _).mpr (hlevel _)
    intro l l'
    have hl := hzero l.toNat
    have hl' := hzero l'.toNat
    rw [UInt32.ofNat_toNat] at hl hl'
    rw [hl, hl']

/-- Fewer than 2^28 / 15 digits cannot make up a multiple of 2^28 unless they are zeros. -/
theorem sum_zero_of_level {ds : List Nat} (h : ∀ d ∈ ds, d < 16)
    (hshort : 15 * ds.length < 2 ^ 28)
    (hlevel : ∀ l, 2 ^ 28 * wraps ds l % 2 ^ 60 = ds.sum % 2 ^ 60) : ds.sum = 0 := by
  have hle : ds.sum ≤ ds.length * 15 :=
    List.sum_le_card_nsmul ds 15 fun d hd => Nat.le_of_lt_succ (h d hd)
  have hzero := hlevel 0
  omega

theorem wraps_zeros {ds : List Nat} (h : ∀ d ∈ ds, d = 0) (l : UInt32) : wraps ds l = 0 := by
  induction ds generalizing l with
  | nil => rfl
  | cons d ds ih =>
      obtain rfl := h d (by simp)
      rw [wraps, ih fun e he => h e (by simp [he])]
      simp

theorem digitsOf_lt {text : List UInt8} (h : ∀ c ∈ text, c ∈ alphabet) :
    ∀ d ∈ digitsOf text, d < 16 := by
  intro d hd
  obtain ⟨c, hc, rfl⟩ := List.mem_map.mp hd
  exact idxOf_lt (h c hc)

/-- A short text is steady exactly when it is made of zeros. -/
theorem steady_short_iff {text : List UInt8} (hshort : 15 * text.length < 2 ^ 28) :
    Steady text ↔ ∀ c ∈ text, c = '0'.toUInt8 := by
  constructor
  · intro h c hc
    have hsum := sum_zero_of_level (digitsOf_lt h.digits) (by simpa [digitsOf] using hshort)
      h.level
    have hzero : alphabet.idxOf c = 0 :=
      List.sum_eq_zero_iff_forall_eq_nat.mp hsum _ (List.mem_map_of_mem hc)
    rw [← hexChar_idxOf (h.digits c hc), hzero]
    rfl
  · intro h
    have hzeros : ∀ d ∈ digitsOf text, d = 0 := by
      intro d hd
      obtain ⟨c, hc, rfl⟩ := List.mem_map.mp hd
      rw [h c hc]
      rfl
    refine ⟨fun c hc => h c hc ▸ by decide, fun l => ?_⟩
    rw [wraps_zeros hzeros, List.sum_eq_zero_iff_forall_eq_nat.mpr hzeros, Nat.mul_zero]

theorem product_eq {d : Nat} (hd : d < 16) (l : UInt32) :
    (UInt32.ofNat d * l * 16).toUInt64 = UInt64.ofNat (16 * (d * l.toNat % 2 ^ 28)) := by
  rw [← UInt64.toNat_inj, UInt32.toNat_toUInt64]
  simp only [UInt32.toNat_mul, UInt32.toNat_ofNat', UInt64.toNat_ofNat']
  rw [Nat.mod_eq_of_lt (by omega : d < 2 ^ 32), show (16 : UInt32).toNat = 16 from rfl]
  generalize d * l.toNat = x
  omega

/-- Digits before the rest of a text add their products, whatever is indeterminate. -/
theorem weigh_append {front : List UInt8} (h : ∀ c ∈ front, c ∈ alphabet)
    (rest : List UInt8) (l : UInt32) (junk : Nat → UInt64) (num : UInt64) :
    weigh (front ++ rest) l junk num =
      weigh rest (l - UInt32.ofNat front.length) junk
        (num + UInt64.ofNat (places (digitsOf front) l)) := by
  induction front generalizing l num with
  | nil => simp [digitsOf, places]
  | cons c front ih =>
      have hc := h c (by simp)
      have hlen : l - 1 - UInt32.ofNat front.length = l - UInt32.ofNat (c :: front).length := by
        rw [List.length_cons, UInt32.ofNat_add]
        grind
      have hcons : digitsOf (c :: front) = alphabet.idxOf c :: digitsOf front := rfl
      rw [List.cons_append, weigh, digitOf_mem hc]
      simp only
      rw [ih (fun d hd => h d (by simp [hd])), hlen, product_eq (idxOf_lt hc), hcons,
        places, UInt64.ofNat_add, UInt64.add_assoc]

theorem weigh_digitsOf {text : List UInt8} (h : ∀ c ∈ text, c ∈ alphabet) (l : UInt32)
    (junk : Nat → UInt64) :
    weigh text l junk 0 = UInt64.ofNat (places (digitsOf text) l) := by
  have happend := weigh_append h [] l junk 0
  rw [List.append_nil, UInt64.zero_add] at happend
  exact happend

theorem weigh_add (text : List UInt8) (l : UInt32) (junk : Nat → UInt64) (num k : UInt64) :
    weigh text l junk (num + k) = weigh text l junk num + k := by
  induction text generalizing l junk num with
  | nil => rfl
  | cons c text ih =>
      have hswap : ∀ x : UInt64, num + k + x = num + x + k := fun x => by grind
      rw [weigh, weigh]
      split <;> rw [hswap, ih]

theorem digitOf_none {c : UInt8} (h : c ∉ alphabet) : digitOf c = none := if_neg h

/-- A character without a case gives a different result for another value of `digit`. -/
theorem weigh_depends {text : List UInt8} {c : UInt8} (hc : c ∈ text) (h : c ∉ alphabet) :
    ∃ l junk junk', weigh text l junk 0 ≠ weigh text l junk' 0 := by
  rcases Lines.exists_first (· ∉ alphabet) text with hall | ⟨front, c', rest, rfl, hfront, hc'⟩
  · exact absurd h (by simpa using hall c hc)
  · have hdigits : ∀ d ∈ front, d ∈ alphabet := fun d hd => by simpa using hfront d hd
    -- The length is chosen so that the character stands at the last counted place.
    let l := UInt32.ofNat front.length + 1
    let one : Nat → UInt64 := fun i => if i = 0 then 1 else 0
    refine ⟨l, fun _ => 0, one, ?_⟩
    have hlen : l - UInt32.ofNat front.length = 1 := by grind
    rw [weigh_append hdigits, weigh_append hdigits, hlen, weigh, weigh,
      digitOf_none (by simpa using hc')]
    intro heq
    have hrest : (fun i => one (i + 1)) = fun _ => 0 := by
      funext i
      simp [one]
    simp only [hrest] at heq
    rw [weigh_add, weigh_add rest _ _ _ ((one 0).toUInt32 * 1 * 16).toUInt64] at heq
    have hsix : ((0 : UInt64).toUInt32 * 1 * 16).toUInt64 =
        ((one 0).toUInt32 * 1 * 16).toUInt64 := by grind
    exact absurd hsix (by decide)

theorem weigh_steady_iff (text : List UInt8) :
    (∀ l l' junk junk', weigh text l junk 0 = weigh text l' junk' 0) ↔ Steady text := by
  constructor
  · intro hsame
    have hdigits : ∀ c ∈ text, c ∈ alphabet := by
      intro c hc
      by_contra hno
      obtain ⟨l, junk, junk', hne⟩ := weigh_depends hc hno
      exact hne (hsame l l junk junk')
    refine ⟨hdigits, (places_level_iff (digitsOf_lt hdigits)).mp fun l l' => ?_⟩
    have hll' := hsame l l' (fun _ => 0) fun _ => 0
    rwa [weigh_digitsOf hdigits, weigh_digitsOf hdigits] at hll'
  · intro hsteady l l' junk junk'
    rw [weigh_digitsOf hsteady.digits, weigh_digitsOf hsteady.digits]
    exact (places_level_iff (digitsOf_lt hsteady.digits)).mpr hsteady.level l l'

/-- `fromHexString` gives a result for all choices of the indeterminate values. Texts shorter
than 2^28 / 15 get one and the same result exactly when every character is `0`, and any text
exactly when it is steady. -/
theorem fromHexString_steady_iff {p : Pointer} {text : List UInt8} {s : Machine}
    (h : Holds s.mem p text) :
    (∀ junk, ∃ n s', (fromHexString p).Returns (s.withJunk junk) n s') ∧
      (15 * text.length < 2 ^ 28 → (SameResult p s ↔ ∀ c ∈ text, c = '0'.toUInt8)) ∧
      (SameResult p s ↔ Steady text) := by
  have hrun : ∀ junk : Nat → UInt64, ∃ s', (fromHexString p).Returns (s.withJunk junk)
      (weigh text (junk 0).toUInt32 (fun i => junk (i + 1)) 0) s' := by
    intro junk
    obtain ⟨-, s', hreturns, -⟩ := fromHexString_returns (s := s.withJunk junk) h
    exact ⟨s', hreturns⟩
  have hsteady : SameResult p s ↔ Steady text := by
    rw [← weigh_steady_iff]
    constructor
    · intro hsame l l' junk junk'
      let first (l : UInt32) (junk : Nat → UInt64) : Nat → UInt64 := fun i =>
        if i = 0 then l.toUInt64 else junk (i - 1)
      obtain ⟨s₁, h₁⟩ := hrun (first l junk)
      obtain ⟨s₂, h₂⟩ := hrun (first l' junk')
      have heq := hsame _ _ _ _ _ _ h₁ h₂
      simpa [first] using heq
    · intro hsame junk junk' n n' s₁ s₂ h₁ h₂
      obtain ⟨s₃, h₃⟩ := hrun junk
      obtain ⟨s₄, h₄⟩ := hrun junk'
      cases h₁.unique h₃
      cases h₂.unique h₄
      exact hsame _ _ _ _
  exact ⟨fun junk => ⟨_, hrun junk⟩, fun hshort => hsteady.trans (steady_short_iff hshort),
    hsteady⟩

theorem fromHexString_steady_zeros :
    ∃ n s₁ s₂, (fromHexString (literal "00")).Returns (Machine.yielding 2) n s₁ ∧
      (fromHexString (literal "00")).Returns (Machine.yielding 7) n s₂ := by
  have htext : Holds Machine.reset.mem (literal "00") (bytes "00") :=
    holds_literal _ _ (by decide)
  obtain ⟨hruns, hshort, -⟩ := fromHexString_steady_iff (s := Machine.reset) htext
  have hzeros : ∀ c ∈ bytes "00", c = '0'.toUInt8 := by
    have all : (bytes "00").all fun c => c = '0'.toUInt8 := by decide
    simpa using all
  obtain ⟨n, s₁, h₁⟩ := hruns fun _ => 2
  obtain ⟨n', s₂, h₂⟩ := hruns fun _ => 7
  obtain rfl := (hshort (by decide)).mpr hzeros _ _ _ _ _ _ h₁ h₂
  exact ⟨n, s₁, s₂, h₁, h₂⟩

theorem fromHexString_one_by_length :
    ∃ s₁ s₂, (fromHexString (literal "1")).Returns (Machine.reset.withJunk fun _ => 1) 16 s₁ ∧
      (fromHexString (literal "1")).Returns (Machine.reset.withJunk fun _ => 2) 32 s₂ := by
  have htext : Holds Machine.reset.mem (literal "1") (bytes "1") :=
    holds_literal _ _ (by decide)
  obtain ⟨-, s₁, h₁, -⟩ :=
    fromHexString_returns (s := Machine.reset.withJunk fun _ => 1) htext
  obtain ⟨-, s₂, h₂, -⟩ :=
    fromHexString_returns (s := Machine.reset.withJunk fun _ => 2) htext
  exact ⟨s₁, s₂, h₁, h₂⟩

end BenchOS
