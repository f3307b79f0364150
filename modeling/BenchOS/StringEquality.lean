import BenchOS.Comparison
import BenchOS.Main

/-!
`stringeq` of `main.c`, on its own and against `memcmp`. Its loop goes on while either
string does, so the shorter one must differ from the longer one where it ends.
-/
namespace BenchOS

/-- Every pointer is one of the first `m + 1` from `a` on or of the first `n + 1` from `b`
on. -/
def LooksWithin (a : Pointer) (m : Nat) (b : Pointer) (n : Nat) (ps : List Pointer) : Prop :=
  ∀ p ∈ ps, (∃ i, i ≤ m ∧ p = a.add i) ∨ ∃ j, j ≤ n ∧ p = b.add j

theorem looksWithin_first {a b : Pointer} {ps : List Pointer} (h : ∀ p ∈ ps, p = a ∨ p = b)
    (m n : Nat) : LooksWithin a m b n ps := by
  intro p hp
  cases h p hp with
  | inl heq => exact .inl ⟨0, Nat.zero_le m, by simp [heq]⟩
  | inr heq => exact .inr ⟨0, Nat.zero_le n, by simp [heq]⟩

theorem LooksWithin.cons {a b : Pointer} {m n : Nat} {ps qs : List Pointer}
    (h : ∀ p ∈ ps, p = a ∨ p = b) (k : LooksWithin (a.add 1) m (b.add 1) n qs) :
    LooksWithin a (m + 1) b (n + 1) (ps ++ qs) := by
  intro p hp
  cases List.mem_append.mp hp with
  | inl hp => exact looksWithin_first h _ _ p hp
  | inr hp =>
      obtain ⟨i, hi, rfl⟩ | ⟨j, hj, rfl⟩ := k p hp
      · exact .inl ⟨1 + i, by omega, by simp⟩
      · exact .inr ⟨1 + j, by omega, by simp⟩

/-- A turn reads the two bytes it is given and no other. It goes on past two that are
equal and not NUL. -/
theorem stringeqTurn_returns {a b : Pointer} {c d : UInt8} {s : Machine}
    (ha : s.mem.read a = some c) (hb : s.mem.read b = some d) :
    ∃ ps, (∀ p ∈ ps, p = a ∨ p = b) ∧
      (stringeqTurn (a, b)).Returns s
        (if c ≠ d then .leave false
          else if c = 0 then .leave true else .again (a.add 1, b.add 1)) (s.reading ps) := by
  by_cases hc : c = 0
  · by_cases hd : d = 0
    · refine ⟨[a, b], by simp, .of_forall fun _ => ?_⟩
      simp [stringeqTurn, eitherGoesOn, load, ha, hb, hc, hd, Machine.reading]
    · refine ⟨[a, b, a, b], by simp, .of_forall fun _ => ?_⟩
      have hne : ¬ 0 = d := fun h => hd h.symm
      simp [stringeqTurn, eitherGoesOn, load, ha, hb, hc, hd, hne, Machine.reading]
  · refine ⟨[a, a, b], by simp, .of_forall fun _ => ?_⟩
    by_cases hcd : c = d
    · subst hcd
      simp [stringeqTurn, eitherGoesOn, load, ha, hb, hc, Machine.reading]
    · simp [stringeqTurn, eitherGoesOn, load, ha, hb, hc, hcd, Machine.reading]

/-- `stringeq` compares the strings and changes nothing. It looks at neither beyond its
terminator: the shorter one ends at a difference, where the loop is left. -/
theorem stringeq_returns {a b : Pointer} {x y : List UInt8} {s : Machine}
    (ha : CString s.mem a x) (hb : CString s.mem b y) :
    ∃ ps, LooksWithin a x.length b y.length ps ∧
      (stringeq a b).Returns s (decide (x = y)) (s.reading ps) := by
  induction x generalizing a b y s with
  | nil =>
      have hreada : s.mem.read a = some 0 := ha
      cases y with
      | nil =>
          obtain ⟨ps, hps, hturn⟩ := stringeqTurn_returns hreada hb
          exact ⟨ps, looksWithin_first hps _ _, Prog.loop_leave hturn⟩
      | cons d y =>
          obtain ⟨hreadb, hd, -⟩ := hb
          obtain ⟨ps, hps, hturn⟩ := stringeqTurn_returns hreada hreadb
          rw [if_pos hd.symm] at hturn
          exact ⟨ps, looksWithin_first hps _ _, Prog.loop_leave hturn⟩
  | cons c x ih =>
      obtain ⟨hreada, hc, htaila⟩ := ha
      cases y with
      | nil =>
          obtain ⟨ps, hps, hturn⟩ := stringeqTurn_returns hreada hb
          rw [if_pos hc] at hturn
          exact ⟨ps, looksWithin_first hps _ _, Prog.loop_leave hturn⟩
      | cons d y =>
          obtain ⟨hreadb, -, htailb⟩ := hb
          obtain ⟨ps, hps, hturn⟩ := stringeqTurn_returns hreada hreadb
          by_cases hcd : c = d
          · rw [if_neg (not_not.mpr hcd), if_neg hc] at hturn
            obtain ⟨qs, hqs, hloop⟩ := ih (s := s.reading ps) htaila htailb
            rw [Machine.reading_reading] at hloop
            have hsame : decide (c :: x = d :: y) = decide (x = y) := by simp [hcd]
            rw [hsame]
            exact ⟨ps ++ qs, hqs.cons hps, Prog.loop_again hturn hloop⟩
          · rw [if_pos hcd] at hturn
            have hdiffer : decide (c :: x = d :: y) = false := by simp [hcd]
            rw [hdiffer]
            exact ⟨ps, looksWithin_first hps _ _, Prog.loop_leave hturn⟩

theorem cstring_alike {m : Mem Object} {a b : Pointer} {x : List UInt8}
    (ha : CString m a x) (hb : CString m b x) : Alike m a b (x.length + 1) := by
  induction x generalizing a b with
  | nil => exact .cons ha hb (alike_zero m _ _)
  | cons c x ih => exact .cons ha.1 hb.1 (ih ha.2.2 hb.2.2)

/-- Two different strings first differ at an index that both still have. -/
theorem cstring_first_difference {m : Mem Object} {a b : Pointer} {x y : List UInt8}
    (ha : CString m a x) (hb : CString m b y) (hne : x ≠ y) :
    ∃ k c d, k ≤ x.length ∧ Alike m a b k ∧ m.read (a.add k) = some c ∧
      m.read (b.add k) = some d ∧ c ≠ d := by
  induction x generalizing a b y with
  | nil =>
      cases y with
      | nil => exact absurd rfl hne
      | cons d y =>
          exact ⟨0, 0, d, Nat.le_refl 0, alike_zero m a b, by simpa [CString] using ha,
            by simpa using hb.1, hb.2.1.symm⟩
  | cons c x ih =>
      cases y with
      | nil =>
          exact ⟨0, c, 0, Nat.zero_le _, alike_zero m a b, by simpa using ha.1,
            by simpa [CString] using hb, ha.2.1⟩
      | cons d y =>
          by_cases hcd : c = d
          · subst hcd
            obtain ⟨k, c', d', hk, halike, hc', hd', hdiff⟩ :=
              ih ha.2.2 hb.2.2 fun h => hne (by rw [h])
            refine ⟨k + 1, c', d', Nat.succ_le_succ hk, .cons ha.1 hb.1 halike, ?_, ?_, hdiff⟩
            · rwa [Ptr.add_add, Nat.add_comm 1] at hc'
            · rwa [Ptr.add_add, Nat.add_comm 1] at hd'
          · exact ⟨0, c, d, Nat.zero_le _, alike_zero m a b, by simpa using ha.1,
              by simpa using hb.1, hcd⟩

/-- Two strings are equal if `memcmp` finds no difference up to the first terminator. -/
theorem memcmp_strings {a b : Pointer} {x y : List UInt8} {s : Machine}
    (ha : CString s.mem a x) (hb : CString s.mem b y) (hx : x.length + 1 < 2 ^ 64) :
    ∃ v ps, (memcmp a b (UInt64.ofNat (x.length + 1))).Returns s v (s.reading ps) ∧
      (x = y ↔ v = 0) := by
  have hcount : (UInt64.ofNat (x.length + 1)).toNat = x.length + 1 := by
    rw [UInt64.toNat_ofNat']
    exact Nat.mod_eq_of_lt hx
  by_cases hxy : x = y
  · subst hxy
    have halike : Alike s.mem a b (UInt64.ofNat (x.length + 1)).toNat := by
      rw [hcount]
      exact cstring_alike ha hb
    obtain ⟨ps, hreturns⟩ := memcmp_alike halike
    exact ⟨0, ps, hreturns, by simp⟩
  · obtain ⟨k, c, d, hk, halike, hc, hd, hdiff⟩ := cstring_first_difference ha hb hxy
    obtain ⟨ps, hreturns⟩ := memcmp_differs (n := UInt64.ofNat (x.length + 1))
      (by rw [hcount]; omega) halike hc hd hdiff
    have hnonzero : (if c < d then -1 else 1 : Int) ≠ 0 := by split <;> decide
    exact ⟨_, ps, hreturns, ⟨fun h => absurd h hxy, fun h => absurd h hnonzero⟩⟩

/-- `stringeq` decides the equality of two strings without looking beyond the end of
either, and decides as `memcmp` does on the first string and its terminator. -/
theorem stringeq_decides {a b : Pointer} {x y : List UInt8} {s : Machine}
    (ha : CString s.mem a x) (hb : CString s.mem b y) :
    ∃ equal ps, (stringeq a b).Returns s equal (s.reading ps) ∧
      (∀ p ∈ ps, (∃ i, i ≤ x.length ∧ p = a.add i) ∨ ∃ j, j ≤ y.length ∧ p = b.add j) ∧
      (equal = true ↔ x = y) ∧
      (x.length + 1 < 2 ^ 64 → ∃ v qs,
        (memcmp a b (UInt64.ofNat (x.length + 1))).Returns s v (s.reading qs) ∧
          (equal = true ↔ v = 0)) := by
  obtain ⟨ps, hps, hreturns⟩ := stringeq_returns ha hb
  refine ⟨_, ps, hreturns, hps, by simp, ?_⟩
  intro hx
  obtain ⟨v, qs, hcmp, hiff⟩ := memcmp_strings ha hb hx
  exact ⟨v, qs, hcmp, by simpa using hiff⟩

theorem stringeq_decides_prefix :
    ∃ ps, (stringeq (literal "dump") (literal "dumppage")).Returns Machine.reset false
      (Machine.reset.reading ps) := by
  obtain ⟨equal, ps, hreturns, -, hiff, -⟩ := stringeq_decides
    (cstring_lit Machine.reset.mem (bytes "dump") (by decide))
    (cstring_lit Machine.reset.mem (bytes "dumppage") (by decide))
  have hfalse : equal = false := by
    rw [Bool.eq_false_iff, ne_eq, hiff]
    decide
  rw [hfalse] at hreturns
  exact ⟨ps, hreturns⟩

end BenchOS
