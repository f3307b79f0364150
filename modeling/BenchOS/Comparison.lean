import BenchOS.Library.Numeral
import BenchOS.Necessities

/-!
`memcmp` as an order. The loop stops at the first index where the two blocks differ,
and that index decides between the numbers the blocks stand for.
-/
namespace BenchOS

/-- The bytes at `p` and `q` can be read below `k` and are the same. -/
def Alike (m : Mem Object) (p q : Pointer) (k : Nat) : Prop :=
  ∀ j, j < k → ∃ c, m.read (p.add j) = some c ∧ m.read (q.add j) = some c

theorem alike_zero (m : Mem Object) (p q : Pointer) : Alike m p q 0 :=
  fun j hj => absurd hj (Nat.not_lt_zero j)

theorem Alike.cons {m : Mem Object} {p q : Pointer} {k : Nat} {c : UInt8}
    (hp : m.read p = some c) (hq : m.read q = some c) (h : Alike m (p.add 1) (q.add 1) k) :
    Alike m p q (k + 1) := by
  intro j hj
  cases j with
  | zero => exact ⟨c, by simpa using hp, by simpa using hq⟩
  | succ j => simpa [Nat.add_comm 1] using h j (by omega)

/-- The reads of `memcmp` before index `k`. -/
def memcmpReads (p q : Pointer) : Nat → List Pointer
  | 0 => []
  | k + 1 => memcmpReads p q k ++ [p.add k, q.add k]

section Scan
variable {p q : Pointer} {n : UInt64} {k : Nat} {s : Machine}

/-- Equal bytes are passed over. -/
theorem memcmp_scan (hk : k ≤ n.toNat) (h : Alike s.mem p q k) :
    Prog.Reaches (memcmpTurn p q n) 0 s (UInt64.ofNat k) (s.reading (memcmpReads p q k)) := by
  have hturn : ∀ i s₁, i < k → UInt64.ofNat i < n → s₁ = s.reading (memcmpReads p q i) →
      ∃ s₂, (memcmpTurn p q n (UInt64.ofNat i)).Returns s₁ (.again (UInt64.ofNat i + 1)) s₂ ∧
        s₂ = s.reading (memcmpReads p q (i + 1)) := by
    rintro i _ hi hmore rfl
    obtain ⟨c, hp, hq⟩ := h i hi
    have hindex : (UInt64.ofNat i).toNat = i :=
      UInt64.toNat_ofNat_of_lt' (Nat.lt_trans (Nat.lt_of_lt_of_le hi hk) n.toNat_lt_size)
    refine ⟨_, .of_forall fun _ => ?_, s.reading_reading _ _⟩
    simp [memcmpTurn, hmore, hindex, load, hp, hq, Machine.reading]
  obtain ⟨s', hreach, rfl⟩ := Prog.Reaches.countingUp _ hk hturn s.reading_nil.symm
  exact hreach

theorem memcmp_alike (h : Alike s.mem p q n.toNat) :
    ∃ ps, (memcmp p q n).Returns s 0 (s.reading ps) := by
  have hscan := memcmp_scan (Nat.le_refl _) h
  refine ⟨memcmpReads p q n.toNat, (hscan.ends_iff _).mpr (Prog.loop_leave ?_)⟩
  exact .of_forall fun _ => by simp [memcmpTurn]

theorem memcmp_differs {x y : UInt8} (hk : k < n.toNat) (h : Alike s.mem p q k)
    (hp : s.mem.read (p.add k) = some x) (hq : s.mem.read (q.add k) = some y) (hne : x ≠ y) :
    ∃ ps, (memcmp p q n).Returns s (if x < y then -1 else 1) (s.reading ps) := by
  have hindex : (UInt64.ofNat k).toNat = k :=
    UInt64.toNat_ofNat_of_lt' (Nat.lt_trans hk n.toNat_lt_size)
  have hmore : UInt64.ofNat k < n := Prog.ofNat_lt hk
  let look := [p.add k, q.add k, p.add k, q.add k]
  have hturn : (memcmpTurn p q n (UInt64.ofNat k)).Returns (s.reading (memcmpReads p q k))
      (.leave (if x < y then -1 else 1)) ((s.reading (memcmpReads p q k)).reading look) :=
    .of_forall fun _ => by
      simp [memcmpTurn, hmore, hindex, load, hp, hq, hne, Machine.reading, look]
  rw [Machine.reading_reading] at hturn
  have hscan := memcmp_scan (Nat.le_of_lt hk) h
  exact ⟨_, (hscan.ends_iff _).mpr (Prog.loop_leave hturn)⟩

end Scan

/-- The number in the `n` bytes from `l` on, the first byte the most significant. -/
def bigEndian (m : Mem Object) (l : Location) (n : Nat) : Nat :=
  Numeral.value 256 ((m.slice l n).map UInt8.toNat)

/-- -1, 0 or 1 as the number in one block is less than, equal to or greater than the
number in the other. -/
def blockSign (m : Mem Object) (p q : Location) (n : Nat) : Int :=
  Int.sign ((bigEndian m p n : Int) - bigEndian m q n)

theorem bytes_lt (bs : List UInt8) : ∀ d ∈ bs.map UInt8.toNat, d < 256 := by
  intro d hd
  obtain ⟨c, -, rfl⟩ := List.mem_map.mp hd
  exact UInt8.toNat_lt c

theorem blockSign_add (m : Mem Object) (p q : Location) (i j : Nat) :
    blockSign m p q (i + j) =
      if blockSign m p q i ≠ 0 then blockSign m p q i
      else blockSign m (p.add i) (q.add i) j := by
  have hsign := Numeral.sign_append (b := 256) (by omega) ((m.slice p i).map UInt8.toNat)
    ((m.slice q i).map UInt8.toNat) (by simp) (bytes_lt (m.slice (p.add i) j))
    (bytes_lt (m.slice (q.add i) j))
  rw [← List.map_append, ← List.map_append, ← Mem.slice_add, ← Mem.slice_add] at hsign
  have hzero : blockSign m p q i = 0 ↔ bigEndian m p i = bigEndian m q i := by
    rw [blockSign, Int.sign_eq_zero_iff_zero]
    omega
  rw [ite_not]
  simp only [hzero]
  exact hsign

theorem blockSign_one (m : Mem Object) (p q : Location) (hne : m p ≠ m q) :
    blockSign m p q 1 = if m p < m q then -1 else 1 := by
  have hne' : (m p).toNat ≠ (m q).toNat := fun h => hne (UInt8.toNat_inj.mp h)
  simp only [blockSign, bigEndian, Mem.slice_one, List.map_singleton, Numeral.value,
    List.reverse_singleton, Nat.ofDigits_singleton, UInt8.lt_iff_toNat_lt]
  split
  · exact Int.sign_eq_neg_one_of_neg (by omega)
  · exact Int.sign_eq_one_of_pos (by omega)

theorem blockSign_alike (m : Mem Object) (p q : Location) (n : Nat)
    (h : ∀ i, i < n → m (p.add i) = m (q.add i)) : blockSign m p q n = 0 := by
  have hslice : m.slice p n = m.slice q n := (m.slice_eq_iff p q n).mpr h
  simp [blockSign, bigEndian, hslice]

theorem memcmp_returns (p q : Location) (n : UInt64) (s : Machine) :
    ∃ ps, (memcmp (.loc p) (.loc q) n).Returns s (blockSign s.mem p q n.toNat)
      (s.reading ps) := by
  by_cases h : ∀ i, i < n.toNat → s.mem (p.add i) = s.mem (q.add i)
  · rw [blockSign_alike _ _ _ _ h]
    exact memcmp_alike fun j hj => ⟨_, rfl, congrArg some (h j hj).symm⟩
  · have hsome : ∃ i, i < n.toNat ∧ s.mem (p.add i) ≠ s.mem (q.add i) := by simpa using h
    -- Below the first difference `k` the blocks agree, and what follows it cannot matter.
    obtain ⟨k, ⟨hk, hne⟩, hfirst⟩ := Nat.findX hsome
    have hsame : ∀ i, i < k → s.mem (p.add i) = s.mem (q.add i) := by
      intro i hi
      by_contra hdiff
      exact hfirst i hi ⟨by omega, hdiff⟩
    have hsign : blockSign s.mem p q n.toNat =
        if s.mem (p.add k) < s.mem (q.add k) then -1 else 1 := by
      have hone := blockSign_one s.mem (p.add k) (q.add k) hne
      have hnonzero : blockSign s.mem (p.add k) (q.add k) 1 ≠ 0 := by
        rw [hone]
        split <;> decide
      rw [show n.toNat = k + (1 + (n.toNat - k - 1)) by omega, blockSign_add,
        if_neg (by simpa using blockSign_alike _ _ _ _ hsame), blockSign_add,
        if_pos hnonzero, hone]
    rw [hsign]
    exact memcmp_differs hk (fun j hj => ⟨_, rfl, congrArg some (hsame j hj).symm⟩) rfl rfl hne

theorem blockSign_swap (m : Mem Object) (p q : Location) (n : Nat) :
    blockSign m q p n = -blockSign m p q n := by
  rw [blockSign, blockSign, ← Int.sign_neg, Int.neg_sub]

theorem blockSign_le_iff (m : Mem Object) (p q : Location) (n : Nat) :
    blockSign m p q n ≤ 0 ↔ bigEndian m p n ≤ bigEndian m q n := by
  rw [blockSign]
  generalize bigEndian m p n = x, bigEndian m q n = y
  cases Nat.lt_or_ge y x with
  | inl hlt =>
      rw [Int.sign_eq_one_of_pos (by omega)]
      omega
  | inr hle =>
      have hsign : Int.sign ((x : Int) - y) ≤ 0 := Int.sign_nonpos_iff.mpr (by omega)
      simp [hsign, hle]

/-- `memcmp` gives the order of the numbers in the two blocks. So it is antisymmetric, a
total preorder on the blocks of one length, and the front of two longer blocks decides
unless it is the same in both. -/
theorem memcmp_order (s : Machine) :
    ∃ cmp : Location → Location → UInt64 → Int,
      (∀ p q n, ∃ ps, (memcmp (.loc p) (.loc q) n).Returns s (cmp p q n) (s.reading ps)) ∧
      (∀ p q n, cmp p q n =
        Int.sign ((bigEndian s.mem p n.toNat : Int) - bigEndian s.mem q n.toNat)) ∧
      (∀ p q n, cmp q p n = -cmp p q n) ∧
      (∀ p n, cmp p p n ≤ 0) ∧
      (∀ p q r n, cmp p q n ≤ 0 → cmp q r n ≤ 0 → cmp p r n ≤ 0) ∧
      (∀ p q n, cmp p q n ≤ 0 ∨ cmp q p n ≤ 0) ∧
      ∀ p q n k, n.toNat + k.toNat < 2 ^ 64 → cmp p q (n + k) =
        if cmp p q n ≠ 0 then cmp p q n else cmp (p.add n.toNat) (q.add n.toNat) k := by
  refine ⟨fun p q n => blockSign s.mem p q n.toNat, fun p q n => memcmp_returns p q n s,
    fun p q n => rfl, ?_, ?_, ?_, ?_, ?_⟩
  · intro p q n
    exact blockSign_swap s.mem p q n.toNat
  · intro p n
    exact (blockSign_le_iff _ _ _ _).mpr (Nat.le_refl _)
  · intro p q r n
    rw [blockSign_le_iff, blockSign_le_iff, blockSign_le_iff]
    exact Nat.le_trans
  · intro p q n
    rw [blockSign_le_iff, blockSign_le_iff]
    exact Nat.le_total _ _
  · intro p q n k hsum
    have hadd : (n + k).toNat = n.toNat + k.toNat := by
      rw [UInt64.toNat_add]
      exact Nat.mod_eq_of_lt hsum
    have hsign := blockSign_add s.mem p q n.toNat k.toNat
    rw [← hadd] at hsign
    exact hsign

theorem memcmp_order_ramp :
    ∃ ps, (memcmp (.loc (ram 0x1000)) (.loc (ram 0x1001)) 3).Returns rampMachine (-1)
      (rampMachine.reading ps) := by
  obtain ⟨cmp, hreturns, hsign, -, -, -, -, hsplit⟩ := memcmp_order rampMachine
  obtain ⟨ps, h⟩ := hreturns (ram 0x1000) (ram 0x1001) (1 + 2)
  have hone : cmp (ram 0x1000) (ram 0x1001) 1 = -1 := by
    rw [hsign]
    decide
  rw [hsplit _ _ _ _ (by decide), hone] at h
  exact ⟨ps, h⟩

end BenchOS
