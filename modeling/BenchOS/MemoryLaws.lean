import BenchOS.Copies
import BenchOS.StringCopy
import BenchOS.StringEquality

/-!
How the functions on memory and strings go together: a copy compares with everything else
as the original did, moving a block back undoes the move outside the copy, and two fills of
adjacent ranges are one fill.
-/
namespace BenchOS

/-- None of the `n` bytes from `q` on is among the `k` bytes from `l` on. -/
def Apart (l : Location) (k : Nat) (q : Pointer) (n : Nat) : Prop :=
  ∀ i l', i < n → q.add i = .loc l' → ¬ l.Covers k l'

section Blocks
variable {m m' : Mem Object} {p p' q : Location} {n : Nat}

theorem slice_congr (h : ∀ i, i < n → m (p.add i) = m' (p'.add i)) :
    m.slice p n = m'.slice p' n := by
  rw [Mem.slice, Mem.slice]
  exact List.map_congr_left fun i hi => h i (List.mem_range.mp hi)

theorem blockSign_congr (hp : ∀ i, i < n → m (p.add i) = m' (p'.add i))
    (hq : ∀ i, i < n → m (q.add i) = m' (q.add i)) :
    blockSign m p q n = blockSign m' p' q n := by
  rw [blockSign, blockSign, bigEndian, bigEndian, bigEndian, bigEndian, slice_congr hp,
    slice_congr hq]

theorem blockSign_eq_zero_iff :
    blockSign m p q n = 0 ↔ ∀ i, i < n → m (p.add i) = m (q.add i) := by
  refine ⟨fun h => (m.slice_eq_iff p q n).mp ?_, blockSign_alike m p q n⟩
  have hvalue : bigEndian m p n = bigEndian m q n := by
    rw [blockSign, Int.sign_eq_zero_iff_zero] at h
    omega
  have hdigits := Numeral.value_inj (by omega) (by simp) (bytes_lt _) (bytes_lt _) hvalue
  exact List.map_injective_iff.mpr (fun _ _ => UInt8.toNat_inj.mp) hdigits

theorem Placed.kept {origin : Nat → Location} {k : Nat} (h : Placed m m' p k origin)
    (hq : Apart p k (.loc q) n) : ∀ i, i < n → m (q.add i) = m' (q.add i) :=
  fun i hi => (h.outside _ (hq i _ hi rfl)).symm

end Blocks

/-- A block that `memmove` has moved compares with every block apart from it as the block
did that was moved, however the two ranges lie. -/
theorem memmove_compares (dest src n : UInt64) (hsrc : src.toNat + n.toNat ≤ 2 ^ 64)
    (hdest : dest.toNat + n.toNat ≤ 2 ^ 64) (s : Machine) :
    ∃ s', (memmove dest src n).Returns s dest s' ∧
      ∀ q, Apart (ram dest) n.toNat (.loc q) n.toNat → ∃ v ps ps',
        (memcmp (.loc (ram src)) (.loc q) n).Returns s v (s.reading ps) ∧
        (memcmp (.loc (ram dest)) (.loc q) n).Returns s' v (s'.reading ps') := by
  obtain ⟨s', hmove, hplaced⟩ := memmove_placed dest src n hsrc hdest s
  refine ⟨s', hmove, fun q hq => ?_⟩
  obtain ⟨ps, hbefore⟩ := memcmp_returns (ram src) q n s
  obtain ⟨ps', hafter⟩ := memcmp_returns (ram dest) q n s'
  have hsame : blockSign s.mem (ram src) q n.toNat = blockSign s'.mem (ram dest) q n.toNat :=
    blockSign_congr (fun i hi => (hplaced.content i hi).symm) (hplaced.kept hq)
  exact ⟨_, ps, ps', hbefore, hsame ▸ hafter⟩

theorem memmove_compares_up_by_one :
    ∃ s' v ps ps', (memmove 0x1001 0x1000 3).Returns rampMachine 0x1001 s' ∧
      (memcmp (.loc (ram 0x1000)) (.loc (ram 0x2000)) 3).Returns rampMachine v
        (rampMachine.reading ps) ∧
      (memcmp (.loc (ram 0x1001)) (.loc (ram 0x2000)) 3).Returns s' v (s'.reading ps') := by
  obtain ⟨s', hmove, hall⟩ := memmove_compares 0x1001 0x1000 3 (by decide) (by decide) rampMachine
  have hapart : Apart (ram 0x1001) 3 (.loc (ram 0x2000)) 3 := by
    have all : ∀ i < 3, ¬ (ram 0x1001).Covers 3 ((ram 0x2000).add i) := by decide
    rintro i _ hi ⟨⟩
    exact all i hi
  obtain ⟨v, ps, ps', hbefore, hafter⟩ := hall (ram 0x2000) hapart
  exact ⟨s', v, ps, ps', hmove, hbefore, hafter⟩

/-- A block moved away and back is as it was, and so is every byte outside the range that it
was moved to. -/
theorem memmove_back (dest src n : UInt64) (hsrc : src.toNat + n.toNat ≤ 2 ^ 64)
    (hdest : dest.toNat + n.toNat ≤ 2 ^ 64) (s : Machine) :
    ∃ s₁ s₂, (memmove dest src n).Returns s dest s₁ ∧ (memmove src dest n).Returns s₁ src s₂ ∧
      ∀ l, (ram src).Covers n.toNat l ∨ ¬ (ram dest).Covers n.toNat l → s₂.mem l = s.mem l := by
  obtain ⟨s₁, hthere, hplaced⟩ := memmove_placed dest src n hsrc hdest s
  obtain ⟨s₂, hback, hplaced'⟩ := memmove_placed src dest n hdest hsrc s₁
  refine ⟨s₁, s₂, hthere, hback, fun l hl => ?_⟩
  by_cases hc : (ram src).Covers n.toNat l
  · obtain ⟨i, hi, -, rfl⟩ := hc.exists_add
    rw [hplaced'.content i hi, hplaced.content i hi]
  · have hout : ¬ (ram dest).Covers n.toNat l := hl.resolve_left hc
    rw [hplaced'.outside l hc, hplaced.outside l hout]

theorem memmove_back_up_by_one :
    ∃ s₁ s₂, (memmove 0x1001 0x1000 3).Returns rampMachine 0x1001 s₁ ∧
      (memmove 0x1000 0x1001 3).Returns s₁ 0x1000 s₂ ∧
      s₂.mem (ram 0x1002) = rampMachine.mem (ram 0x1002) := by
  obtain ⟨s₁, s₂, hthere, hback, hall⟩ :=
    memmove_back 0x1001 0x1000 3 (by decide) (by decide) rampMachine
  exact ⟨s₁, s₂, hthere, hback, hall _ (.inl (by decide))⟩

section Fill
theorem ram_add_toNat (a n : UInt64) : ram (a + n) = (ram a).add n.toNat := by
  rw [ram, Loc.add, ram, UInt64.ofNat_toNat]

theorem replicate_at (m : Mem Object) (l : Location) (b : UInt8) {n i : Nat} (hn : n < 2 ^ 64)
    (hi : i < n) : m.blit l (List.replicate n b) (l.add i) = b := by
  rw [m.blit_at l (by omega) (by rw [List.length_replicate]; omega), List.length_replicate,
    if_pos hi, List.getD_eq_getElem?_getD, List.getElem?_replicate, if_pos hi]
  rfl

theorem memset_mem (address : UInt64) (c : Int32) (n : UInt64) (s : Machine) :
    ∃ s', (memset address c n).Returns s address s' ∧
      s'.mem = s.mem.blit (ram address) (List.replicate n.toNat c.toUInt32.toUInt8) := by
  obtain ⟨t, hreturns⟩ := memset_returns address c n s
  exact ⟨_, hreturns, rfl⟩

end Fill

/-- `memset` fills two adjacent ranges as it fills both at once, and then the range compares
equal to a block apart from it exactly when that holds nothing but the byte. -/
theorem memset_fills (address : UInt64) (c : Int32) (n k : UInt64)
    (hsum : n.toNat + k.toNat < 2 ^ 64) (s : Machine) :
    ∃ s₁ s₂ s', (memset address c n).Returns s address s₁ ∧
      (memset (address + n) c k).Returns s₁ (address + n) s₂ ∧
      (memset address c (n + k)).Returns s address s' ∧ s₂.mem = s'.mem ∧
      ∀ q, Apart (ram address) (n + k).toNat (.loc q) (n + k).toNat → ∃ v ps,
        (memcmp (.loc (ram address)) (.loc q) (n + k)).Returns s' v (s'.reading ps) ∧
        (v = 0 ↔ ∀ i, i < (n + k).toNat → s.mem (q.add i) = c.toUInt32.toUInt8) := by
  have hadd : (n + k).toNat = n.toNat + k.toNat := by
    rw [UInt64.toNat_add]
    exact Nat.mod_eq_of_lt hsum
  obtain ⟨s₁, hfirst, hmem₁⟩ := memset_mem address c n s
  obtain ⟨s₂, hsecond, hmem₂⟩ := memset_mem (address + n) c k s₁
  obtain ⟨s', hboth, hmem⟩ := memset_mem address c (n + k) s
  refine ⟨s₁, s₂, s', hfirst, hsecond, hboth, ?_, fun q hq => ?_⟩
  · have hblit := s.mem.blit_blit (ram address) (List.replicate n.toNat c.toUInt32.toUInt8)
      (List.replicate k.toNat c.toUInt32.toUInt8) (by simp; omega)
    rw [List.length_replicate, ← List.replicate_add, ← hadd, ← ram_add_toNat] at hblit
    rw [hmem₂, hmem₁, hblit, hmem]
  · obtain ⟨ps, hcmp⟩ := memcmp_returns (ram address) q (n + k) s'
    refine ⟨_, ps, hcmp, ?_⟩
    rw [blockSign_eq_zero_iff, hmem]
    refine forall₂_congr fun i hi => ?_
    have hout := hq i _ hi rfl
    rw [← List.length_replicate (n := (n + k).toNat) (a := c.toUInt32.toUInt8)] at hout
    rw [replicate_at _ _ _ (UInt64.toNat_lt _) hi, Mem.blit_outside _ _ hout, eq_comm]

theorem memset_fills_ramp :
    ∃ s₁ s₂ s', (memset 0x1000 7 2).Returns rampMachine 0x1000 s₁ ∧
      (memset 0x1002 7 3).Returns s₁ 0x1002 s₂ ∧
      (memset 0x1000 7 5).Returns rampMachine 0x1000 s' ∧ s₂.mem = s'.mem := by
  obtain ⟨s₁, s₂, s', hfirst, hsecond, hboth, hmem, -⟩ :=
    memset_fills 0x1000 7 2 3 (by decide) rampMachine
  exact ⟨s₁, s₂, s', hfirst, hsecond, hboth, hmem⟩

section Strings
variable {src : Pointer} {dst : Location} {text : List UInt8} {s : Machine}

theorem cstring_apart {m : Mem Object} {y : Pointer} {t bs : List UInt8} (h : CString m y t)
    (hapart : Apart dst bs.length y (t.length + 1)) : CString (m.blit dst bs) y t := by
  refine h.congr fun i hi => ?_
  cases hy : y.add i with
  | loc l => exact congrArg some (m.blit_outside dst (hapart i l (by omega) hy))
  | lit text j => rfl

/-- Where `strcpy` ends, `stringeq` tells the copy from every string apart from it exactly
when it told the original, even if the copy has overwritten that. -/
theorem strcpy_compares (h : CString s.mem src text) (hsrc : NoWrap src text.length)
    (hdst : NoWrap (.loc dst) text.length) (hplace : ¬ Overtakes src dst text.length) :
    ∃ s', (strcpy dst src).Returns s () s' ∧
      ∀ y t, CString s.mem y t → Apart dst (text.length + 1) y (t.length + 1) →
        ∃ equal ps ps', (stringeq src y).Returns s equal (s.reading ps) ∧
          (stringeq (.loc dst) y).Returns s' equal (s'.reading ps') := by
  have hlen : text.length < 2 ^ 64 := by
    have hbound : dst.off.toNat + text.length < 2 ^ 64 := hdst
    omega
  have hno := ((cstring_iff _ _ _).mp h).1
  obtain ⟨t₀, -, hcopy⟩ := strcpy_copies dst h ((clear_iff hsrc).mpr hplace) hlen
  refine ⟨_, hcopy, fun y t hy hapart => ?_⟩
  obtain ⟨ps, -, hbefore⟩ := stringeq_returns h hy
  have hsize : (text ++ [0]).length = text.length + 1 := by simp
  have hy' : CString (s.mem.blit dst (text ++ [0])) y t :=
    cstring_apart hy (hsize ▸ hapart)
  obtain ⟨ps', -, hafter⟩ := stringeq_returns
    (s := { s with mem := s.mem.blit dst (text ++ [0]), bus := s.bus ++ t₀ })
    (cstring_blit s.mem dst text hno hlen) hy'
  exact ⟨_, ps, ps', hbefore, hafter⟩

theorem strcpy_compares_usable :
    ∃ s' equal ps ps', (strcpy memmapType (literal "USABLE")).Returns Machine.reset () s' ∧
      (stringeq (literal "USABLE") (literal "USED")).Returns Machine.reset equal
        (Machine.reset.reading ps) ∧
      (stringeq (.loc memmapType) (literal "USED")).Returns s' equal (s'.reading ps') := by
  have htext : CString Machine.reset.mem (literal "USABLE") (bytes "USABLE") :=
    cstring_lit _ _ (by decide)
  have hother : CString Machine.reset.mem (literal "USED") (bytes "USED") :=
    cstring_lit _ _ (by decide)
  have hdst : NoWrap (.loc memmapType) (bytes "USABLE").length := by
    simp only [NoWrap]
    decide
  obtain ⟨s', hcopy, hall⟩ := strcpy_compares htext trivial hdst fun h => h
  obtain ⟨equal, ps, ps', hbefore, hafter⟩ := hall _ _ hother (fun i l _ h => by cases h)
  exact ⟨s', equal, ps, ps', hcopy, hbefore, hafter⟩

end Strings
end BenchOS
