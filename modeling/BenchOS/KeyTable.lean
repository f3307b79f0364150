import BenchOS.LineInput
import Mathlib.Data.Nat.Count

/-!
Which scan codes end a line. The range check of `consoleInputCharacter` lets 58
through, and the key table has 58 characters: Caps Lock is looked up at the
terminator of the literal and reads as the NUL of Enter and Esc.
-/
namespace BenchOS

/-- Block `i` of equal samples is delivered: its scan code is below 59, and it is the first
block, has a second sample, or comes behind a block that is not delivered. -/
def Delivered (bs : List (UInt8 × Nat)) : Nat → Prop
  | 0 => ∃ b ∈ bs[0]?, b.1 < 59
  | i + 1 => ∃ b ∈ bs[i + 1]?, b.1 < 59 ∧ (2 ≤ b.2 ∨ ¬ Delivered bs i)

instance Delivered.decide (bs : List (UInt8 × Nat)) : DecidablePred (Delivered bs)
  | 0 => inferInstanceAs (Decidable (∃ b ∈ bs[0]?, b.1 < 59))
  | i + 1 =>
    have := Delivered.decide bs i
    inferInstanceAs (Decidable (∃ b ∈ bs[i + 1]?, b.1 < 59 ∧ (2 ≤ b.2 ∨ ¬ Delivered bs i)))

/-- The scan code of block `i`. -/
def Machine.keyCode (s : Machine) (i : Nat) : UInt8 := (s.keyBlocks.getD i (0, 0)).1

/-- A block of Caps Lock is delivered with fewer than `count` blocks before it, and none of
these is of Enter or Esc. -/
def Machine.CapsLockCuts (s : Machine) (count : Nat) : Prop :=
  ∃ i, Delivered s.keyBlocks i ∧ s.keyCode i = 58 ∧
    (∀ j < i, Delivered s.keyBlocks j → s.keyCode j ≠ 28 ∧ s.keyCode j ≠ 1) ∧
    Nat.count (Delivered s.keyBlocks) i < count

/-- Every block of Caps Lock is a single sample right behind a delivered block. -/
def Machine.CapsLockLost (s : Machine) : Prop :=
  ∀ i (h : i < s.keyBlocks.length), s.keyBlocks[i].1 = 58 →
    s.keyBlocks[i].2 = 1 ∧ ∃ j, i = j + 1 ∧ Delivered s.keyBlocks j

/-- The scan codes that calls without end accept. -/
def Machine.accepted (s : Machine) : List UInt8 :=
  (Ear.polling.hear 0 (s.samples 0x60)).map (·.2)

theorem keyChar_eq_zero_iff {v : UInt8} (hv : v < 59) :
    keyChar v = 0 ↔ v = 1 ∨ v = 28 ∨ v = 58 := by
  have all : ∀ n < 59, keyChar (UInt8.ofNat n) = 0 ↔
      UInt8.ofNat n = 1 ∨ UInt8.ofNat n = 28 ∨ UInt8.ofNat n = 58 := by decide
  have hlt : v.toNat < 59 := UInt8.lt_iff_toNat_lt.mp hv
  simpa using all v.toNat hlt

theorem hear_lt {e : Ear} {n : Nat} {l : List UInt8} {d : Nat × UInt8} (hd : d ∈ e.hear n l) :
    d.2 < 59 := by
  induction l generalizing e n with
  | nil => cases e <;> simp [Ear.hear] at hd
  | cons w l ih =>
      cases e with
      | polling =>
          by_cases hw : w < 59
          · rw [Ear.hear, if_pos hw] at hd
            cases hd with
            | head => exact hw
            | tail _ hd => exact ih hd
          · rw [Ear.hear, if_neg hw] at hd
            exact ih hd
      | releasing v =>
          rw [Ear.hear] at hd
          split at hd
          · exact ih hd
          · exact ih hd

theorem codes_lt {e : Ear} (he : ∀ v, e = .releasing v → v < 59) {l : List UInt8} {v : UInt8}
    (hv : v ∈ e.codes l) : v < 59 := by
  induction l generalizing e with
  | nil => cases e <;> simp [Ear.codes] at hv
  | cons w l ih =>
      have hpolling : ∀ u, Ear.polling = .releasing u → u < 59 := fun u h => by cases h
      cases e with
      | polling =>
          by_cases hw : w < 59
          · rw [Ear.codes, if_pos hw] at hv
            exact ih (fun u h => Ear.releasing.inj h ▸ hw) hv
          · rw [Ear.codes, if_neg hw] at hv
            exact ih hpolling hv
      | releasing u =>
          rw [Ear.codes] at hv
          split at hv
          · exact ih he hv
          · cases hv with
            | head => exact he _ rfl
            | tail _ hv => exact ih hpolling hv

theorem Machine.codes_lt {s : Machine} {v : UInt8} (hv : v ∈ s.codes) : v < 59 :=
  BenchOS.codes_lt (e := .polling) (fun _ h => by cases h) hv

theorem mem_looksAt {v : UInt8} {i : Nat} : i ∈ looksAt v ↔ i = v.toNat := by
  rw [looksAt]
  split <;> simp

/-- The last lookup is the one of the last accepted scan code. -/
theorem getLast?_looks {vs : List UInt8} {v : UInt8} (h : vs.getLast? = some v) :
    (vs.flatMap looksAt).getLast? = some v.toNat := by
  obtain ⟨front, rfl⟩ := List.getLast?_eq_some_iff.mp h
  have hlast : (looksAt v).getLast? = some v.toNat := by
    rw [looksAt]
    split <;> rfl
  rw [List.flatMap_append, List.flatMap_singleton, List.getLast?_append, hlast]
  rfl

/-- A line is full, or its last scan code is the first that the table maps to NUL. -/
theorem lineCodes_last {n : Nat} {vs text rest : List UInt8}
    (h : readLine n (vs.map keyChar) = some (text, rest)) :
    (text.length = n ∧ (vs.take n).find? (keyChar · = 0) = none) ∨
      (text.length < n ∧ ∃ v, (vs.take n).find? (keyChar · = 0) = some v ∧
        (lineCodes n vs).getLast? = some v) := by
  induction n generalizing vs text with
  | zero => cases h; exact .inl (by simp)
  | succ n ih =>
      cases vs with
      | nil => cases h
      | cons v vs =>
          obtain ⟨hc, rfl, -⟩ | ⟨hc, tail, rfl, htail⟩ := readLine_step h
          · exact .inr ⟨by simp, v, by simp [hc], by simp [lineCodes, hc]⟩
          · rcases ih htail with ⟨hlen, hfind⟩ | ⟨hlen, u, hfind, hlast⟩
            · exact .inl ⟨by simp [hlen], by simpa [hc] using hfind⟩
            · refine .inr ⟨by simpa using hlen, u, by simpa [hc] using hfind, ?_⟩
              rw [lineCodes, if_neg hc, List.getLast?_cons, hlast]
              rfl

/-- A trace that stores the characters of a line and looks up their scan codes ends its
line early only on Enter or Esc, unless Caps Lock comes first. -/
theorem early_end_iff {s : Machine} {count : Nat} {text rest tail : List UInt8}
    {t : List BusEvent} (hline : readLine count s.typed = some (text, rest))
    (hlooks : lookups t = (lineCodes count s.codes).flatMap looksAt)
    (hstored : stored t = text ++ tail) (htail : ∀ c ∈ tail, c = 0) :
    (((stored t).filter (· ≠ 0)).length < count →
        (lookups t).getLast? = some 28 ∨ (lookups t).getLast? = some 1) ↔
      (s.codes.take count).find? (keyChar · = 0) ≠ some 58 := by
  have hno := readLine_noNul hline
  have hcount : (stored t).filter (· ≠ 0) = text := by
    have hkeep : text.filter (· ≠ 0) = text := List.filter_eq_self.mpr fun c hc => by
      simpa using fun hzero : c = 0 => hno (hzero ▸ hc)
    have hdrop : tail.filter (· ≠ 0) = [] := List.filter_eq_nil_iff.mpr fun c hc => by
      simpa using htail c hc
    rw [hstored, List.filter_append, hkeep, hdrop, List.append_nil]
  rw [hcount, hlooks]
  rw [s.typed_eq] at hline
  rcases lineCodes_last hline with ⟨hfull, hnone⟩ | ⟨hshort, v, hfind, hlast⟩
  · rw [hnone]
    simp [hfull]
  · have hmem : v ∈ s.codes := List.mem_of_mem_take (List.mem_of_find?_eq_some hfind)
    have hzero : keyChar v = 0 := by simpa using List.find?_some hfind
    have hcases := (keyChar_eq_zero_iff (Machine.codes_lt hmem)).mp hzero
    rw [hfind, getLast?_looks hlast]
    rcases hcases with rfl | rfl | rfl <;> simp [hshort]

section Blocks
variable (s : Machine)

theorem mem_deliveredBlocks (i : Nat) :
    i ∈ deliveredBlocks s.keyBlocks ↔ Delivered s.keyBlocks i := by
  have hrange : ∀ j, j ∈ deliveredBlocks s.keyBlocks → j < s.keyBlocks.length := by
    intro j hj
    obtain ⟨d, hd, rfl⟩ := List.mem_map.mp hj
    exact (keyBlocks_sound s hd).1
  induction i with
  | zero =>
      by_cases hlt : 0 < s.keyBlocks.length
      · rw [mem_deliveredBlocks_iff s 0 hlt, Delivered]
        simp [hlt]
      · simp [mt (hrange 0) hlt, Delivered, List.getElem?_eq_none (Nat.le_of_not_lt hlt)]
  | succ i ih =>
      by_cases hlt : i + 1 < s.keyBlocks.length
      · rw [mem_deliveredBlocks_iff s (i + 1) hlt, Nat.add_sub_cancel, Delivered]
        simp only [hlt, ih, List.getElem?_eq_getElem, Nat.succ_ne_zero, Option.mem_some]
        simp
      · simp [mt (hrange (i + 1)) hlt, Delivered, List.getElem?_eq_none (Nat.le_of_not_lt hlt)]

theorem keyCode_eq {i : Nat} (h : i < s.keyBlocks.length) : s.keyCode i = s.keyBlocks[i].1 := by
  simp [Machine.keyCode, List.getD_eq_getElem?_getD, h]

/-- What is accepted are the scan codes of the delivered blocks. -/
theorem accepted_eq : s.accepted = (deliveredBlocks s.keyBlocks).map s.keyCode := by
  have hhear := hear_blocks (Runs.maximal_blocks (s.samples 0x60)) (e := .polling) trivial 0 0
  rw [Runs.expand_blocks] at hhear
  rw [Machine.accepted, hhear, deliveredBlocks, List.map_map, List.map_map]
  refine List.map_congr_left fun d hd => ?_
  obtain ⟨hlt, -, hcode⟩ := keyBlocks_sound s hd
  exact hcode.trans (keyCode_eq s hlt).symm

theorem keyCode_lt {i : Nat} (hi : i ∈ deliveredBlocks s.keyBlocks) : s.keyCode i < 59 := by
  have hmem : s.keyCode i ∈ s.accepted := by
    rw [accepted_eq]
    exact List.mem_map_of_mem hi
  obtain ⟨d, hd, hcode⟩ := List.mem_map.mp hmem
  rw [← hcode]
  exact hear_lt hd

theorem count_delivered (i : Nat) :
    ((deliveredBlocks s.keyBlocks).filter (· < i)).length =
      Nat.count (Delivered s.keyBlocks) i := by
  have hnodup : ((deliveredBlocks s.keyBlocks).filter (· < i)).Nodup :=
    (delivered_increasing _ _ _ _).nodup.filter _
  rw [Nat.count_eq_card_filter_range, ← List.toFinset_card_of_nodup hnodup]
  congr 1
  ext j
  simp [mem_deliveredBlocks, and_comm]

end Blocks

/-- The first NUL code of an increasing list of blocks, in terms of the blocks before it. -/
theorem find_capsLock_iff {ds : List Nat} (hds : ds.Pairwise (· < ·)) {code : Nat → UInt8}
    (hcode : ∀ i ∈ ds, code i < 59) (count : Nat) :
    ((ds.take count).map code).find? (keyChar · = 0) = some 58 ↔
      ∃ i ∈ ds, code i = 58 ∧ (∀ j ∈ ds, j < i → code j ≠ 28 ∧ code j ≠ 1) ∧
        (ds.filter (· < i)).length < count := by
  induction ds generalizing count with
  | nil => simp
  | cons d ds ih =>
      obtain ⟨hfirst, hds⟩ := List.pairwise_cons.mp hds
      have hhead : (ds.filter (· < d)) = [] :=
        List.filter_eq_nil_iff.mpr fun j hj => by simpa using Nat.le_of_lt (hfirst j hj)
      cases count with
      | zero => simp
      | succ count =>
          have hnul := keyChar_eq_zero_iff (hcode d (by simp))
          rw [List.take_succ_cons, List.map_cons]
          by_cases hcaps : code d = 58
          · rw [List.find?_cons_of_pos (by simp [hnul.mpr (.inr (.inr hcaps))])]
            refine iff_of_true (by rw [hcaps]) ⟨d, by simp, hcaps, ?_, by simp [hhead]⟩
            intro j hj hlt
            cases hj with
            | head => exact absurd hlt (Nat.lt_irrefl d)
            | tail _ hj => exact absurd hlt (Nat.lt_asymm (hfirst j hj))
          · have htail : ∀ i, i ∈ ds → (((d :: ds).filter (· < i)).length < count + 1 ↔
                (ds.filter (· < i)).length < count) := fun i hi => by
              simp [hfirst i hi]
            by_cases hend : code d = 28 ∨ code d = 1
            · have hzero : keyChar (code d) = 0 := hnul.mpr (by tauto)
              rw [List.find?_cons_of_pos (by simp [hzero])]
              refine iff_of_false (by simpa using hcaps) ?_
              rintro ⟨i, hi, hi58, hbefore, -⟩
              cases hi with
              | head => exact hcaps hi58
              | tail _ hi =>
                  obtain ⟨h28, h1⟩ := hbefore d (by simp) (hfirst i hi)
                  exact hend.elim h28 h1
            · rw [List.find?_cons_of_neg (by
                simp only [decide_eq_true_eq, hnul]
                tauto), ih hds (fun i hi => hcode i (by simp [hi]))]
              rw [not_or] at hend
              constructor
              · rintro ⟨i, hi, hi58, hbefore, hcount⟩
                refine ⟨i, by simp [hi], hi58, fun j hj hlt => ?_, (htail i hi).mpr hcount⟩
                cases hj with
                | head => exact hend
                | tail _ hj => exact hbefore j hj hlt
              · rintro ⟨i, hi, hi58, hbefore, hcount⟩
                cases hi with
                | head => exact absurd hi58 hcaps
                | tail _ hi =>
                    exact ⟨i, hi, hi58, fun j hj => hbefore j (by simp [hj]),
                      (htail i hi).mp hcount⟩

/-- What the calls that return accept is accepted first by calls without end. -/
theorem codes_prefix_hear (l : List UInt8) (n : Nat) :
    Ear.polling.codes l <+: (Ear.polling.hear n l).map (·.2) ∧
      ∀ v, (Ear.releasing v).codes l <+: v :: ((Ear.releasing v).hear n l).map (·.2) := by
  induction l generalizing n with
  | nil => simp [Ear.codes, Ear.hear]
  | cons w l ih =>
      obtain ⟨hpolling, hreleasing⟩ := ih (n + 1)
      constructor
      · rw [Ear.codes, Ear.hear]
        split
        · exact hreleasing w
        · exact hpolling
      · intro v
        rw [Ear.codes, Ear.hear]
        split
        · exact hreleasing v
        · exact (List.cons_prefix_cons.mpr ⟨rfl, hpolling⟩)

/-- A line that is read ends on Caps Lock when the delivered blocks say so. -/
theorem find_codes_iff {s : Machine} {count : Nat} {text rest : List UInt8}
    (hline : readLine count s.typed = some (text, rest)) :
    (s.codes.take count).find? (keyChar · = 0) = some 58 ↔ s.CapsLockCuts count := by
  obtain ⟨more, hmore⟩ := (codes_prefix_hear (s.samples 0x60) 0).1
  have hsame : (s.accepted.take count).find? (keyChar · = 0) =
      (s.codes.take count).find? (keyChar · = 0) := by
    have haccepted : s.accepted = s.codes ++ more := hmore.symm
    rw [haccepted, List.take_append, List.find?_append]
    rw [s.typed_eq] at hline
    rcases lineCodes_last hline with ⟨hfull, hnone⟩ | ⟨-, v, hfind, -⟩
    · have hlen : count ≤ s.codes.length := by
        rcases readLine_split hline with ⟨k, hk, -, -, rfl, -⟩ | ⟨-, hle, -⟩
        · have hshort := List.length_take_le k (s.codes.map keyChar)
          omega
        · simpa using hle
      simp [hnone, Nat.sub_eq_zero_of_le hlen]
    · rw [hfind, Option.some_or]
  have hincreasing : (deliveredBlocks s.keyBlocks).Pairwise (· < ·) := delivered_increasing _ _ _ _
  rw [← hsame, accepted_eq, ← List.map_take,
    find_capsLock_iff hincreasing fun i hi => keyCode_lt s hi]
  simp only [mem_deliveredBlocks, count_delivered, Machine.CapsLockCuts]
  exact exists_congr fun i => and_congr_right fun _ => and_congr_right fun _ =>
    and_congr_left fun _ => forall_congr' fun j => imp.swap

theorem accepted_lt {s : Machine} {v : UInt8} (hv : v ∈ s.accepted) : v.toNat < 59 := by
  obtain ⟨d, hd, rfl⟩ := List.mem_map.mp hv
  exact UInt8.lt_iff_toNat_lt.mp (hear_lt hd)

theorem capsLock_not_accepted_iff (s : Machine) : 58 ∉ s.accepted ↔ s.CapsLockLost := by
  rw [accepted_eq, List.mem_map, not_exists]
  constructor
  · intro hno i hi h58
    have hlost : ¬ Delivered s.keyBlocks i := fun hd =>
      hno i ⟨(mem_deliveredBlocks s i).mpr hd, (keyCode_eq s hi).trans h58⟩
    have hpos := (Runs.maximal_blocks (s.samples 0x60)).positive _ (List.getElem_mem hi)
    cases i with
    | zero => exact absurd ⟨_, List.getElem?_eq_getElem hi, by rw [h58]; decide⟩ hlost
    | succ j =>
        have hboth : s.keyBlocks[j + 1].2 < 2 ∧ Delivered s.keyBlocks j := by
          simpa [Delivered, hi, h58] using hlost
        exact ⟨Nat.le_antisymm (Nat.le_of_lt_succ hboth.1) hpos, j, rfl, hboth.2⟩
  · rintro hlost i ⟨hmem, h58⟩
    have hd := (mem_deliveredBlocks s i).mp hmem
    obtain ⟨d, hin, rfl⟩ := List.mem_map.mp hmem
    obtain ⟨hlt, -, -⟩ := keyBlocks_sound s hin
    obtain ⟨hone, j, hj, hbefore⟩ := hlost _ hlt ((keyCode_eq s hlt).symm.trans h58)
    rw [hj] at hd
    have hone' : s.keyBlocks[j + 1]?.map (·.2) = some 1 := by
      rw [← hj, List.getElem?_eq_getElem hlt, Option.map_some, hone]
    obtain ⟨b, hb, -, htwo | hnot⟩ := hd
    · rw [Option.mem_def.mp hb] at hone'
      have hb1 : b.2 = 1 := by simpa using hone'
      omega
    · exact hnot hbefore

/-- Calls without end look the table up at the scan codes they accept. -/
theorem callForever_lookups (place : Nat → Location) (fg : Nat → UInt32) (s : Machine) :
    ∃ s' t, (callForever place fg 0).Stops s .waiting s' ∧ s'.bus = s.bus ++ t ∧
      ∀ i, i ∈ lookups t ↔ ∃ v ∈ s.accepted, i = v.toNat := by
  obtain ⟨s', t, hstop, hbus, -, hlooks⟩ := callForever_stores place fg 0 0 s
  refine ⟨s', t, hstop, hbus, fun i => ?_⟩
  have hflat : lookups t = s.accepted.flatMap looksAt := by
    rw [hlooks, Machine.accepted, List.flatMap_map]
  simp only [hflat, List.mem_flatMap, mem_looksAt]

/-- A line ends early only on Enter or Esc exactly when no block of Caps Lock that is
delivered cuts it. Calls without end look up only the characters written in the table
exactly when every Caps Lock is lost in the release wait of another key. -/
theorem consoleInputCharacters_ends_early (s : Machine) :
    (∀ input count fg nullTerminate s', count < 2 ^ 31 →
      (consoleInputCharacters input count fg nullTerminate).Returns s () s' →
      ∃ t, s'.bus = s.bus ++ t ∧
        ((((stored t).filter (· ≠ 0)).length < count →
            (lookups t).getLast? = some 28 ∨ (lookups t).getLast? = some 1) ↔
          ¬ s.CapsLockCuts count)) ∧
    ∀ place fg, ∃ s' t, (callForever place fg 0).Stops s .waiting s' ∧ s'.bus = s.bus ++ t ∧
      ((∀ i ∈ lookups t, i < lowercase.length) ↔ s.CapsLockLost) := by
  constructor
  · intro input count fg nullTerminate s' hcount h
    obtain ⟨text, rest, hline⟩ := consoleInputCharacters_line h
    obtain ⟨s₁, t, hreturn, -, -, -, hbus, hlooks, hstored⟩ :=
      consoleInputCharacters_traced input count fg nullTerminate (by omega) hline
    cases h.unique hreturn
    refine ⟨t, hbus, ?_⟩
    rw [← find_codes_iff hline]
    refine early_end_iff hline hlooks hstored fun c hc => ?_
    split at hc
    · cases hc
    · simpa using hc
  · intro place fg
    obtain ⟨s', t, hstop, hbus, hlooks⟩ := callForever_lookups place fg s
    refine ⟨s', t, hstop, hbus, ?_⟩
    have hlen : lowercase.length = 58 := rfl
    rw [hlen, ← capsLock_not_accepted_iff]
    constructor
    · intro hall hcaps
      have hlt := hall 58 ((hlooks 58).mpr ⟨58, hcaps, rfl⟩)
      omega
    · intro hno i hi
      obtain ⟨v, hv, rfl⟩ := (hlooks i).mp hi
      have hlt := accepted_lt hv
      have hne : v.toNat ≠ (58 : UInt8).toNat := fun h => hno (UInt8.toNat_inj.mp h ▸ hv)
      simp only [UInt8.reduceToNat] at hne
      omega

/-- Caps Lock pressed and released at an empty line. -/
def capsLock : Machine := { Machine.reset with samples := fun _ => [58, 186] }

theorem consoleInputCharacters_caps_lock :
    ∃ s' t, (consoleInputCharacters ⟨.input, 0⟩ 256 7 true).Returns capsLock () s' ∧
      s'.bus = capsLock.bus ++ t ∧ ((stored t).filter (· ≠ 0)).length < 256 ∧
      ¬ ((lookups t).getLast? = some 28 ∨ (lookups t).getLast? = some 1) ∧
      ¬ ∀ i ∈ lookups t, i < lowercase.length := by
  have hline : readLine 256 capsLock.typed = some ([], []) := by decide
  obtain ⟨s', t, hreturn, -, -, -, hbus, hlooks, hstored⟩ :=
    consoleInputCharacters_traced ⟨.input, 0⟩ 256 7 true (by decide) hline
  have hcodes : lineCodes 256 capsLock.codes = [58] := by decide
  rw [hcodes] at hlooks
  refine ⟨s', t, hreturn, hbus, ?_, ?_, ?_⟩
  · rw [hstored]
    decide
  · rw [hlooks]
    decide
  · rw [hlooks]
    decide

/-- Caps Lock seen in one sample while `a` is released, and then Enter. -/
def capsLockBehindKey : Machine :=
  { Machine.reset with samples := fun _ => [30, 30, 58, 28, 28, 156] }

theorem consoleInputCharacters_ends_early_behind :
    ∃ s' t, (consoleInputCharacters ⟨.input, 0⟩ 16 7 true).Returns capsLockBehindKey () s' ∧
      s'.bus = capsLockBehindKey.bus ++ t ∧ (((stored t).filter (· ≠ 0)).length < 16 →
        (lookups t).getLast? = some 28 ∨ (lookups t).getLast? = some 1) := by
  have hline : readLine 16 capsLockBehindKey.typed = some ([97], []) := by decide
  obtain ⟨s', hreturn, -⟩ :=
    consoleInputCharacters_returns ⟨.input, 0⟩ 16 7 true (by decide) hline
  obtain ⟨t, hbus, hiff⟩ := (consoleInputCharacters_ends_early capsLockBehindKey).1
    ⟨.input, 0⟩ 16 7 true s' (by decide) hreturn
  refine ⟨s', t, hreturn, hbus, hiff.mpr ?_⟩
  rintro ⟨i, hd, hcode, -⟩
  have hone : i = 1 := by
    match i, hcode with
    | 0, hcode => exact absurd hcode (by decide)
    | 1, _ => rfl
    | 2, hcode => exact absurd hcode (by decide)
    | 3, hcode => exact absurd hcode (by decide)
    | i + 4, hcode => exact absurd (show (0 : UInt8) = 58 from hcode) (by decide)
  exact absurd (hone ▸ hd) (by decide)

end BenchOS
