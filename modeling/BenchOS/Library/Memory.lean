import Mathlib.Data.List.TakeWhile
import Mathlib.Data.Nat.Digits.Defs
import Mathlib.Logic.Function.Basic
import Mathlib.Tactic.Common

/-!
Byte memory of a C program as separate objects with 64-bit offsets, pointers to
bytes of an object or of a string literal, and NUL-terminated strings.

Offsets wrap at 2^64, so a single object can stand for a whole address space.
The names of the objects are a parameter. A literal is not in the memory at all:
nothing can be stored in one, and reading past its terminator has no answer.
-/

structure Loc (Obj : Type) where
  obj : Obj
  off : UInt64
  deriving DecidableEq

inductive Ptr (Obj : Type) where
  | loc (l : Loc Obj)
  | lit (text : List UInt8) (i : Nat)

abbrev Mem (Obj : Type) : Type := Loc Obj → UInt8

variable {Obj : Type}

def Loc.add (l : Loc Obj) (i : Nat) : Loc Obj := { l with off := l.off + UInt64.ofNat i }

def Ptr.add : Ptr Obj → Nat → Ptr Obj
  | .loc l, i => .loc (l.add i)
  | .lit text j, i => .lit text (j + i)

/-- The `n` bytes from `l` on hold `l'`. -/
def Loc.Covers (l : Loc Obj) (n : Nat) (l' : Loc Obj) : Prop :=
  l'.obj = l.obj ∧ (l'.off - l.off).toNat < n

instance [DecidableEq Obj] (l : Loc Obj) (n : Nat) (l' : Loc Obj) :
    Decidable (l.Covers n l') :=
  inferInstanceAs (Decidable (_ ∧ _))

namespace Mem

def read (m : Mem Obj) : Ptr Obj → Option UInt8
  | .loc l => some (m l)
  | .lit text i => (text ++ [0])[i]?

/-- Memory `m` after the bytes `bs` have been stored from `l` on. -/
def blit [DecidableEq Obj] (m : Mem Obj) (l : Loc Obj) (bs : List UInt8) : Mem Obj :=
  fun l' => if l.Covers bs.length l' then bs.getD (l'.off - l.off).toNat 0 else m l'

/-- The bytes of an array of `n` bytes up to its first NUL. -/
def textOf (m : Mem Obj) (l : Loc Obj) (n : Nat) : List UInt8 :=
  ((List.range n).map fun i => m (l.add i)).takeWhile (· != 0)

/-- The `n` bytes from `l` on. -/
def slice (m : Mem Obj) (l : Loc Obj) (n : Nat) : List UInt8 :=
  (List.range n).map fun i => m (l.add i)

/-- The little-endian number in the `n` bytes from `l` on. -/
def number (m : Mem Obj) (l : Loc Obj) : Nat → Nat
  | 0 => 0
  | n + 1 => (m l).toNat + 256 * m.number (l.add 1) n

/-- The bytes `bs` stand from `l` on. -/
def Block (m : Mem Obj) (l : Loc Obj) (bs : List UInt8) : Prop :=
  ∀ i, i < bs.length → m (l.add i) = bs.getD i 0

end Mem

/-- At `p` memory `m` holds the string `s` and its terminator. -/
def CString (m : Mem Obj) : Ptr Obj → List UInt8 → Prop
  | p, [] => m.read p = some 0
  | p, c :: s => m.read p = some c ∧ c ≠ 0 ∧ CString m (p.add 1) s

/-- Reading from `p` on yields the bytes `bs`. -/
def Yields (m : Mem Obj) (p : Ptr Obj) (bs : List UInt8) : Prop :=
  ∀ i, i < bs.length → m.read (p.add i) = bs[i]?

@[simp] theorem Loc.add_zero (l : Loc Obj) : l.add 0 = l := by
  simp [Loc.add]

@[simp] theorem Loc.add_add (l : Loc Obj) (i j : Nat) : (l.add i).add j = l.add (i + j) := by
  simp [Loc.add, UInt64.add_assoc]

@[simp] theorem Ptr.add_zero (p : Ptr Obj) : p.add 0 = p := by
  cases p <;> simp [Ptr.add]

@[simp] theorem Ptr.add_add (p : Ptr Obj) (i j : Nat) : (p.add i).add j = p.add (i + j) := by
  cases p <;> simp [Ptr.add, Nat.add_assoc]

theorem Loc.add_cancel {l l' : Loc Obj} (i : Nat) : l.add i = l'.add i ↔ l = l' := by
  cases l
  cases l'
  simp [Loc.add]

theorem Ptr.add_cancel {p : Ptr Obj} {l : Loc Obj} (i : Nat) :
    p.add i = .loc (l.add i) ↔ p = .loc l := by
  cases p with
  | loc l' => simp only [Ptr.add, Ptr.loc.injEq, Loc.add_cancel]
  | lit text j => simp [Ptr.add]

@[simp] theorem Loc.add_obj (l : Loc Obj) (i : Nat) : (l.add i).obj = l.obj := rfl

theorem Loc.sub_add (l : Loc Obj) {i : Nat} (h : i < 2 ^ 64) :
    ((l.add i).off - l.off).toNat = i := by
  have hsub : l.off + UInt64.ofNat i - l.off = UInt64.ofNat i := by grind
  simpa [Loc.add, hsub] using h

theorem Loc.covers_mono {l l' : Loc Obj} {n m : Nat} (h : l.Covers n l') (hn : n ≤ m) :
    l.Covers m l' :=
  ⟨h.1, Nat.lt_of_lt_of_le h.2 hn⟩

theorem Loc.add_covers (l : Loc Obj) {i n : Nat} (hi : i < n) (hn : n ≤ 2 ^ 64) :
    l.Covers n (l.add i) :=
  ⟨rfl, by rw [Loc.sub_add l (by omega)]; exact hi⟩

theorem Loc.Covers.exists_add {l l' : Loc Obj} {n : Nat} (h : l.Covers n l') :
    ∃ i, i < n ∧ i < 2 ^ 64 ∧ l' = l.add i := by
  refine ⟨(l'.off - l.off).toNat, h.2, UInt64.toNat_lt _, ?_⟩
  obtain ⟨o, a⟩ := l'
  obtain ⟨o', b⟩ := l
  have hobj : o = o' := h.1
  subst hobj
  have hoff : a = b + UInt64.ofNat (a - b).toNat := by
    rw [UInt64.ofNat_toNat]
    grind
  exact congrArg (Loc.mk o) hoff

theorem Loc.add_inj (l : Loc Obj) {i j : Nat} (hi : i < 2 ^ 64) (hj : j < 2 ^ 64) :
    l.add i = l.add j ↔ i = j := by
  constructor
  · intro h
    rw [← Loc.sub_add l hi, h, Loc.sub_add l hj]
  · intro heq
    rw [heq]

theorem Mem.ext_at (l : Loc Obj) {m m' : Mem Obj}
    (other : ∀ l', l'.obj ≠ l.obj → m l' = m' l')
    (same : ∀ i, i < 2 ^ 64 → m (l.add i) = m' (l.add i)) : m = m' := by
  funext l'
  by_cases h : l'.obj = l.obj
  · have hc : l.Covers (2 ^ 64) l' := ⟨h, UInt64.toNat_lt _⟩
    obtain ⟨i, -, hi, rfl⟩ := hc.exists_add
    exact same i hi
  · exact other l' h

section Blit
variable [DecidableEq Obj] (m : Mem Obj) (l : Loc Obj)

theorem Mem.blit_outside {bs : List UInt8} {l' : Loc Obj} (h : ¬ l.Covers bs.length l') :
    m.blit l bs l' = m l' := by
  simp [Mem.blit, h]

theorem Mem.blit_other {bs : List UInt8} {l' : Loc Obj} (h : l'.obj ≠ l.obj) :
    m.blit l bs l' = m l' :=
  m.blit_outside l fun hc => h hc.1

@[simp] theorem Mem.blit_nil : m.blit l [] = m := by
  funext l'
  exact m.blit_outside l fun h => absurd h.2 (Nat.not_lt_zero _)

theorem Mem.blit_add {bs : List UInt8} {k i : Nat} (hi : i < 2 ^ 64)
    (hk : k + bs.length ≤ 2 ^ 64) :
    m.blit (l.add k) bs (l.add i) =
      if k ≤ i ∧ i < k + bs.length then bs.getD (i - k) 0 else m (l.add i) := by
  have hoff : ((l.add i).off - (l.add k).off).toNat = (2 ^ 64 - k % 2 ^ 64 + i) % 2 ^ 64 := by
    have h : l.off + UInt64.ofNat i - (l.off + UInt64.ofNat k) =
        UInt64.ofNat i - UInt64.ofNat k := by grind
    simp only [Loc.add, h, UInt64.toNat_sub, UInt64.toNat_ofNat']
    omega
  simp only [Mem.blit, Loc.Covers, hoff, Loc.add_obj, true_and]
  by_cases hlt : k ≤ i ∧ i < k + bs.length
  · rw [if_pos hlt, if_pos (by omega)]
    congr 1
    omega
  · rw [if_neg hlt, if_neg (by omega)]

theorem Mem.blit_at {bs : List UInt8} {i : Nat} (hi : i < 2 ^ 64)
    (h : bs.length ≤ 2 ^ 64) :
    m.blit l bs (l.add i) = if i < bs.length then bs.getD i 0 else m (l.add i) := by
  have hadd := m.blit_add l (k := 0) hi (by omega : 0 + bs.length ≤ 2 ^ 64)
  simpa using hadd

theorem Mem.blit_singleton (b : UInt8) : m.blit l [b] = Function.update m l b := by
  apply Mem.ext_at l
  · intro l' h
    have hne : l' ≠ l := fun e => h (by rw [e])
    rw [m.blit_other l h, Function.update_of_ne hne]
  · intro i hi
    rw [m.blit_at l hi (by simp)]
    by_cases h0 : i = 0
    · simp [h0]
    · have hne : l.add i ≠ l := by
        intro e
        exact h0 ((l.add_inj hi (by omega)).mp (e.trans l.add_zero.symm))
      simp [h0, Function.update_of_ne hne]

/-- Two adjacent blocks make one block, the first stored first. -/
theorem Mem.blit_blit (as bs : List UInt8) (h : as.length + bs.length ≤ 2 ^ 64) :
    (m.blit l as).blit (l.add as.length) bs = m.blit l (as ++ bs) := by
  apply Mem.ext_at l
  · intro l' hl
    rw [Mem.blit_other _ _ (by simpa using hl), m.blit_other l hl, m.blit_other l hl]
  · intro i hi
    rw [Mem.blit_add _ _ hi h, m.blit_at l hi (by omega), m.blit_at l hi (by simpa using h)]
    simp only [List.length_append]
    grind

/-- Two adjacent blocks make one block, the second stored first. -/
theorem Mem.blit_blit_before (as bs : List UInt8) (h : as.length + bs.length ≤ 2 ^ 64) :
    (m.blit (l.add as.length) bs).blit l as = m.blit l (as ++ bs) := by
  apply Mem.ext_at l
  · intro l' hl
    rw [Mem.blit_other _ _ hl, m.blit_other _ (by simpa using hl), m.blit_other l hl]
  · intro i hi
    rw [Mem.blit_at _ l hi (by omega), m.blit_add l hi h, m.blit_at l hi (by simpa using h)]
    simp only [List.length_append]
    grind

theorem Mem.blit_over {bs cs : List UInt8} (h : bs.length ≤ cs.length) :
    (m.blit l bs).blit l cs = m.blit l cs := by
  funext l'
  by_cases hc : l.Covers cs.length l'
  · simp only [Mem.blit, hc, if_true]
  · have hb : ¬ l.Covers bs.length l' := fun hb => hc (Loc.covers_mono hb h)
    rw [Mem.blit_outside _ _ hc, Mem.blit_outside _ _ hb, Mem.blit_outside _ _ hc]

end Blit

section Slice
variable (m : Mem Obj) (l : Loc Obj)

@[simp] theorem Mem.length_slice (n : Nat) : (m.slice l n).length = n := by
  simp [Mem.slice]

@[simp] theorem Mem.slice_one : m.slice l 1 = [m l] := by
  simp [Mem.slice]

theorem Mem.slice_add (i j : Nat) :
    m.slice l (i + j) = m.slice l i ++ m.slice (l.add i) j := by
  simp [Mem.slice, List.range_add]

theorem Mem.slice_eq_iff (l' : Loc Obj) (n : Nat) :
    m.slice l n = m.slice l' n ↔ ∀ i, i < n → m (l.add i) = m (l'.add i) := by
  simp [Mem.slice]

end Slice

section Block
variable {m : Mem Obj} {l : Loc Obj}

theorem Mem.block_nil : m.Block l [] := fun _ h => absurd h (Nat.not_lt_zero _)

theorem Mem.block_cons {b : UInt8} {bs : List UInt8} :
    m.Block l (b :: bs) ↔ m l = b ∧ m.Block (l.add 1) bs := by
  constructor
  · intro h
    have hfirst := h 0 (by simp)
    rw [Loc.add_zero] at hfirst
    refine ⟨hfirst, ?_⟩
    intro i hi
    have hat := h (1 + i) (by simp; omega)
    rw [Loc.add_add, hat, Nat.add_comm 1 i]
    rfl
  · rintro ⟨hb, hbs⟩ i hi
    cases i with
    | zero => rw [Loc.add_zero, hb]; rfl
    | succ i =>
        have hat := hbs i (by simpa using hi)
        rwa [Loc.add_add, Nat.add_comm 1 i] at hat

theorem Mem.block_append {as bs : List UInt8} :
    m.Block l (as ++ bs) ↔ m.Block l as ∧ m.Block (l.add as.length) bs := by
  induction as generalizing l with
  | nil => simp [Mem.block_nil]
  | cons a as ih =>
      rw [List.cons_append, Mem.block_cons, Mem.block_cons, ih, Loc.add_add, and_assoc,
        List.length_cons, Nat.add_comm 1]

theorem Mem.Block.number_eq {bs : List UInt8} (h : m.Block l bs) :
    m.number l bs.length = Nat.ofDigits 256 (bs.map UInt8.toNat) := by
  induction bs generalizing l with
  | nil => rfl
  | cons b bs ih =>
      obtain ⟨hb, hbs⟩ := Mem.block_cons.mp h
      rw [List.length_cons, Mem.number, ih hbs, hb, List.map_cons, Nat.ofDigits_cons]

variable [DecidableEq Obj]

theorem Mem.block_blit (m : Mem Obj) (l : Loc Obj) {bs : List UInt8}
    (h : bs.length ≤ 2 ^ 64) : (m.blit l bs).Block l bs := by
  intro i hi
  rw [m.blit_at l (by omega) h, if_pos hi]

end Block

theorem CString.unique {m : Mem Obj} {p : Ptr Obj} {s t : List UInt8}
    (hs : CString m p s) (ht : CString m p t) : s = t := by
  induction s generalizing p t with
  | nil =>
      cases t with
      | nil => rfl
      | cons d t =>
          have hd : (0 : UInt8) = d := Option.some.inj (hs.symm.trans ht.1)
          exact absurd hd.symm ht.2.1
  | cons c s ih =>
      cases t with
      | nil =>
          have hc : c = 0 := Option.some.inj (hs.1.symm.trans ht)
          exact absurd hc hs.2.1
      | cons d t =>
          have hd : c = d := Option.some.inj (hs.1.symm.trans ht.1)
          rw [hd, ih hs.2.2 ht.2.2]

theorem cstring_iff (m : Mem Obj) (p : Ptr Obj) (s : List UInt8) :
    CString m p s ↔ 0 ∉ s ∧ ∀ i, i ≤ s.length → m.read (p.add i) = (s ++ [0])[i]? := by
  induction s generalizing p with
  | nil => simp [CString]
  | cons c s ih =>
      simp only [CString, ih, Ptr.add_add]
      constructor
      · rintro ⟨hc, hne, hs, hat⟩
        refine ⟨by grind, ?_⟩
        intro i hi
        cases i with
        | zero => simpa using hc
        | succ i =>
            rw [Nat.add_comm i 1, hat i (by simpa using hi), Nat.add_comm 1 i]
            rfl
      · rintro ⟨hno, hat⟩
        refine ⟨by simpa using hat 0 (Nat.zero_le _), by grind, by grind, ?_⟩
        intro i hi
        have h := hat (1 + i) (by simp; omega)
        rw [h, Nat.add_comm 1 i]
        rfl

theorem CString.congr {m m' : Mem Obj} {p : Ptr Obj} {s : List UInt8}
    (h : CString m p s) (same : ∀ i, i ≤ s.length → m'.read (p.add i) = m.read (p.add i)) :
    CString m' p s := by
  obtain ⟨hno, hat⟩ := (cstring_iff m p s).mp h
  exact (cstring_iff m' p s).mpr ⟨hno, fun i hi => (same i hi).trans (hat i hi)⟩

theorem CString.drop {m : Mem Obj} {p : Ptr Obj} {bs rest : List UInt8}
    (h : CString m p (bs ++ rest)) : CString m (p.add bs.length) rest := by
  induction bs generalizing p with
  | nil => simpa using h
  | cons b bs ih =>
      have hrest := ih h.2.2
      rwa [Ptr.add_add, Nat.add_comm 1] at hrest

theorem CString.yields {m : Mem Obj} {p : Ptr Obj} {bs rest : List UInt8}
    (h : CString m p (bs ++ rest)) : Yields m p bs := by
  intro i hi
  have hread := ((cstring_iff m p _).mp h).2 i (by rw [List.length_append]; omega)
  rw [hread, List.append_assoc, List.getElem?_append_left hi]

theorem Yields.append {m : Mem Obj} {p : Ptr Obj} {bs cs : List UInt8}
    (h : Yields m p (bs ++ cs)) : Yields m p bs ∧ Yields m (p.add bs.length) cs := by
  constructor
  · intro i hi
    rw [h i (by rw [List.length_append]; omega), List.getElem?_append_left hi]
  · intro i hi
    rw [Ptr.add_add, h _ (by rw [List.length_append]; omega),
      List.getElem?_append_right (by omega), Nat.add_sub_cancel_left]

theorem cstring_lit (m : Mem Obj) (text : List UInt8) (h : 0 ∉ text) :
    CString m (.lit text 0) text := by
  refine (cstring_iff m _ text).mpr ⟨h, fun i _ => ?_⟩
  simp [Ptr.add, Mem.read]

theorem cstring_blit [DecidableEq Obj] (m : Mem Obj) (l : Loc Obj) (text : List UInt8)
    (h : 0 ∉ text) (hlen : text.length < 2 ^ 64) :
    CString (m.blit l (text ++ [0])) (.loc l) text := by
  refine (cstring_iff _ _ text).mpr ⟨h, fun i hi => ?_⟩
  have hlt : i < (text ++ [0]).length := by simp; omega
  simp only [Ptr.add, Mem.read]
  rw [m.blit_at l (by omega) (by simp; omega), if_pos hlt, List.getD_eq_getElem?_getD,
    List.getElem?_eq_getElem hlt, Option.getD_some]

/-- An array that holds a string and its terminator shows that string. -/
theorem CString.textOf {m : Mem Obj} {l : Loc Obj} {s : List UInt8} {n : Nat}
    (h : CString m (.loc l) s) (hn : s.length < n) : m.textOf l n = s := by
  obtain ⟨hno, hat⟩ := (cstring_iff m _ s).mp h
  have hval : ∀ i, i ≤ s.length → m (l.add i) = (s ++ [0]).getD i 0 := by
    intro i hi
    have hi' := hat i hi
    simp only [Ptr.add, Mem.read] at hi'
    rw [List.getD_eq_getElem?_getD, ← hi', Option.getD_some]
  obtain ⟨k, rfl⟩ : ∃ k, n = (s.length + 1) + k := ⟨n - (s.length + 1), by omega⟩
  have hfront : (List.range (s.length + 1)).map (fun i => m (l.add i)) = s ++ [0] := by
    apply List.ext_getElem (by simp)
    intro i hi hi'
    rw [List.getElem_map, List.getElem_range, hval i (by simpa [Nat.lt_succ_iff] using hi),
      List.getD_eq_getElem?_getD, List.getElem?_eq_getElem hi', Option.getD_some]
  have hstop : ∀ c ∈ s, (c != 0) = true := by
    intro c hc
    have hne : c ≠ 0 := fun hzero => hno (hzero ▸ hc)
    simpa using hne
  rw [Mem.textOf, List.range_add, List.map_append, hfront, List.append_assoc,
    List.takeWhile_append_of_pos hstop]
  simp
