import BenchOS.Main
import BenchOS.Printing

/-!
`strcpy` of `main.c`. It copies a string that lies clear of its own stores; where a
store meets a byte that is still to be read, the terminator is gone before the loop
comes to it and the loop never ends.
-/
namespace BenchOS

/-- Storing the `n` bytes from `dst` on overwrites none of the `n` bytes that follow the
first one of `src`. -/
def Clear (src : Pointer) (dst : Location) (n : Nat) : Prop :=
  ∀ k, 0 < k → k ≤ n → src.add k ≠ .loc dst

theorem clear_of_outside {src : Pointer} {dst : Location} (h : Pointer.Outside src dst.obj)
    (n : Nat) : Clear src dst n := by
  intro k _ _ heq
  have hout := outside_add h k
  rw [heq] at hout
  exact hout rfl

theorem Clear.tail {src : Pointer} {dst : Location} {n : Nat} (h : Clear src dst (n + 1)) :
    Clear (src.add 1) (dst.add 1) n := by
  intro k hpos hk heq
  rw [Ptr.add_add, Nat.add_comm, ← Ptr.add_add] at heq
  exact h k hpos (by omega) ((Ptr.add_cancel 1).mp heq)

theorem read_update_ne {p : Pointer} {l : Location} (h : p ≠ .loc l) (m : Mem Object)
    (c : UInt8) : Mem.read (Function.update m l c) p = m.read p := by
  cases p with
  | loc l' =>
      have hne : l' ≠ l := fun heq => h (by rw [heq])
      simp [Mem.read, hne]
  | lit text i => rfl

/-- Every byte the trace reads is one of the first `n + 1` from `p` on. -/
def ReadsWithin (p : Pointer) (n : Nat) : List BusEvent → Prop :=
  ReadsOnly fun q => ∃ i, i ≤ n ∧ q = p.add i

theorem ReadsWithin.shift {p : Pointer} {n : Nat} {t : List BusEvent}
    (h : ReadsWithin (p.add 1) n t) : ReadsWithin p (n + 1) t := by
  intro q hq
  obtain ⟨i, hi, rfl⟩ := h q hq
  exact ⟨1 + i, by omega, by simp⟩

/-- The loop copies the characters and stops at the terminator, which is still there. -/
theorem strcpy_loop {src : Pointer} {dst : Location} {text : List UInt8} {s : Machine}
    (h : CString s.mem src text) (hclear : Clear src dst text.length)
    (hlen : text.length < 2 ^ 64) :
    ∃ t, ReadsWithin src text.length t ∧
      (s.mem.blit dst text).read (src.add text.length) = some 0 ∧
      (Prog.loop strcpyTurn (dst, src)).Returns s
        (dst.add text.length, src.add text.length)
        { s with mem := s.mem.blit dst text, bus := s.bus ++ t } := by
  induction text generalizing src dst s with
  | nil =>
      have hread : s.mem.read src = some 0 := h
      refine ⟨[.read src], ?_, by simpa using hread, Prog.loop_leave (.of_forall fun _ => ?_)⟩
      · intro q hq
        exact ⟨0, Nat.le_refl 0, by simpa using hq⟩
      · simp [strcpyTurn, load, hread]
  | cons c text ih =>
      obtain ⟨hread, hc, htail⟩ := h
      rw [List.length_cons] at hlen
      let e : List BusEvent := [.read src, .read src, .write dst c]
      let s₁ : Machine := { s with mem := Function.update s.mem dst c, bus := s.bus ++ e }
      have hturn : (strcpyTurn (dst, src)).Returns s (.again (dst.add 1, src.add 1)) s₁ :=
        .of_forall fun _ => by simp [strcpyTurn, load, store, hread, hc, s₁, e]
      have htail₁ : CString s₁.mem (src.add 1) text := by
        apply htail.congr
        intro i hi
        apply read_update_ne
        rw [Ptr.add_add]
        exact hclear (1 + i) (by omega) (by simp; omega)
      obtain ⟨t, ht, hend, hloop⟩ := ih (s := s₁) htail₁ hclear.tail (by omega)
      have hmem : s₁.mem.blit (dst.add 1) text = s.mem.blit dst (c :: text) := by
        have hblit := s.mem.blit_blit dst [c] text (by simp; omega)
        rwa [Mem.blit_singleton] at hblit
      rw [hmem, Ptr.add_add, Nat.add_comm 1] at hend
      rw [hmem] at hloop
      refine ⟨e ++ t, ?_, hend, Prog.loop_again hturn ?_⟩
      · refine ReadsOnly.append ?_ ht.shift
        intro q hq
        exact ⟨0, Nat.zero_le _, by simpa [e] using hq⟩
      · simpa [s₁, Nat.add_comm 1] using hloop

theorem strcpy_copies {src : Pointer} (dst : Location) {text : List UInt8} {s : Machine}
    (h : CString s.mem src text) (hclear : Clear src dst text.length)
    (hlen : text.length < 2 ^ 64) :
    ∃ t, ReadsWithin src text.length t ∧ (strcpy dst src).Returns s ()
      { s with mem := s.mem.blit dst (text ++ [0]), bus := s.bus ++ t } := by
  obtain ⟨t, ht, hend, hloop⟩ := strcpy_loop h hclear hlen
  let e : List BusEvent := [.read (src.add text.length), .write (dst.add text.length) 0]
  refine ⟨t ++ e, ht.append ?_, hloop.bind (.of_forall fun _ => ?_)⟩
  · intro q hq
    exact ⟨text.length, Nat.le_refl _, by simpa [e] using hq⟩
  · have hmem := s.mem.blit_blit dst text [0] (by simp; omega)
    rw [Mem.blit_singleton] at hmem
    simp [load, store, hend, hmem, e]

/-- `strcpy` stores the string and its terminator. -/
theorem strcpy_returns {src : Pointer} (dst : Location) {text : List UInt8} {s : Machine}
    (h : CString s.mem src text) (hout : Pointer.Outside src dst.obj)
    (hlen : text.length < 2 ^ 64) :
    ∃ t, (strcpy dst src).Returns s ()
      { s with mem := s.mem.blit dst (text ++ [0]), bus := s.bus ++ t } := by
  obtain ⟨t, -, hreturns⟩ := strcpy_copies dst h (clear_of_outside hout _) hlen
  exact ⟨t, hreturns⟩

/-- The destination is `k` bytes after the source, and none of the bytes before it is
NUL: what the loop of `strcpy` keeps true when it chases its own copy. -/
def Chasing (k : Nat) (b : Location × Pointer) (s : Machine) : Prop :=
  b.2.add k = .loc b.1 ∧ ∀ j, j < k → ∃ c, s.mem.read (b.2.add j) = some c ∧ c ≠ 0

theorem strcpy_diverges {src : Pointer} {dst : Location} {k : Nat} {s : Machine} (hk : 0 < k)
    (h : Chasing k (dst, src) s) : (strcpy dst src).Diverges s := by
  apply Prog.Diverges.bind
  apply Prog.loop_diverges (Chasing k) _ h
  rintro n ⟨dst, src⟩ s ⟨hdst, hbefore⟩
  obtain ⟨c, hread, hc⟩ := hbefore 0 hk
  rw [Ptr.add_zero] at hread
  let s₁ : Machine :=
    { s with
      mem := Function.update s.mem dst c
      bus := s.bus ++ [.read src, .read src, .write dst c] }
  refine ⟨(dst.add 1, src.add 1), s₁,
    by simp [strcpyTurn, load, store, hread, hc, s₁], ?_, ?_⟩
  · show (src.add 1).add k = .loc (dst.add 1)
    rw [Ptr.add_add, Nat.add_comm, ← Ptr.add_add, hdst]
    rfl
  · intro j hj
    show ∃ d, Mem.read (Function.update s.mem dst c) ((src.add 1).add j) = some d ∧ d ≠ 0
    by_cases hat : (src.add 1).add j = .loc dst
    · exact ⟨c, by rw [hat]; simp [Mem.read], hc⟩
    · -- A byte before the new destination that is not the old one was before that one too.
      rw [read_update_ne hat, Ptr.add_add]
      apply hbefore
      by_contra hlast
      obtain rfl : 1 + j = k := by omega
      rw [Ptr.add_add, hdst] at hat
      exact hat rfl

/-- `src < dst <= src + n`, for addresses in one object. -/
def Overtakes : Pointer → Location → Nat → Prop
  | .loc src, dst, n =>
    src.obj = dst.obj ∧ src.off < dst.off ∧ dst.off.toNat ≤ src.off.toNat + n
  | .lit _ _, _, _ => False

/-- The `n` bytes that follow the one at `p` have addresses above it. -/
def NoWrap : Pointer → Nat → Prop
  | .loc l, n => l.off.toNat + n < 2 ^ 64
  | .lit _ _, _ => True

theorem clear_iff {src : Pointer} {dst : Location} {n : Nat} (h : NoWrap src n) :
    Clear src dst n ↔ ¬ Overtakes src dst n := by
  cases src with
  | lit text i => simp [Clear, Overtakes, Ptr.add]
  | loc src =>
      have hbound : src.off.toNat + n < 2 ^ 64 := h
      have hoff : ∀ k, k ≤ n → (src.add k).off.toNat = src.off.toNat + k := by
        intro k hk
        simp only [Loc.add, UInt64.toNat_add, UInt64.toNat_ofNat']
        omega
      constructor
      · rintro hclear ⟨hobj, hlt, hle⟩
        obtain ⟨o, a⟩ := dst
        obtain rfl : src.obj = o := hobj
        simp only [UInt64.lt_iff_toNat_lt] at hlt hle
        have hsame : (src.add (a.toNat - src.off.toNat)).off = a := by
          rw [← UInt64.toNat_inj, hoff _ (by omega)]
          omega
        apply hclear (a.toNat - src.off.toNat) (by omega) (by omega)
        exact congrArg (fun a => Ptr.loc ⟨src.obj, a⟩) hsame
      · intro hnot k hpos hk heq
        have hdst : src.add k = dst := Ptr.loc.inj heq
        subst hdst
        have hat := hoff k hk
        refine hnot ⟨rfl, ?_, by omega⟩
        rw [UInt64.lt_iff_toNat_lt]
        omega

/-- `strcpy` ends exactly when it does not store into the string after its first byte.
When it ends, the string and its terminator are at `dst`, nothing else has changed, and
it has read no further than the terminator. -/
theorem strcpy_ends_iff {src : Pointer} {dst : Location} {text : List UInt8} {s : Machine}
    (h : CString s.mem src text) (hsrc : NoWrap src text.length)
    (hdst : NoWrap (.loc dst) text.length) :
    ((∃ o, (strcpy dst src).Ends s o) ↔ ¬ Overtakes src dst text.length) ∧
      ∀ o, (strcpy dst src).Ends s o → ∃ s' t, o = .returned () s' ∧
        (∀ i, i ≤ text.length → s'.mem (dst.add i) = (text ++ [0]).getD i 0) ∧
        (∀ l, ¬ dst.Covers (text.length + 1) l → s'.mem l = s.mem l) ∧
        s'.bus = s.bus ++ t ∧ ReadsWithin src text.length t := by
  have hlen : text.length < 2 ^ 64 := by
    have hbound : dst.off.toNat + text.length < 2 ^ 64 := hdst
    omega
  rw [← clear_iff hsrc]
  by_cases hclear : Clear src dst text.length
  · obtain ⟨t, ht, hreturns⟩ := strcpy_copies dst h hclear hlen
    refine ⟨⟨fun _ => hclear, fun _ => ⟨_, hreturns⟩⟩, ?_⟩
    intro o ho
    refine ⟨_, t, ho.unique hreturns, ?_, ?_, rfl, ht⟩
    · intro i hi
      have hsize : (text ++ [0]).length ≤ 2 ^ 64 := by simp; omega
      have hat := s.mem.blit_at dst (i := i) (by omega) hsize
      rwa [if_pos (by simp; omega)] at hat
    · intro l hl
      exact s.mem.blit_outside dst (by simpa using hl)
  · have hnever : ∀ o, ¬ (strcpy dst src).Ends s o := by
      obtain ⟨k, hpos, hk, hmeet⟩ : ∃ k, 0 < k ∧ k ≤ text.length ∧ src.add k = .loc dst := by
        simpa [Clear] using hclear
      apply Prog.Diverges.not_ends (strcpy_diverges hpos ⟨hmeet, ?_⟩)
      intro j hj
      obtain ⟨hno, hat⟩ := (cstring_iff _ _ _).mp h
      have hlt : j < text.length := by omega
      refine ⟨text[j], ?_, fun hzero => hno (hzero ▸ List.getElem_mem hlt)⟩
      rw [hat j (by omega), List.getElem?_append_left hlt, List.getElem?_eq_getElem hlt]
    exact ⟨⟨fun ⟨o, ho⟩ => absurd ho (hnever o), fun hc => absurd hc hclear⟩,
      fun o ho => absurd ho (hnever o)⟩

/-- "USABLE" moves down by two bytes over its own beginning. -/
theorem strcpy_ends_iff_usable :
    ∃ s', (strcpy memmapType (.loc (memmapType.add 2))).Returns
        { Machine.reset with
          mem := Mem.blit (fun _ => 0) (memmapType.add 2) (bytes "USABLE" ++ [0]) } () s' ∧
      ∀ i, i ≤ 6 → s'.mem (memmapType.add i) = (bytes "USABLE" ++ [0]).getD i 0 := by
  have htext := cstring_blit (fun _ => 0) (memmapType.add 2) (bytes "USABLE") (by decide)
    (by decide)
  have hsrc : NoWrap (.loc (memmapType.add 2)) (bytes "USABLE").length := by
    simp only [NoWrap]
    decide
  have hdst : NoWrap (.loc memmapType) (bytes "USABLE").length := by
    simp only [NoWrap]
    decide
  have hbelow : ¬ Overtakes (.loc (memmapType.add 2)) memmapType (bytes "USABLE").length :=
    fun h => absurd h.2.1 (by decide)
  obtain ⟨hiff, hend⟩ := strcpy_ends_iff
    (s := { Machine.reset with
      mem := Mem.blit (fun _ => 0) (memmapType.add 2) (bytes "USABLE" ++ [0]) })
    htext hsrc hdst
  obtain ⟨o, ho⟩ := hiff.mpr hbelow
  obtain ⟨s', t, rfl, hcopy, -⟩ := hend o ho
  exact ⟨s', ho, hcopy⟩

end BenchOS
