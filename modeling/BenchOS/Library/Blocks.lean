import BenchOS.Library.Memory

/-!
Blocks of bytes stored one after the other. Where no two of them share a byte, each of
them stands in the end, in whatever order they were stored, and every byte outside
them all keeps its value.
-/

section Apart
variable {Obj : Type}

/-- The `n` bytes from `l` on and the `n'` bytes from `l'` on have none in common. -/
def Loc.Apart (l : Loc Obj) (n : Nat) (l' : Loc Obj) (n' : Nat) : Prop :=
  ∀ b, ¬ (l.Covers n b ∧ l'.Covers n' b)

/-- Bytes of a part of a range are bytes of the range. -/
theorem Loc.Covers.of_add {l b : Loc Obj} {i k n : Nat} (h : (l.add i).Covers k b)
    (hk : i + k ≤ n) (hn : n ≤ 2 ^ 64) : l.Covers n b := by
  obtain ⟨j, hj, -, rfl⟩ := h.exists_add
  rw [Loc.add_add]
  exact l.add_covers (by omega) hn

/-- Two parts of one object are apart when one ends before the other begins. -/
theorem Loc.apart_add (l : Loc Obj) {i n i' n' : Nat} (hi : i + n ≤ 2 ^ 64)
    (hi' : i' + n' ≤ 2 ^ 64) (h : i + n ≤ i' ∨ i' + n' ≤ i) :
    (l.add i).Apart n (l.add i') n' := by
  rintro b ⟨hb, hb'⟩
  obtain ⟨j, hj, -, rfl⟩ := hb.exists_add
  obtain ⟨j', hj', -, hsame⟩ := hb'.exists_add
  rw [Loc.add_add, Loc.add_add] at hsame
  have heq := (l.add_inj (by omega) (by omega)).mp hsame
  omega

end Apart

section Blits
variable {Obj : Type} [DecidableEq Obj]

/-- Memory `m` after the blocks `ws` have been stored in turn. -/
def Mem.blits (m : Mem Obj) (ws : List (Loc Obj × List UInt8)) : Mem Obj :=
  ws.foldl (fun m w => m.blit w.1 w.2) m

variable {m : Mem Obj} {ws : List (Loc Obj × List UInt8)}

@[simp] theorem Mem.blits_nil (m : Mem Obj) : m.blits [] = m := rfl

theorem Mem.blits_append (m : Mem Obj) (ws ws' : List (Loc Obj × List UInt8)) :
    m.blits (ws ++ ws') = (m.blits ws).blits ws' :=
  List.foldl_append

/-- What a byte becomes does not depend on the others. -/
theorem Mem.blits_congr {m' : Mem Obj} {b : Loc Obj} (h : m b = m' b) :
    m.blits ws b = m'.blits ws b := by
  induction ws generalizing m m' with
  | nil => exact h
  | cons w ws ih =>
      refine ih ?_
      simp only [Mem.blit, h]

theorem Mem.blits_outside {b : Loc Obj} (h : ∀ w ∈ ws, ¬ w.1.Covers w.2.length b) :
    m.blits ws b = m b := by
  induction ws generalizing m with
  | nil => rfl
  | cons w ws ih =>
      have hrest := ih (m := m.blit w.1 w.2) fun w' hw' => h w' (List.mem_cons_of_mem w hw')
      rw [m.blit_outside w.1 (h w List.mem_cons_self)] at hrest
      exact hrest

/-- A block is kept by stores that are apart from it. -/
theorem Mem.Block.blits {l : Loc Obj} {bs : List UInt8} (h : m.Block l bs)
    (hlen : bs.length ≤ 2 ^ 64) (apart : ∀ w ∈ ws, l.Apart bs.length w.1 w.2.length) :
    (m.blits ws).Block l bs := by
  intro i hi
  rw [Mem.blits_outside fun w hw hc => apart w hw _ ⟨l.add_covers hi hlen, hc⟩]
  exact h i hi

theorem Mem.block_blits (m : Mem Obj) (hlen : ∀ w ∈ ws, w.2.length ≤ 2 ^ 64)
    (apart : ws.Pairwise fun w w' => w.1.Apart w.2.length w'.1 w'.2.length)
    {w : Loc Obj × List UInt8} (hw : w ∈ ws) : (m.blits ws).Block w.1 w.2 := by
  induction ws generalizing m with
  | nil => cases hw
  | cons v ws ih =>
      rw [List.pairwise_cons] at apart
      cases hw with
      | head =>
          have hv := hlen _ List.mem_cons_self
          exact (m.block_blit w.1 hv).blits hv apart.1
      | tail _ hw =>
          exact ih (m.blit v.1 v.2) (fun w' hw' => hlen w' (List.mem_cons_of_mem v hw')) apart.2 hw

end Blits
