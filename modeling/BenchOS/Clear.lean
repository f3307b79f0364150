import BenchOS.Console
import BenchOS.Library.Blocks
import BenchOS.Library.Raster

/-!
What `consoleClear` stores. Its loops store the colour once for every pixel, row by
row. The place is an index of 32-bit words, so where the pitch is not a multiple of 4 a
row begins at the word that its first byte is in.
-/
namespace BenchOS

/-- The machine after `v` has been stored at the `places` in turn. -/
def Machine.storing32 (s : Machine) (places : List Location) (v : UInt32) : Machine :=
  { s with
    mem := s.mem.blits (places.map fun l => (l, bytes32 v))
    bus := s.bus ++ places.map fun l => .write32 l v }

@[simp] theorem Machine.storing32_nil (s : Machine) (v : UInt32) : s.storing32 [] v = s := by
  simp [Machine.storing32]

@[simp] theorem Machine.storing32_append (s : Machine) (as bs : List Location) (v : UInt32) :
    (s.storing32 as v).storing32 bs v = s.storing32 (as ++ bs) v := by
  simp [Machine.storing32, Mem.blits_append]

@[simp] theorem Machine.storing32_framebuffer (s : Machine) (places : List Location)
    (v : UInt32) : (s.storing32 places v).globalFramebuffer = s.globalFramebuffer := rfl

/-- The machine with the renderer in the state `dst`. -/
def Machine.withRenderer (s : Machine) (dst : SsfnBuf) : Machine := { s with ssfnDst := dst }

@[simp] theorem Machine.withRenderer_framebuffer (s : Machine) (dst : SsfnBuf) :
    (s.withRenderer dst).globalFramebuffer = s.globalFramebuffer := rfl

theorem Machine.withRenderer_storing32 (s : Machine) (dst : SsfnBuf) (places : List Location)
    (v : UInt32) :
    (s.withRenderer dst).storing32 places v = (s.storing32 places v).withRenderer dst := rfl

theorem store32_returns (address : UInt64) (v : UInt32) (s : Machine) :
    (store32 address v).Returns s () (s.storing32 [⟨.ram, address⟩] v) :=
  Prog.returns_modify _ s

def LimineFramebuffer.place (fb : LimineFramebuffer) (i j : Nat) : Location :=
  ⟨.ram, fb.pixel (UInt64.ofNat i) (UInt64.ofNat j)⟩

/-- The places of the first `n` rows. -/
def LimineFramebuffer.places (fb : LimineFramebuffer) (n : Nat) : List Location :=
  (Raster.cells n fb.width.toNat).map fun x => fb.place x.1 x.2

theorem places_succ_row (fb : LimineFramebuffer) (n : Nat) :
    fb.places (n + 1) = fb.places n ++ (List.range fb.width.toNat).map (fb.place n) := by
  rw [LimineFramebuffer.places, Raster.cells_succ, List.map_append, List.map_map]
  rfl

/-- What an operation stores in the framebuffer when characters are not drawn. -/
def ScreenOp.stores (fb : LimineFramebuffer) : ScreenOp → List (Location × List UInt8)
  | .put _ => []
  | .clear color => (fb.places fb.height.toNat).map fun l => (l, bytes32 color)

/-- Memory `m` after the clears among `ops`. -/
def LimineFramebuffer.wiped (fb : LimineFramebuffer) (ops : List ScreenOp) (m : Mem Object) :
    Mem Object :=
  m.blits (ops.flatMap (ScreenOp.stores fb))

theorem LimineFramebuffer.wiped_append (fb : LimineFramebuffer) (a b : List ScreenOp)
    (m : Mem Object) : fb.wiped (a ++ b) m = fb.wiped b (fb.wiped a m) := by
  rw [LimineFramebuffer.wiped, List.flatMap_append, Mem.blits_append]
  rfl

/-- The pen is moved to the top after every row. -/
def SsfnBuf.afterRows (dst : SsfnBuf) (n : Nat) : SsfnBuf :=
  if n = 0 then dst else { dst with x := 0, y := 0 }

theorem afterRows_succ (dst : SsfnBuf) (n : Nat) :
    dst.afterRows (n + 1) = { dst.afterRows n with x := 0, y := 0 } := by
  cases n with
  | zero => rfl
  | succ n => rfl

theorem afterRows_colours (dst : SsfnBuf) (n : Nat) (fg bg : UInt32) :
    { dst.afterRows n with bg := bg, fg := fg } =
      { ({ dst with fg := fg } : SsfnBuf).afterRows n with bg := bg } := by
  cases n with
  | zero => rfl
  | succ n => rfl

/-- The renderer's state after `op`: a clear moves the pen and gives it its background. -/
def ScreenOp.turns (fb : LimineFramebuffer) (dst : SsfnBuf) : ScreenOp → SsfnBuf
  | .put _ => dst
  | .clear color => { dst.afterRows fb.height.toNat with bg := 0xff000000 ||| color }

section Loops
variable (color : UInt32) (s : Machine)

theorem clearPixel_loop (i : Nat) :
    (Prog.loop (clearPixelTurn color (UInt64.ofNat i)) 0).Returns s ()
      (s.storing32 ((List.range s.globalFramebuffer.width.toNat).map
        (s.globalFramebuffer.place i)) color) := by
  let stored (j : Nat) (s' : Machine) : Prop :=
    s' = s.storing32 ((List.range j).map (s.globalFramebuffer.place i)) color
  have hloop : ∃ s', (Prog.loop (clearPixelTurn color (UInt64.ofNat i)) 0).Returns s () s' ∧
      stored s.globalFramebuffer.width.toNat s' := by
    apply Prog.loop_countingUp s.globalFramebuffer.width stored
    · rintro j _ - hmore rfl
      refine ⟨_, (Prog.returns_get _).bind ?_, rfl⟩
      rw [Machine.storing32_framebuffer, if_pos hmore, List.range_succ, List.map_append,
        ← Machine.storing32_append]
      exact (store32_returns _ color _).bind (Prog.returns_pure _ _)
    · rintro _ rfl
      apply (Prog.returns_get _).bind
      rw [Machine.storing32_framebuffer, if_neg (UInt64.lt_irrefl _)]
      exact Prog.returns_pure _ _
    · exact (s.storing32_nil color).symm
  obtain ⟨_, hreturn, rfl⟩ := hloop
  exact hreturn

theorem clearRow_loop :
    (Prog.loop (clearRowTurn color) 0).Returns s ()
      ((s.storing32 (s.globalFramebuffer.places s.globalFramebuffer.height.toNat)
        color).withRenderer (s.ssfnDst.afterRows s.globalFramebuffer.height.toNat)) := by
  let cleared (i : Nat) (s' : Machine) : Prop :=
    s' = (s.storing32 (s.globalFramebuffer.places i) color).withRenderer (s.ssfnDst.afterRows i)
  have hloop : ∃ s', (Prog.loop (clearRowTurn color) 0).Returns s () s' ∧
      cleared s.globalFramebuffer.height.toNat s' := by
    apply Prog.loop_countingUp s.globalFramebuffer.height cleared
    · rintro i _ - hmore rfl
      have hrow := clearPixel_loop color ((s.storing32 (s.globalFramebuffer.places i)
        color).withRenderer (s.ssfnDst.afterRows i)) i
      rw [Machine.withRenderer_framebuffer, Machine.storing32_framebuffer,
        Machine.withRenderer_storing32, Machine.storing32_append, ← places_succ_row] at hrow
      refine ⟨_, (Prog.returns_get _).bind ?_, rfl⟩
      rw [Machine.withRenderer_framebuffer, Machine.storing32_framebuffer, if_pos hmore,
        afterRows_succ]
      exact hrow.bind ((Prog.returns_modify _ _).bind (Prog.returns_pure _ _))
    · rintro _ rfl
      apply (Prog.returns_get _).bind
      rw [Machine.withRenderer_framebuffer, Machine.storing32_framebuffer,
        if_neg (UInt64.lt_irrefl _)]
      exact Prog.returns_pure _ _
    · exact congrArg (Machine.withRenderer · s.ssfnDst) (s.storing32_nil color).symm
  obtain ⟨_, hreturn, rfl⟩ := hloop
  exact hreturn

theorem consoleClear_returns :
    (consoleClear color).Returns s ()
      ((s.storing32 (s.globalFramebuffer.places s.globalFramebuffer.height.toNat)
        color).withRenderer
          { s.ssfnDst.afterRows s.globalFramebuffer.height.toNat with
            bg := 0xff000000 ||| color }) :=
  (clearRow_loop color s).bind (Prog.returns_modify _ _)

end Loops

/-- Rows of 32-bit pixels that do not overlap, within one address space. -/
structure LimineFramebuffer.RowsHold (fb : LimineFramebuffer) : Prop where
  rowHolds : 4 * fb.width.toNat ≤ fb.pitch.toNat
  size : fb.pitch.toNat * fb.height.toNat < 2 ^ 64

def LimineFramebuffer.base (fb : LimineFramebuffer) : Location := ⟨.ram, fb.address⟩

namespace LimineFramebuffer.RowsHold
variable {fb : LimineFramebuffer} (h : fb.RowsHold)
include h

/-- Nothing wraps in the index of a pixel. -/
theorem pixel_eq {x y : UInt64} (hx : x < fb.width) (hy : y < fb.height) :
    fb.pixel y x =
      fb.address + UInt64.ofNat (4 * Raster.index 4 fb.pitch.toNat y.toNat x.toNat) := by
  rw [UInt64.lt_iff_toNat_lt] at hx hy
  have hwithin := Raster.index_within (c := 4) (by omega) h.rowHolds hy hx
  have hsize := h.size
  have hrow : (y * fb.pitch).toNat = y.toNat * fb.pitch.toNat := by
    have hle : y.toNat * fb.pitch.toNat ≤ fb.height.toNat * fb.pitch.toNat :=
      Nat.mul_le_mul_right _ (Nat.le_of_lt hy)
    rw [Nat.mul_comm fb.pitch.toNat] at hsize
    rw [UInt64.toNat_mul]
    exact Nat.mod_eq_of_lt (Nat.lt_of_le_of_lt hle hsize)
  rw [LimineFramebuffer.pixel, UInt64.add_right_inj, ← UInt64.toNat_inj, UInt64.toNat_ofNat']
  simp only [UInt64.toNat_mul, UInt64.toNat_add, UInt64.toNat_div, hrow, UInt64.reduceToNat]
  rw [Raster.index] at hwithin ⊢
  omega

theorem place_eq {i j : Nat} (hi : i < fb.height.toNat) (hj : j < fb.width.toNat) :
    fb.place i j = fb.base.add (4 * Raster.index 4 fb.pitch.toNat i j) := by
  have hi' : (UInt64.ofNat i).toNat = i :=
    UInt64.toNat_ofNat_of_lt' (Nat.lt_trans hi fb.height.toNat_lt_size)
  have hj' : (UInt64.ofNat j).toNat = j :=
    UInt64.toNat_ofNat_of_lt' (Nat.lt_trans hj fb.width.toNat_lt_size)
  rw [LimineFramebuffer.place, h.pixel_eq (Prog.ofNat_lt hj) (Prog.ofNat_lt hi), hi', hj']
  rfl

theorem places_eq : fb.places fb.height.toNat =
    (Raster.cells fb.height.toNat fb.width.toNat).map fun x =>
      fb.base.add (4 * Raster.index 4 fb.pitch.toNat x.1 x.2) := by
  apply List.map_congr_left
  intro x hx
  obtain ⟨hi, hj⟩ := Raster.mem_cells.mp hx
  exact h.place_eq hi hj

theorem offset_within {x : Nat × Nat} (hx : x ∈ Raster.cells fb.height.toNat fb.width.toNat) :
    4 * Raster.index 4 fb.pitch.toNat x.1 x.2 + 4 ≤ fb.pitch.toNat * fb.height.toNat := by
  obtain ⟨hi, hj⟩ := Raster.mem_cells.mp hx
  exact Raster.index_within (by omega) h.rowHolds hi hj

/-- No two pixels share a byte. -/
theorem places_apart :
    (fb.places fb.height.toNat).Pairwise fun l l' => l.Apart 4 l' 4 := by
  have hsize := h.size
  rw [h.places_eq, List.pairwise_map]
  refine (Raster.cells_increase (c := 4) (by omega) h.rowHolds _).imp_of_mem ?_
  intro x y hx hy hlt
  have hx' := h.offset_within hx
  have hy' := h.offset_within hy
  exact fb.base.apart_add (by omega) (by omega) (by omega)

/-- Every pixel lies in the framebuffer. -/
theorem places_within {l b : Location} (hl : l ∈ fb.places fb.height.toNat)
    (hb : l.Covers 4 b) : fb.base.Covers (fb.pitch.toNat * fb.height.toNat) b := by
  rw [h.places_eq] at hl
  obtain ⟨x, hx, rfl⟩ := List.mem_map.mp hl
  exact hb.of_add (h.offset_within hx) (Nat.le_of_lt h.size)

theorem places_aligned (hpitch : 4 ∣ fb.pitch.toNat) : fb.places fb.height.toNat =
    (Raster.cells fb.height.toNat fb.width.toNat).map fun x =>
      fb.base.add (x.1 * fb.pitch.toNat + 4 * x.2) := by
  simp only [h.places_eq, Raster.mul_index hpitch]

end LimineFramebuffer.RowsHold

theorem storing32_outside (s : Machine) {places : List Location} (v : UInt32) {b : Location}
    (h : ∀ l ∈ places, ¬ l.Covers 4 b) : (s.storing32 places v).mem b = s.mem b := by
  apply Mem.blits_outside
  intro w hw
  obtain ⟨l, hl, rfl⟩ := List.mem_map.mp hw
  exact h l hl

theorem storing32_block (s : Machine) {places : List Location} (v : UInt32)
    (apart : places.Pairwise fun l l' => l.Apart 4 l' 4) {l : Location} (hl : l ∈ places) :
    (s.storing32 places v).mem.Block l (bytes32 v) := by
  have hlen : ∀ w ∈ places.map fun l => (l, bytes32 v), w.2.length ≤ 2 ^ 64 := by
    intro w hw
    obtain ⟨l, -, rfl⟩ := List.mem_map.mp hw
    simp
  have hapart : (places.map fun l => (l, bytes32 v)).Pairwise fun w w' =>
      w.1.Apart w.2.length w'.1 w'.2.length := List.pairwise_map.mpr apart
  exact s.mem.block_blits hlen hapart (List.mem_map_of_mem hl)

theorem storing32_number (s : Machine) {places : List Location} (v : UInt32)
    (apart : places.Pairwise fun l l' => l.Apart 4 l' 4) {l : Location} (hl : l ∈ places) :
    (s.storing32 places v).mem.number l 4 = v.toNat :=
  number_bytes32 (storing32_block s v apart hl)

/-- `consoleClear` makes one store a pixel. No two of them share a byte, none leaves the
framebuffer, each holds the colour in the end and no other byte has changed. The pen is
at the top, and of the renderer the background alone is new. -/
theorem consoleClear_exact (color : UInt32) (s : Machine) (fb : LimineFramebuffer)
    (hfb : s.globalFramebuffer = fb) (hheight : 1 ≤ fb.height.toNat)
    (hrow : 4 * fb.width.toNat ≤ fb.pitch.toNat)
    (hsize : fb.pitch.toNat * fb.height.toNat < 2 ^ 64) :
    ∃ s' stores, (consoleClear color).Returns s () s' ∧
      s' =
        { s with
          mem := s'.mem
          bus := s.bus ++ stores.map fun l => .write32 l color
          ssfnDst := { s.ssfnDst with x := 0, y := 0, bg := 0xff000000 ||| color } } ∧
      stores.length = fb.width.toNat * fb.height.toNat ∧
      stores.Pairwise (fun l l' => l.Apart 4 l' 4) ∧
      (∀ l ∈ stores, ∀ b, l.Covers 4 b →
        Loc.Covers ⟨.ram, fb.address⟩ (fb.pitch.toNat * fb.height.toNat) b) ∧
      (∀ l ∈ stores, s'.mem.number l 4 = color.toNat) ∧
      (∀ b, (∀ l ∈ stores, ¬ l.Covers 4 b) → s'.mem b = s.mem b) ∧
      (4 ∣ fb.pitch.toNat → stores =
        (List.range fb.height.toNat ×ˢ List.range fb.width.toNat).map fun x =>
          Loc.add ⟨.ram, fb.address⟩ (x.1 * fb.pitch.toNat + 4 * x.2)) := by
  subst hfb
  have h : s.globalFramebuffer.RowsHold := ⟨hrow, hsize⟩
  have hpen : s.ssfnDst.afterRows s.globalFramebuffer.height.toNat =
      { s.ssfnDst with x := 0, y := 0 } := if_neg (by omega)
  have hreturns := consoleClear_returns color s
  rw [hpen] at hreturns
  refine ⟨_, s.globalFramebuffer.places s.globalFramebuffer.height.toNat, hreturns, rfl, ?_,
    h.places_apart, fun l hl b => h.places_within hl, ?_, ?_, h.places_aligned⟩
  · rw [LimineFramebuffer.places, List.length_map, Raster.length_cells]
  · intro l hl
    exact storing32_number s color h.places_apart hl
  · intro b hb
    exact storing32_outside s color hb

/-- Two rows of three pixels and a byte more. -/
def oddPitch : Machine := { Machine.reset with globalFramebuffer := ⟨0xfd000000, 3, 2, 13⟩ }

theorem consoleClear_exact_odd_pitch :
    ∃ s', ∃ stores : List Location, (consoleClear 0x38a169).Returns oddPitch () s' ∧
      stores.length = 6 ∧ ∀ l ∈ stores, s'.mem.number l 4 = 0x38a169 := by
  obtain ⟨s', stores, hreturns, -, hlen, -, -, hcolour, -⟩ :=
    consoleClear_exact 0x38a169 oddPitch _ rfl (by decide) (by decide) (by decide)
  exact ⟨s', stores, hreturns, hlen, hcolour⟩

end BenchOS
