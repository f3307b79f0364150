import BenchOS.Clear

/-!
Where the two drawing paths put a pixel. `consoleClear` addresses it with the
64-bit fields of the framebuffer, the renderer with the copy that `consoleInit`
made at its own widths: a 16-bit pitch, and `int`s for everything else.
-/
namespace BenchOS

/-- Every pixel of the screen has one address on both paths and is inside the
renderer's bounds. -/
def PathsAgree (s : Machine) : Prop :=
  ∀ x y : UInt64, x < s.globalFramebuffer.width → y < s.globalFramebuffer.height →
    s.ssfnDst.pixel x.toUInt32.toInt32 y.toUInt32.toInt32 = s.globalFramebuffer.pixel y x ∧
      s.ssfnDst.Inside x.toUInt32.toInt32 y.toUInt32.toInt32

/-- The framebuffers whose geometry survives the copy. On the only row of one with height 1
the pitch plays no part, so the addresses agree for any. A pitch that is a multiple of 65536
is kept as 0 there, and `ssfn_putc` draws nothing on a destination with `p = 0`. -/
def LimineFramebuffer.Fits (fb : LimineFramebuffer) : Prop :=
  fb.width.toNat = 0 ∨ fb.height.toNat = 0 ∨
    (fb.width.toNat < 2 ^ 31 ∧
      (fb.height.toNat = 1 ∨
        (fb.pitch.toNat < 2 ^ 16 ∧ (fb.height.toNat - 1) * fb.pitch.toNat < 2 ^ 31)))

/-- 32-bit pixels in rows that do not overlap, within one address space. -/
structure LimineFramebuffer.WellFormed (fb : LimineFramebuffer) : Prop where
  pixelRows : 4 ∣ fb.pitch.toNat
  rowHolds : 4 * fb.width.toNat ≤ fb.pitch.toNat
  size : fb.pitch.toNat * fb.height.toNat < 2 ^ 64

theorem toNat_ofInt (i : Int) : (UInt64.ofInt i).toNat = (i % 2 ^ 64).toNat := by
  have hlt : (i % 2 ^ 64).toNat < 2 ^ 64 := by omega
  simp only [UInt64.ofInt, UInt64.toNat_ofNat']
  omega

theorem toInt_int32 {n : UInt64} (h : n.toNat < 2 ^ 31) :
    n.toUInt32.toInt32.toInt = n.toNat := by
  have hlow : n.toUInt32.toNat = n.toNat := by
    rw [UInt64.toNat_toUInt32]
    omega
  rw [← Int32.toInt_toBitVec, UInt32.toBitVec_toInt32, BitVec.toInt_eq_toNat_bmod,
    UInt32.toNat_toBitVec, hlow]
  exact Int.bmod_eq_of_le (by omega) (by omega)

theorem toInt_pitch (p : UInt16) : p.toUInt32.toInt32.toInt = p.toNat := by
  have hlt := UInt16.toNat_lt p
  rw [← Int32.toInt_toBitVec, UInt32.toBitVec_toInt32, BitVec.toInt_eq_toNat_bmod,
    UInt32.toNat_toBitVec, UInt16.toNat_toUInt32]
  exact Int.bmod_eq_of_le (by omega) (by omega)

def Machine.drawingOn (s : Machine) (fb : LimineFramebuffer) : Machine :=
  { s with
    ssfnDst :=
      { ptr := fb.address
        w := fb.width.toUInt32.toInt32
        h := fb.height.toUInt32.toInt32
        p := fb.pitch.toUInt16
        x := 0
        y := 0
        fg := 0xFFFFFF
        bg := 0xff000000 }
    globalFramebuffer := fb }

theorem consoleInit_returns (fb : LimineFramebuffer) (s : Machine) :
    (consoleInit fb).Returns s () (s.drawingOn fb) :=
  Prog.returns_modify _ s

section Geometry
variable {fb : LimineFramebuffer} {x y : UInt64}

theorem LimineFramebuffer.WellFormed.rowsHold (wf : fb.WellFormed) : fb.RowsHold :=
  ⟨wf.rowHolds, wf.size⟩

theorem clear_pixel (wf : fb.WellFormed) (hx : x < fb.width) (hy : y < fb.height) :
    fb.pixel y x = fb.address + UInt64.ofNat (y.toNat * fb.pitch.toNat + 4 * x.toNat) := by
  rw [wf.rowsHold.pixel_eq hx hy, Raster.mul_index wf.pixelRows]

theorem renderer_first_row (dst : SsfnBuf) (x : Int32) :
    dst.pixel x (0 : UInt64).toUInt32.toInt32 = dst.ptr + UInt64.ofInt x.toInt * 4 := by
  have hzero : UInt64.ofInt 0 = 0 := rfl
  simp [SsfnBuf.pixel, hzero]

theorem renderer_row (p : UInt16) (hy : y.toNat < 2 ^ 31) :
    (y.toUInt32.toInt32 * p.toUInt32.toInt32).toInt =
      ((y.toNat * p.toNat : Nat) : Int).bmod (2 ^ 32) := by
  rw [Int32.toInt_mul, toInt_int32 hy, toInt_pitch, Int.natCast_mul]

/-- The address the renderer computes, with the row's offset as the `int` it becomes. -/
theorem renderer_pixel (s : Machine) (hx : x.toNat < 2 ^ 31) (hy : y.toNat < 2 ^ 31) :
    (s.drawingOn fb).ssfnDst.pixel x.toUInt32.toInt32 y.toUInt32.toInt32 =
      fb.address +
        UInt64.ofInt (((y.toNat * fb.pitch.toUInt16.toNat : Nat) : Int).bmod (2 ^ 32)) +
        UInt64.ofNat (4 * x.toNat) := by
  have hcolumn : UInt64.ofInt (x.toNat : Int) * 4 = UInt64.ofNat (4 * x.toNat) := by
    rw [← UInt64.toNat_inj, UInt64.toNat_mul, toNat_ofInt, UInt64.toNat_ofNat',
      show (4 : UInt64).toNat = 4 from rfl]
    omega
  simp only [SsfnBuf.pixel, Machine.drawingOn]
  rw [renderer_row _ hy, toInt_int32 hx, hcolumn]

theorem ofInt_bmod {n : Nat} (h : n < 2 ^ 31) :
    UInt64.ofInt ((n : Int).bmod (2 ^ 32)) = UInt64.ofNat n := by
  have hexact : (n : Int).bmod (2 ^ 32) = n := Int.bmod_eq_of_le (by omega) (by omega)
  rw [hexact, ← UInt64.toNat_inj, toNat_ofInt, UInt64.toNat_ofNat']
  omega

theorem inside_of_lt (s : Machine) (hx : x < fb.width) (hy : y < fb.height)
    (hw : fb.width.toNat < 2 ^ 31) (hh : fb.height.toNat < 2 ^ 31) :
    (s.drawingOn fb).ssfnDst.Inside x.toUInt32.toInt32 y.toUInt32.toInt32 := by
  rw [UInt64.lt_iff_toNat_lt] at hx hy
  have hwidth := toInt_int32 hw
  have hheight := toInt_int32 hh
  have hx' := toInt_int32 (n := x) (by omega)
  have hy' := toInt_int32 (n := y) (by omega)
  have hpos : ¬ fb.width.toUInt32.toInt32 < 0 := by
    rw [Int32.lt_iff_toInt_lt, hwidth, Int32.toInt_zero]
    omega
  simp only [SsfnBuf.Inside, SsfnBuf.lineWidth, Machine.drawingOn, hpos, if_false]
  refine ⟨?_, .inr ?_, .inr ?_⟩
  · rw [Int32.le_iff_toInt_le, hx', Int32.toInt_zero]
    omega
  · rw [Int32.lt_iff_toInt_lt, hx', hwidth]
    omega
  · rw [Int32.lt_iff_toInt_lt, hy', hheight]
    omega

theorem agree_of_fits (wf : fb.WellFormed) (s : Machine) (h : fb.Fits) :
    PathsAgree (s.drawingOn fb) := by
  intro x y hx hy
  have hx' : x.toNat < fb.width.toNat := UInt64.lt_iff_toNat_lt.mp hx
  have hy' : y.toNat < fb.height.toNat := UInt64.lt_iff_toNat_lt.mp hy
  obtain hw | hh | ⟨hw, hone | ⟨hp, hlast⟩⟩ := h
  · omega
  · omega
  · have hzero : y.toNat = 0 := by omega
    refine ⟨?_, inside_of_lt s hx hy hw (by omega)⟩
    have hclear := clear_pixel wf hx hy
    rw [hzero, Nat.zero_mul, Nat.zero_add] at hclear
    rw [renderer_pixel s (by omega) (by omega), hzero, Nat.zero_mul, ofInt_bmod (by omega),
      show UInt64.ofNat 0 = 0 from rfl, UInt64.add_zero]
    exact hclear.symm
  · have hpitch : fb.pitch.toUInt16.toNat = fb.pitch.toNat := by
      rw [UInt64.toNat_toUInt16]
      omega
    have hfour := wf.rowHolds
    have hrow : y.toNat * fb.pitch.toNat ≤ (fb.height.toNat - 1) * fb.pitch.toNat :=
      Nat.mul_le_mul_right _ (by omega)
    have hrows : (fb.height.toNat - 1) * 4 ≤ (fb.height.toNat - 1) * fb.pitch.toNat :=
      Nat.mul_le_mul_left _ (by omega)
    refine ⟨?_, inside_of_lt s hx hy hw (by omega)⟩
    rw [renderer_pixel s (by omega) (by omega), hpitch, ofInt_bmod (by omega),
      UInt64.add_assoc, ← UInt64.ofNat_add]
    exact (clear_pixel wf hx hy).symm

/-- A screen of 2^31 columns or more has a pixel that the renderer misplaces or clips. -/
theorem width_lt_of_agree (wf : fb.WellFormed) {s : Machine} (h : PathsAgree (s.drawingOn fb))
    (hh : 0 < fb.height.toNat) : fb.width.toNat < 2 ^ 31 := by
  by_contra hw
  have hrow : (0 : UInt64) < fb.height := by simpa [UInt64.lt_iff_toNat_lt] using hh
  by_cases heq : fb.width.toNat = 2 ^ 31
  · -- the bound itself becomes the least `int`
    have hwidth : fb.width = 0x80000000 := by
      rw [← UInt64.toNat_inj, heq]
      rfl
    obtain ⟨-, -, hclip, -⟩ := h 0 0 (by simp [Machine.drawingOn, hwidth]) hrow
    simp only [Machine.drawingOn, SsfnBuf.lineWidth, hwidth] at hclip
    exact absurd hclip (by decide)
  · have hx : (0x80000000 : UInt64) < fb.width := by
      have h31 : (0x80000000 : UInt64).toNat = 2 ^ 31 := rfl
      rw [UInt64.lt_iff_toNat_lt, h31]
      omega
    obtain ⟨hplace, -⟩ := h 0x80000000 0 hx hrow
    have hclear := clear_pixel wf hx hrow
    have hcolumn : UInt64.ofInt ((0x80000000 : UInt64).toUInt32.toInt32).toInt * 4 ≠
        UInt64.ofNat (0 * fb.pitch.toNat + 4 * (0x80000000 : UInt64).toNat) := by
      rw [Nat.zero_mul]
      decide
    rw [renderer_first_row] at hplace
    exact hcolumn (UInt64.add_right_inj _ |>.mp (hplace.trans hclear))

theorem row_of_agree (wf : fb.WellFormed) {s : Machine} (h : PathsAgree (s.drawingOn fb))
    (hw : 0 < fb.width.toNat) {n : Nat} (hn : n < fb.height.toNat) (hint : n < 2 ^ 31) :
    (((n * fb.pitch.toUInt16.toNat : Nat) : Int).bmod (2 ^ 32) % 2 ^ 64).toNat =
      n * fb.pitch.toNat := by
  have hy : (UInt64.ofNat n).toNat = n := by
    rw [UInt64.toNat_ofNat']
    omega
  have hcolumn : (0 : UInt64) < fb.width := by simpa [UInt64.lt_iff_toNat_lt] using hw
  have hrow : UInt64.ofNat n < fb.height := by rwa [UInt64.lt_iff_toNat_lt, hy]
  obtain ⟨hplace, -⟩ := h 0 (UInt64.ofNat n) hcolumn hrow
  have hclear := clear_pixel wf hcolumn hrow
  rw [renderer_pixel s (by decide) (by omega), hy] at hplace
  rw [hy] at hclear
  have hlt : n * fb.pitch.toNat < 2 ^ 64 := by
    have hle : n * fb.pitch.toNat ≤ fb.height.toNat * fb.pitch.toNat :=
      Nat.mul_le_mul_right _ hn.le
    have hsize := wf.size
    rw [Nat.mul_comm] at hsize
    omega
  have hoffset := hplace.trans hclear
  rw [UInt64.toNat_zero, Nat.mul_zero, Nat.add_zero, show UInt64.ofNat 0 = 0 from rfl,
    UInt64.add_zero, UInt64.add_right_inj, ← UInt64.toNat_inj, toNat_ofInt,
    UInt64.toNat_ofNat', Nat.mod_eq_of_lt hlt] at hoffset
  exact hoffset

/-- The second row shows whether the pitch was cut. -/
theorem pitch_lt_of_agree (wf : fb.WellFormed) {s : Machine} (h : PathsAgree (s.drawingOn fb))
    (hw : 0 < fb.width.toNat) (hh : 1 < fb.height.toNat) : fb.pitch.toNat < 2 ^ 16 := by
  have hrow := row_of_agree wf h hw hh (by omega)
  have hlt := UInt16.toNat_lt fb.pitch.toUInt16
  rw [Int.bmod_eq_of_le (by omega) (by omega)] at hrow
  omega

theorem bmod_ne {n : Nat} (hfrom : 2 ^ 31 ≤ n) (hto : n < 2 ^ 32) :
    ((n : Int).bmod (2 ^ 32) % 2 ^ 64).toNat ≠ n := by
  have hwrap : (n : Int).bmod (2 ^ 32) = n - 2 ^ 32 := by
    rw [Int.bmod_def]
    omega
  omega

/-- The first row whose offset is not an `int` is misplaced. -/
theorem rows_lt_of_agree (wf : fb.WellFormed) {s : Machine} (h : PathsAgree (s.drawingOn fb))
    (hw : 0 < fb.width.toNat) (hp : fb.pitch.toNat < 2 ^ 16) :
    (fb.height.toNat - 1) * fb.pitch.toNat < 2 ^ 31 := by
  by_contra hlast
  have hpitch : fb.pitch.toUInt16.toNat = fb.pitch.toNat := by
    rw [UInt64.toNat_toUInt16]
    omega
  have hfour : 4 ≤ fb.pitch.toNat := by
    have hholds := wf.rowHolds
    omega
  -- row `q` is the last one before byte 2^31
  obtain ⟨q, hq⟩ : ∃ q, q = (2 ^ 31 - 1) / fb.pitch.toNat := ⟨_, rfl⟩
  have hfloor : q * fb.pitch.toNat ≤ 2 ^ 31 - 1 := hq ▸ Nat.div_mul_le_self _ _
  have hfrom : 2 ^ 31 - 1 < (q + 1) * fb.pitch.toNat := by
    rw [Nat.mul_comm, hq]
    exact Nat.lt_mul_div_succ _ (by omega)
  have hto : (q + 1) * fb.pitch.toNat < 2 ^ 31 + 2 ^ 16 := by
    rw [Nat.succ_mul]
    omega
  have hlt : q < fb.height.toNat - 1 :=
    Nat.lt_of_mul_lt_mul_right (a := fb.pitch.toNat) (by omega)
  have hint : q + 1 < 2 ^ 31 := by
    have hrows : (q + 1) * 4 ≤ (q + 1) * fb.pitch.toNat := Nat.mul_le_mul_left _ hfour
    omega
  have hrow := row_of_agree wf h hw (by omega : q + 1 < fb.height.toNat) hint
  rw [hpitch] at hrow
  exact bmod_ne (by omega) (by omega) hrow

end Geometry

/-- After `consoleInit` the text renderer and `consoleClear` agree on every pixel exactly
when the geometry fits the renderer's copy of it. -/
theorem consoleInit_paths_agree (fb : LimineFramebuffer) (wf : fb.WellFormed) (s : Machine) :
    ∃ s', (consoleInit fb).Returns s () s' ∧ (PathsAgree s' ↔ fb.Fits) := by
  refine ⟨s.drawingOn fb, consoleInit_returns fb s, fun h => ?_, agree_of_fits wf s⟩
  by_cases hw : fb.width.toNat = 0
  · exact .inl hw
  · by_cases hh : fb.height.toNat = 0
    · exact .inr (.inl hh)
    · refine .inr (.inr ⟨width_lt_of_agree wf h (by omega), ?_⟩)
      by_cases hone : fb.height.toNat = 1
      · exact .inl hone
      · have hp := pitch_lt_of_agree wf h (by omega) (by omega)
        exact .inr ⟨hp, rows_lt_of_agree wf h (by omega) hp⟩

theorem consoleInit_paths_agree_xga :
    ∃ s', (consoleInit ⟨0xfd000000, 1024, 768, 4096⟩).Returns Machine.reset () s' ∧
      PathsAgree s' := by
  obtain ⟨s', hs', hiff⟩ := consoleInit_paths_agree ⟨0xfd000000, 1024, 768, 4096⟩
    ⟨by decide, by decide, by decide⟩ Machine.reset
  exact ⟨s', hs', hiff.mpr (.inr (.inr ⟨by decide, .inr ⟨by decide, by decide⟩⟩))⟩

/-- With 16385 columns the pitch of 65540 bytes is kept as 4. -/
theorem consoleInit_paths_differ :
    ∃ s', (consoleInit ⟨0, 16385, 2, 65540⟩).Returns Machine.reset () s' ∧ ¬ PathsAgree s' := by
  refine ⟨_, consoleInit_returns _ _, ?_⟩
  intro h
  have hp := pitch_lt_of_agree ⟨by decide, by decide, by decide⟩ h (by decide) (by decide)
  exact absurd hp (by decide)

end BenchOS
