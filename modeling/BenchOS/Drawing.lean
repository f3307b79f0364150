import BenchOS.Page
import BenchOS.Screen
import Mathlib.Data.Nat.Bitwise

/-!
What `ssfn_putc` draws. In the font a strip of a shape is a run of bits, read byte after
byte from the low bit on, and its place is named by a descriptor. The drawing loops,
clipped at the edges of the screen, stamp the shape.

The console's background is never transparent, so only that case is followed.
-/
namespace BenchOS
namespace Renderer

def byteBits (b : UInt8) : List Bool := (List.range 8).map b.toNat.testBit

def bitsFrom (font : Font) (i : Nat) : List Bool := (font.drop i).flatMap byteBits

/-- The fragment at `frg` is a bitmap with these rows. -/
structure StripAt (font : Font) (frg : Nat) (rows : List (List Bool)) : Prop where
  kind : ∃ b, byte font frg = some b ∧ b &&& 0xE0 = 0x80 ∧
    ∀ row ∈ rows, row.length = ((b &&& 0x1F).toNat + 1) <<< 3
  count : ∃ b, byte font (frg + 1) = some b ∧ rows.length = b.toNat + 1
  bits : rows.flatten <+: bitsFrom font (frg + 2)

/-- The descriptors from `ptr` on name these strips; descriptors of anything else than
bitmaps are passed over. -/
inductive StripsAt (font : Font) (type : UInt8) : Nat → Nat → List Strip → Prop where
  | done (ptr : Nat) : StripsAt font type ptr 0 []
  | colour {ptr n : Nat} {strips : List Strip} (first : byte font ptr = some 255)
      (second : byte font (ptr + 1) = some 255)
      (rest : StripsAt font type (ptr + descriptorSize type) n strips) :
      StripsAt font type ptr (n + 1) strips
  | other {ptr n frg : Nat} {strips : List Strip} {b₀ b₁ kind : UInt8}
      (first : byte font ptr = some b₀) (second : byte font (ptr + 1) = some b₁)
      (notColour : ¬ (b₀ = 255 ∧ b₁ = 255)) (offset : fragmentOffset font type ptr = some frg)
      (fragment : byte font frg = some kind) (notBitmap : kind &&& 0xE0 ≠ 0x80)
      (rest : StripsAt font type (ptr + descriptorSize type) n strips) :
      StripsAt font type ptr (n + 1) strips
  | strip {ptr n frg : Nat} {rows : List (List Bool)} {strips : List Strip} {b₀ b₁ : UInt8}
      (first : byte font ptr = some b₀) (second : byte font (ptr + 1) = some b₁)
      (notColour : ¬ (b₀ = 255 ∧ b₁ = 255)) (offset : fragmentOffset font type ptr = some frg)
      (bitmap : StripAt font frg rows)
      (rest : StripsAt font type (ptr + descriptorSize type) n strips) :
      StripsAt font type ptr (n + 1) (⟨b₁.toNat, rows⟩ :: strips)

/-- The record at `chr` is that of a character of this shape. -/
structure ShapeAt (font : Font) (chr : Nat) (sh : Shape) : Prop where
  width : ∃ b, byte font (chr + 2) = some b ∧ sh.width = b.toNat
  height : ∃ b, byte font (chr + 3) = some b ∧ sh.height = b.toNat
  advanceX : ∃ b, byte font (chr + 4) = some b ∧ sh.advanceX = b.toNat
  advanceY : ∃ b, byte font (chr + 5) = some b ∧ sh.advanceY = b.toNat
  strips : ∃ type n, byte font chr = some type ∧ byte font (chr + 1) = some n ∧
    StripsAt font type (chr + 6) n.toNat sh.strips

/-- The renderer's record describes this screen. -/
structure DrawsOn (dst : SsfnBuf) (sc : Screen) : Prop where
  ptr : dst.ptr = sc.base
  width : dst.lineWidth.toInt = sc.w
  height : dst.h.toInt = sc.h
  pitch : dst.p.toNat = sc.p
  solid : dst.bg ≠ 0

/-- The pen is in column `x` of row `y`. -/
structure PenAt (dst : SsfnBuf) (x y : Nat) : Prop where
  x : dst.x.toInt = x
  y : dst.y.toInt = y

section Bits
variable {font : Font}

theorem bitsFrom_cons {i : Nat} {b : UInt8} (h : byte font i = some b) :
    bitsFrom font i = byteBits b ++ bitsFrom font (i + 1) := by
  obtain ⟨hi, hget⟩ := List.getElem?_eq_some_iff.mp h
  rw [bitsFrom, List.drop_eq_getElem_cons hi, hget, List.flatMap_cons, bitsFrom]

theorem bitsFrom_end {i : Nat} (h : byte font i = none) : bitsFrom font i = [] := by
  rw [bitsFrom, List.drop_eq_nil_of_le (List.getElem?_eq_none_iff.mp h), List.flatMap_nil]

theorem drop_byteBits (b : UInt8) {e : Nat} (he : e < 8) :
    (byteBits b).drop e = b.toNat.testBit e :: (byteBits b).drop (e + 1) := by
  have hlen : e < (byteBits b).length := by simpa [byteBits] using he
  rw [List.drop_eq_getElem_cons hlen]
  simp [byteBits]

/-- The bits still to come at a position in a bitmap; the mask has passed `e` of the bits
of its byte. -/
def BitsAt (font : Font) (p : BitPos) (bits : List Bool) : Prop :=
  ∃ e, e ≤ 8 ∧ p.m = 2 ^ e ∧ bits <+: (bitsFrom font p.frg).drop e

theorem BitsAt.norm {p : BitPos} {bits : List Bool} (h : BitsAt font p bits) :
    ∃ e, e < 8 ∧ p.norm.m = 2 ^ e ∧ bits <+: (bitsFrom font p.norm.frg).drop e := by
  obtain ⟨e, he, hm, hbits⟩ := h
  obtain hlt | rfl := Nat.lt_or_eq_of_le he
  · have hsmall : ¬ p.m > 0x80 := by
      have hpow : 2 ^ e ≤ 2 ^ 7 := Nat.pow_le_pow_right (by decide) (by omega)
      omega
    rw [BitPos.norm, if_neg hsmall]
    exact ⟨e, hlt, hm, hbits⟩
  · have hbig : p.m > 0x80 := by omega
    rw [BitPos.norm, if_pos hbig]
    refine ⟨0, by decide, rfl, ?_⟩
    cases hb : byte font p.frg with
    | none =>
        rw [bitsFrom_end hb, List.drop_nil, List.prefix_nil] at hbits
        rw [hbits]
        exact List.nil_prefix
    | some b =>
        rw [bitsFrom_cons hb, List.drop_left' (by simp [byteBits])] at hbits
        exact hbits

theorem BitsAt.cons {p : BitPos} {bit : Bool} {bits : List Bool}
    (h : BitsAt font p (bit :: bits)) :
    ∃ b, byte font p.norm.frg = some b ∧ (b.toNat &&& p.norm.m ≠ 0 ↔ bit = true) ∧
      BitsAt font { p.norm with m := p.norm.m <<< 1 } bits := by
  obtain ⟨e, he, hm, hbits⟩ := h.norm
  cases hb : byte font p.norm.frg with
  | none =>
      rw [bitsFrom_end hb, List.drop_nil, List.prefix_nil] at hbits
      cases hbits
  | some b =>
      have hlen : (byteBits b).length = 8 := by simp [byteBits]
      have hdrop : (bitsFrom font p.norm.frg).drop e =
          b.toNat.testBit e :: (bitsFrom font p.norm.frg).drop (e + 1) := by
        rw [bitsFrom_cons hb, List.drop_append_of_le_length (by omega), drop_byteBits b he,
          List.drop_append_of_le_length (by omega), List.cons_append]
      rw [hdrop, List.cons_prefix_cons] at hbits
      refine ⟨b, rfl, ?_, e + 1, he, ?_, hbits.2⟩
      · rw [hm, Nat.and_two_pow, hbits.1]
        cases b.toNat.testBit e <;> simp
      · show p.norm.m <<< 1 = 2 ^ (e + 1)
        rw [hm, Nat.shiftLeft_eq, Nat.pow_one, Nat.pow_succ]

theorem bitsAt_start {frg : Nat} {bits : List Bool} (h : bits <+: bitsFrom font frg) :
    BitsAt font ⟨frg, 1⟩ bits :=
  ⟨0, by decide, rfl, h⟩

end Bits

section Draw
variable {font : Font} {dst : SsfnBuf} {sc : Screen} {m₀ : Mem Object} {x y : Nat}

theorem PenAt.insideRow_iff (pen : PenAt dst x y) (on : DrawsOn dst sc) (j : Nat) :
    insideRow dst j ↔ x + j < sc.w := by
  have hzero : dst.lineWidth ≠ 0 := by
    intro h
    have hwidth := on.width
    have hwide := sc.wide
    rw [h, Int32.toInt_zero] at hwidth
    omega
  rw [insideRow, or_iff_right hzero, pen.x, on.width]
  omega

theorem PenAt.insideColumn_iff (pen : PenAt dst x y) (on : DrawsOn dst sc) (j : Nat) :
    insideColumn dst j ↔ y + j < sc.h := by
  have hzero : dst.h ≠ 0 := by
    intro h
    have hheight := on.height
    have hhigh := sc.high
    rw [h, Int32.toInt_zero] at hheight
    omega
  rw [insideColumn, or_iff_right hzero, pen.y, on.height]
  omega

theorem fillRow_painted (on : DrawsOn dst sc) (pen : PenAt dst x y) {r : Nat} (hr : r < sc.h)
    (n j : Nat) {m : Mem Object} {pic : Picture UInt32} (h : Painted sc m₀ m pic) :
    Painted sc m₀ (fillRow dst (sc.place x r).off n j m)
      (pic.stamp (x + j) r [List.replicate n dst.bg]) := by
  induction n generalizing j m pic with
  | zero => simpa [fillRow] using h
  | succ n ih =>
      rw [fillRow]
      by_cases hin : insideRow dst j
      · have hx := (pen.insideRow_iff on j).mp hin
        rw [if_pos hin, sc.place_right, List.replicate_succ, Picture.stamp_cons_row]
        exact ih (j + 1) (h.store hx hr dst.bg)
      · have hx : ¬ x + j < sc.w := fun hlt => hin ((pen.insideRow_iff on j).mpr hlt)
        rw [if_neg hin]
        exact h.stamp_beyond _ (.inl (by omega))

/-- The brush is at row `row` of the character, or it has stopped below the screen. -/
def Brush.Ready (b : Brush) (sc : Screen) (x y row : Nat) : Prop :=
  (b.y = row ∧ b.o = (sc.place x (y + row)).off) ∨ (sc.h ≤ y + b.y ∧ sc.h ≤ y + row)

theorem Brush.Ready.next {b : Brush} {row : Nat} (hy : b.y = row)
    (ho : b.o = (sc.place x (y + row)).off) (on : DrawsOn dst sc) (m : Mem Object) :
    (b.next dst m).y = row + 1 ∧ (b.next dst m).o = (sc.place x (y + (row + 1))).off := by
  refine ⟨congrArg (· + 1) hy, ?_⟩
  show b.o + UInt64.ofNat (4 * (dst.p.toNat / 4)) = _
  rw [ho, on.pitch, sc.place_down]
  rfl

theorem fillRows_stopped (width : UInt8) (n : Nat) {b : Brush}
    (h : ¬ insideColumn dst b.y) : fillRows dst width n b = b := by
  cases n with
  | zero => rfl
  | succ n => rw [fillRows, if_neg h]

theorem fillRows_counted (on : DrawsOn dst sc) (pen : PenAt dst x y) (width : UInt8) (n : Nat)
    {b : Brush} {row : Nat} (hy : b.y = row) (ho : b.o = (sc.place x (y + row)).off)
    {pic : Picture UInt32} (h : Painted sc m₀ b.mem pic) :
    (fillRows dst width n b).Ready sc x y (row + n) ∧
      Painted sc m₀ (fillRows dst width n b).mem
        (pic.stamp x (y + row) (List.replicate n (List.replicate width.toNat dst.bg))) := by
  induction n generalizing b row pic with
  | zero => exact ⟨.inl ⟨hy, ho⟩, by simpa [fillRows] using h⟩
  | succ n ih =>
      rw [fillRows]
      by_cases hin : insideColumn dst b.y
      · have hr : y + row < sc.h := hy ▸ (pen.insideColumn_iff on b.y).mp hin
        have hrow := fillRow_painted on pen hr width.toNat 0 h
        obtain ⟨hy', ho'⟩ := Brush.Ready.next hy ho on
          (fillRow dst b.o width.toNat 0 b.mem)
        rw [← ho] at hrow
        rw [if_pos hin, List.replicate_succ, ← List.singleton_append, Picture.stamp_append,
          show row + (n + 1) = row + 1 + n by omega]
        exact ih hy' ho' hrow
      · have hr : ¬ y + b.y < sc.h := fun hlt => hin ((pen.insideColumn_iff on b.y).mpr hlt)
        rw [if_neg hin]
        exact ⟨.inr ⟨by omega, by omega⟩, h.stamp_beyond _ (.inr (by omega))⟩

/-- The background down to row `limit`. -/
theorem fillRows_painted (on : DrawsOn dst sc) (pen : PenAt dst x y) (width : UInt8)
    (limit : Nat) {b : Brush} {row : Nat} (ready : b.Ready sc x y row) {pic : Picture UInt32}
    (h : Painted sc m₀ b.mem pic) :
    (fillRows dst width (limit - b.y) b).Ready sc x y (row + (limit - row)) ∧
      Painted sc m₀ (fillRows dst width (limit - b.y) b).mem
        (pic.stamp x (y + row)
          (List.replicate (limit - row) (List.replicate width.toNat dst.bg))) := by
  obtain ⟨hy, ho⟩ | ⟨hbrush, hrow⟩ := ready
  · rw [hy]
    exact fillRows_counted on pen width (limit - row) hy ho h
  · have hout : ¬ insideColumn dst b.y := by
      rw [pen.insideColumn_iff on]
      omega
    rw [fillRows_stopped width _ hout]
    exact ⟨.inr ⟨hbrush, by omega⟩, h.stamp_beyond _ (.inr hrow)⟩

theorem drawBit_eq (on : DrawsOn dst sc) {p : BitPos} {b : UInt8} {bit : Bool}
    (hb : byte font p.frg = some b) (hbit : b.toNat &&& p.m ≠ 0 ↔ bit = true)
    (address : UInt64) (m : Mem Object) :
    drawBit font dst p address m =
      some (store32 m address (if bit then dst.fg else dst.bg)) := by
  rw [drawBit, hb, Option.bind_eq_bind, Option.bind_some]
  by_cases hset : bit = true
  · rw [if_pos (hbit.mpr hset), if_pos hset]
  · rw [if_neg fun h => hset (hbit.mp h), if_pos on.solid, if_neg hset]

theorem bitRow_painted (on : DrawsOn dst sc) (pen : PenAt dst x y) {r : Nat} (hr : r < sc.h)
    (row rest : List Bool) (l : Nat) {p : BitPos} (hbits : BitsAt font p (row ++ rest))
    {m : Mem Object} {pic : Picture UInt32} (h : Painted sc m₀ m pic) :
    ∃ p' m', bitRow font dst (sc.place x r).off row.length l p m = some (p', m') ∧
      BitsAt font p' rest ∧ Painted sc m₀ m' (pic.stamp (x + l) r [ink dst.fg dst.bg row]) := by
  induction row generalizing l p m pic with
  | nil => exact ⟨p, m, rfl, hbits, by simpa [ink] using h⟩
  | cons bit row ih =>
      obtain ⟨b, hb, hbit, hnext⟩ := hbits.cons
      rw [List.length_cons, bitRow]
      have hcolumn : 0 ≤ dst.x.toInt + (l : Int) := by
        rw [pen.x]
        omega
      by_cases hin : insideRow dst l
      · have hx := (pen.insideRow_iff on l).mp hin
        rw [if_pos ⟨hcolumn, hin⟩, drawBit_eq on hb hbit, Option.bind_eq_bind, Option.bind_some,
          sc.place_right, ink, List.map_cons, Picture.stamp_cons_row]
        exact ih (l + 1) hnext (h.store hx hr _)
      · have hx : ¬ x + l < sc.w := fun hlt => hin ((pen.insideRow_iff on l).mpr hlt)
        rw [if_neg fun hboth => hin hboth.2, Option.bind_eq_bind, Option.bind_some]
        obtain ⟨p', m', hrow, hrest, hpainted⟩ := ih (l + 1) hnext h
        refine ⟨p', m', hrow, hrest, hpainted.congr fun a c ha hc => ?_⟩
        rw [Picture.stamp_left _ _ _ (by omega), Picture.stamp_left _ _ _ (by omega)]

theorem bitRows_stopped (k j : Nat) (p : BitPos) {b : Brush} (h : ¬ insideColumn dst b.y) :
    bitRows font dst k j p b = some b := by
  cases j with
  | zero => rfl
  | succ j => rw [bitRows, if_neg h]

theorem bitRows_counted (on : DrawsOn dst sc) (pen : PenAt dst x y) {k : Nat}
    (rows : List (List Bool)) (hk : ∀ row ∈ rows, row.length = k) {p : BitPos}
    (hbits : BitsAt font p rows.flatten) {b : Brush} {row : Nat} (hy : b.y = row)
    (ho : b.o = (sc.place x (y + row)).off) {pic : Picture UInt32}
    (h : Painted sc m₀ b.mem pic) :
    ∃ b', bitRows font dst k rows.length p b = some b' ∧
      b'.Ready sc x y (row + rows.length) ∧
      Painted sc m₀ b'.mem (pic.stamp x (y + row) (rows.map (ink dst.fg dst.bg))) := by
  induction rows generalizing p b row pic with
  | nil => exact ⟨b, rfl, .inl ⟨hy, ho⟩, by simpa using h⟩
  | cons bits rows ih =>
      rw [List.length_cons, bitRows]
      by_cases hin : insideColumn dst b.y
      · have hr : y + row < sc.h := hy ▸ (pen.insideColumn_iff on b.y).mp hin
        rw [List.flatten_cons] at hbits
        obtain ⟨p', m', hrow, hrest, hpainted⟩ := bitRow_painted on pen hr bits _ 0 hbits h
        obtain ⟨hy', ho'⟩ := Brush.Ready.next hy ho on m'
        rw [hk bits List.mem_cons_self, ← ho] at hrow
        obtain ⟨b', hrows, hready, hall⟩ := ih
          (fun row hrow => hk row (List.mem_cons_of_mem _ hrow)) hrest hy' ho' hpainted
        refine ⟨b', ?_, ?_, ?_⟩
        · rw [if_pos hin, hrow]
          exact hrows
        · rwa [show row + (rows.length + 1) = row + 1 + rows.length by omega]
        · rwa [List.map_cons, ← List.singleton_append, Picture.stamp_append]
      · have hr : ¬ y + b.y < sc.h := fun hlt => hin ((pen.insideColumn_iff on b.y).mpr hlt)
        rw [if_neg hin]
        exact ⟨b, rfl, .inr ⟨by omega, by omega⟩, h.stamp_beyond _ (.inr (by omega))⟩

theorem bitRows_painted (on : DrawsOn dst sc) (pen : PenAt dst x y) {k : Nat}
    {rows : List (List Bool)} (hk : ∀ row ∈ rows, row.length = k) {p : BitPos}
    (hbits : BitsAt font p rows.flatten) {b : Brush} {row : Nat} (ready : b.Ready sc x y row)
    {pic : Picture UInt32} (h : Painted sc m₀ b.mem pic) :
    ∃ b', bitRows font dst k rows.length p b = some b' ∧
      b'.Ready sc x y (row + rows.length) ∧
      Painted sc m₀ b'.mem (pic.stamp x (y + row) (rows.map (ink dst.fg dst.bg))) := by
  obtain ⟨hy, ho⟩ | ⟨hbrush, hrow⟩ := ready
  · exact bitRows_counted on pen rows hk hbits hy ho h
  · have hout : ¬ insideColumn dst b.y := by
      rw [pen.insideColumn_iff on]
      omega
    refine ⟨b, bitRows_stopped k _ p hout, .inr ⟨hbrush, by omega⟩, ?_⟩
    exact h.stamp_beyond _ (.inr hrow)

section Fragments
variable {chr : Nat} {type width : UInt8}

/-- A descriptor of a bitmap draws the background above it and its rows. -/
theorem drawFragment_painted (on : DrawsOn dst sc) (pen : PenAt dst x y)
    (htype : byte font chr = some type) (hwidth : byte font (chr + 2) = some width)
    {ptr frg : Nat} {rows : List (List Bool)} {b₀ b₁ : UInt8}
    (first : byte font ptr = some b₀) (second : byte font (ptr + 1) = some b₁)
    (notColour : ¬ (b₀ = 255 ∧ b₁ = 255)) (offset : fragmentOffset font type ptr = some frg)
    (bitmap : StripAt font frg rows) {b : Brush} {row : Nat} (ready : b.Ready sc x y row)
    {pic : Picture UInt32} (h : Painted sc m₀ b.mem pic) :
    ∃ b', drawFragment font dst chr ptr b = some b' ∧
      b'.Ready sc x y (row + (b₁.toNat - row) + rows.length) ∧
      Painted sc m₀ b'.mem (pic.stamp x (y + row)
        (List.replicate (b₁.toNat - row) (List.replicate width.toNat dst.bg) ++
          rows.map (ink dst.fg dst.bg))) := by
  obtain ⟨kind, hkind, hbitmap, hrows⟩ := bitmap.kind
  obtain ⟨count, hcount, hlen⟩ := bitmap.count
  obtain ⟨hready, hfilled⟩ := fillRows_painted on pen width b₁.toNat ready h
  obtain ⟨b', hdrawn, hready', hpainted⟩ :=
    bitRows_painted on pen hrows (bitsAt_start bitmap.bits) hready hfilled
  refine ⟨b', ?_, hready', ?_⟩
  · rw [hlen] at hdrawn
    simp only [drawFragment, first, second, htype, hwidth, offset, hkind, hcount, notColour,
      hbitmap, on.solid, Option.bind_eq_bind, Option.bind_some, if_false, ne_eq, not_true_eq_false,
      not_false_eq_true, if_true]
    exact hdrawn
  · rw [Picture.stamp_append, List.length_replicate]
    rwa [← Nat.add_assoc] at hpainted

theorem drawFragments_painted (on : DrawsOn dst sc) (pen : PenAt dst x y)
    (htype : byte font chr = some type) (hwidth : byte font (chr + 2) = some width)
    {ptr n : Nat} {strips : List Strip} (hstrips : StripsAt font type ptr n strips)
    {b : Brush} {row : Nat} (ready : b.Ready sc x y row) {pic : Picture UInt32}
    (h : Painted sc m₀ b.mem pic) :
    ∃ b', drawFragments font dst chr (descriptorSize type) n ptr b = some b' ∧
      b'.Ready sc x y (row + (stripRows width.toNat dst.fg dst.bg row strips).length) ∧
      Painted sc m₀ b'.mem
        (pic.stamp x (y + row) (stripRows width.toNat dst.fg dst.bg row strips)) := by
  induction hstrips generalizing b row pic with
  | done ptr => exact ⟨b, rfl, ready, by simpa [stripRows] using h⟩
  | colour first second rest ih =>
      obtain ⟨b', hdrawn, hdone⟩ := ih ready h
      refine ⟨b', ?_, hdone⟩
      rw [drawFragments, drawFragment, first, second]
      simpa using hdrawn
  | other first second notColour offset fragment notBitmap rest ih =>
      obtain ⟨b', hdrawn, hdone⟩ := ih ready h
      refine ⟨b', ?_, hdone⟩
      rw [drawFragments, drawFragment, first, second, htype]
      simpa [notColour, offset, fragment, notBitmap] using hdrawn
  | @strip ptr n frg rows strips b₀ b₁ first second notColour offset bitmap rest ih =>
      obtain ⟨b', hfirst, hready, hpainted⟩ := drawFragment_painted on pen htype hwidth first
        second notColour offset bitmap ready h
      obtain ⟨b'', hrest, hready', hall⟩ := ih hready hpainted
      have hnext : max row b₁.toNat = row + (b₁.toNat - row) := by omega
      refine ⟨b'', ?_, ?_, ?_⟩
      · rw [drawFragments, hfirst]
        exact hrest
      · simpa [stripRows, hnext, Nat.add_assoc] using hready'
      · rw [stripRows, hnext, Picture.stamp_append]
        simpa [Nat.add_assoc] using hall

end Fragments

theorem int_eq {i : Int} (hlow : -2 ^ 31 ≤ i) (hhigh : i < 2 ^ 31) :
    int i = some (Int32.ofInt i) ∧ (Int32.ofInt i).toInt = i := by
  refine ⟨if_pos ⟨hlow, hhigh⟩, ?_⟩
  rw [Int32.toInt_ofInt, show Int32.size = 2 ^ 32 from rfl]
  exact Int.bmod_eq_of_le (by omega) (by omega)

/-- The pen's address is the place of its pixel. -/
theorem PenAt.pixel (pen : PenAt dst x y) (on : DrawsOn dst sc) (hy : y * sc.p < 2 ^ 31) :
    dst.pixel dst.x dst.y = (sc.place x y).off := by
  have hrow : (dst.y * dst.p.toUInt32.toInt32).toInt = ((y * sc.p : Nat) : Int).bmod (2 ^ 32) := by
    rw [Int32.toInt_mul, pen.y, toInt_pitch, on.pitch, Int.natCast_mul]
  have hcolumn : UInt64.ofInt (x : Int) * 4 = UInt64.ofNat (4 * x) := by
    rw [← UInt64.toNat_inj, UInt64.toNat_mul, toNat_ofInt, UInt64.toNat_ofNat',
      show (4 : UInt64).toNat = 4 from rfl]
    omega
  rw [SsfnBuf.pixel, hrow, ofInt_bmod hy, pen.x, hcolumn, on.ptr, UInt64.add_assoc,
    ← UInt64.ofNat_add]
  rfl

/-- A character is drawn as its shape says, from the pen on. -/
theorem drawCharacter_painted {c : Canvas} {chr : Nat} {sh : Shape} (on : DrawsOn c.dst sc)
    (pen : PenAt c.dst x y) (hy : y < sc.h) (hshape : ShapeAt font chr sh)
    {pic : Picture UInt32} (h : Painted sc m₀ c.mem pic) :
    ∃ m', drawCharacter font chr c = some m' ∧
      Painted sc m₀ m' (pic.stamp x y (sh.cells c.dst.fg c.dst.bg)) := by
  obtain ⟨width, hwidth, hw⟩ := hshape.width
  obtain ⟨height, hheight, hh⟩ := hshape.height
  obtain ⟨type, n, htype, hn, hstrips⟩ := hshape.strips
  have hrow := Screen.row_within hy
  have hsize := sc.size
  have hpixel := pen.pixel on (by omega)
  have hfits : int (c.dst.y.toInt * c.dst.p.toNat) = some (Int32.ofInt (y * sc.p : Nat)) := by
    rw [pen.y, on.pitch, ← Int.natCast_mul]
    exact (int_eq (by omega) (by omega)).1
  have hready₀ : (⟨0, c.dst.pixel c.dst.x c.dst.y, c.mem⟩ : Brush).Ready sc x y 0 :=
    .inl ⟨rfl, hpixel⟩
  obtain ⟨b, hdrawn, hready, hpainted⟩ :=
    drawFragments_painted on pen htype hwidth hstrips hready₀ h
  obtain ⟨-, hfilled⟩ := fillRows_painted on pen width height.toNat hready hpainted
  refine ⟨(fillRows c.dst width (height.toNat - b.y) b).mem, ?_, ?_⟩
  · simp only [drawCharacter, htype, hn, hwidth, hheight, hfits, hdrawn, on.solid,
      Option.bind_eq_bind, Option.bind_some, ne_eq, not_false_eq_true, if_true]
  · rw [Shape.cells, hw, hh, Picture.stamp_append]
    simpa using hfilled

end Draw

end Renderer
end BenchOS
