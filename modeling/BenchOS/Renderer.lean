import BenchOS.Console

/-!
`ssfn_putc` of the vendored `ssfn.h` as it draws: the walk through the character table
of the font, the pen, the scrolling and the pixels, for the configuration the console
compiles it with (`SSFN_CONSOLEBITMAP_TRUECOLOR` and `SSFN_CONSOLEBITMAP_CONTROL`).

`ssfnPutc` of the console records the characters; here they are drawn. Everything in
it is bounded by the font and the screen, so the functions are plain ones. `none` is
what C leaves undefined: a read outside the font, a remainder by zero, a pen or an
offset that does not fit an `int`. Sums that are only compared are exact.
-/
namespace BenchOS
namespace Renderer

/-- The bytes of `fontData`; a pointer into it is an index. -/
abbrev Font : Type := List UInt8

def byte (font : Font) (i : Nat) : Option UInt8 := font[i]?

def word32 (font : Font) (i : Nat) : Option Nat := do
  let b₀ ← byte font i
  let b₁ ← byte font (i + 1)
  let b₂ ← byte font (i + 2)
  let b₃ ← byte font (i + 3)
  some (b₀.toNat + 2 ^ 8 * b₁.toNat + 2 ^ 16 * b₂.toNat + 2 ^ 24 * b₃.toNat)

/-- A value that is stored in an `int`. -/
def int (i : Int) : Option Int32 :=
  if -2 ^ 31 ≤ i ∧ i < 2 ^ 31 then some (Int32.ofInt i) else none

/-- What the renderer writes: its own record and the memory. -/
structure Canvas where
  dst : SsfnBuf
  mem : Mem Object

/-- The type byte says how long a fragment descriptor is. -/
def descriptorSize (type : UInt8) : Nat := if type &&& 0x40 ≠ 0 then 6 else 5

/-- The search for a character from entry `ptr` of the table on, which describes the
code point `i`. The first three forms of an entry skip code points. -/
def findCharacter (font : Font) (unicode : UInt32) (ptr i : Nat) : Option (Option Nat) :=
  if _h : i < 0x110000 then do
    let b ← byte font ptr
    if b = 0xFF then
      findCharacter font unicode (ptr + 1) (i + 65535 + 1)
    else if b &&& 0xC0 = 0xC0 then do
      let low ← byte font (ptr + 1)
      findCharacter font unicode (ptr + 2)
        (i + ((b &&& 0x3F).toNat <<< 8 ||| low.toNat) + 1)
    else if b &&& 0xC0 = 0x80 then
      findCharacter font unicode (ptr + 1) (i + (b &&& 0x3F).toNat + 1)
    else if i = unicode.toNat then
      some (some ptr)
    else do
      let n ← byte font (ptr + 1)
      findCharacter font unicode (ptr + 6 + n.toNat * descriptorSize b) (i + 1)
  else
    some none
termination_by 0x110000 - i

/-- `if(unicode == '\t') ssfn_dst.x -= ssfn_dst.x % chr[4]`. -/
def tabStop (unicode : UInt32) (advance : UInt8) (dst : SsfnBuf) : Option Int32 :=
  if unicode = 0x09 then
    if advance = 0 then none else int (dst.x.toInt - dst.x.toInt.tmod advance.toNat)
  else some dst.x

/-- `if(ssfn_dst.x + chr[4] > w) { ssfn_dst.x = 0; ssfn_dst.y += i; }`. -/
def wrapPen (unicode : UInt32) (advance height : UInt8) (dst : SsfnBuf) : Option SsfnBuf := do
  let x ← tabStop unicode advance dst
  if x.toInt + advance.toNat > dst.lineWidth.toInt then do
    let y ← int (dst.y.toInt + height.toNat)
    some { dst with x := 0, y := y }
  else
    some { dst with x := x }

/-- `if(chr && w)`. -/
def fitPen (font : Font) (unicode : UInt32) (height : UInt8) (dst : SsfnBuf) :
    Option Nat → Option SsfnBuf
  | none => some dst
  | some chr =>
    if dst.lineWidth = 0 then
      some dst
    else do
      let advance ← byte font (chr + 4)
      wrapPen unicode advance height dst

/-- `if(unicode == '\n') ssfn_dst.y += i`. -/
def lineFeed (unicode : UInt32) (height : UInt8) (dst : SsfnBuf) : Option SsfnBuf :=
  if unicode = 0x0A then do
    let y ← int (dst.y.toInt + height.toNat)
    some { dst with y := y }
  else some dst

/-- `ptr[k * p + l] = ptr[(k + i) * p + l]` for the bytes of one row. -/
def copyRow (base : Location) (p i k : Nat) (m : Mem Object) : Mem Object :=
  (List.range p).foldl
    (fun m l => Function.update m (base.add (k * p + l)) (m (base.add ((k + i) * p + l)))) m

/-- `for (k = 0; k < j; k++)` over the rows. -/
def copyRows (base : Location) (p i j : Nat) (m : Mem Object) : Mem Object :=
  (List.range j).foldl (fun m k => copyRow base p i k m) m

/-- The pen is put back to the last line and everything above moves up by one. The last
index of the copy, which is the largest, has to fit in an `int`. -/
def scroll (height : UInt8) (c : Canvas) : Option Canvas :=
  if height = 0 then
    none
  else do
    let j ← int (c.dst.h.toInt - height.toNat - c.dst.h.toInt.tmod height.toNat)
    if 0 < j.toInt ∧ j.toInt < c.dst.y.toInt then do
      let _ ← int ((j.toInt + height.toNat) * c.dst.p.toNat - 1)
      some
        { dst := { c.dst with y := j }
          mem := copyRows ⟨.ram, c.dst.ptr⟩ c.dst.p.toNat height.toNat j.toInt.toNat c.mem }
    else
      some c

/-- The part of `ssfn_putc` under `SSFN_CONSOLEBITMAP_CONTROL`, but for its return. -/
def control (font : Font) (unicode : UInt32) (chr : Option Nat) (c : Canvas) :
    Option Canvas := do
  let height ← byte font 11
  let dst ← fitPen font unicode height c.dst chr
  let dst ← lineFeed unicode height dst
  scroll height { c with dst := dst }

def store32 (m : Mem Object) (address : UInt64) (v : UInt32) : Mem Object :=
  m.blit ⟨.ram, address⟩ (bytes32 v)

/-- `s`: the pitch in pixels. -/
def pixelPitch (dst : SsfnBuf) : Nat := dst.p.toNat / 4

def insideRow (dst : SsfnBuf) (j : Nat) : Prop :=
  dst.lineWidth = 0 ∨ dst.x.toInt + j < dst.lineWidth.toInt

def insideColumn (dst : SsfnBuf) (y : Nat) : Prop :=
  dst.h = 0 ∨ dst.y.toInt + y < dst.h.toInt

instance (dst : SsfnBuf) (j : Nat) : Decidable (insideRow dst j) :=
  inferInstanceAs (Decidable (_ ∨ _))

instance (dst : SsfnBuf) (y : Nat) : Decidable (insideColumn dst y) :=
  inferInstanceAs (Decidable (_ ∨ _))

/-- Background in one row from column `j` on, with `n` columns to go. -/
def fillRow (dst : SsfnBuf) (o : UInt64) : Nat → Nat → Mem Object → Mem Object
  | 0, _, m => m
  | n + 1, j, m =>
    if insideRow dst j then
      fillRow dst o n (j + 1) (store32 m (o + UInt64.ofNat (4 * j)) dst.bg)
    else m

/-- The row `y` of the character that is next, the address `o` where it begins, and the
memory. -/
structure Brush where
  y : Nat
  o : UInt64
  mem : Mem Object

/-- `y++, o += s`. -/
def Brush.next (b : Brush) (dst : SsfnBuf) (m : Mem Object) : Brush where
  y := b.y + 1
  o := b.o + UInt64.ofNat (4 * pixelPitch dst)
  mem := m

/-- Rows of background, with `n` to go. -/
def fillRows (dst : SsfnBuf) (width : UInt8) : Nat → Brush → Brush
  | 0, b => b
  | n + 1, b =>
    if insideColumn dst b.y then
      fillRows dst width n (b.next dst (fillRow dst b.o width.toNat 0 b.mem))
    else b

/-- The byte of a bitmap that is being looked at and the mask `m` of the bit in it. -/
structure BitPos where
  frg : Nat
  m : Nat

/-- `if(m > 0x80) { frg++; m = 1; }`. -/
def BitPos.norm (p : BitPos) : BitPos := if p.m > 0x80 then ⟨p.frg + 1, 1⟩ else p

def drawBit (font : Font) (dst : SsfnBuf) (p : BitPos) (address : UInt64) (m : Mem Object) :
    Option (Mem Object) := do
  let b ← byte font p.frg
  if b.toNat &&& p.m ≠ 0 then some (store32 m address dst.fg)
  else if dst.bg ≠ 0 then some (store32 m address dst.bg)
  else some m

/-- One row of a bitmap from column `l` on, with `n` columns to go. -/
def bitRow (font : Font) (dst : SsfnBuf) (o : UInt64) :
    Nat → Nat → BitPos → Mem Object → Option (BitPos × Mem Object)
  | 0, _, p, m => some (p, m)
  | n + 1, l, p, m => do
    let m ←
      if 0 ≤ dst.x.toInt + l ∧ insideRow dst l then
        drawBit font dst p.norm (o + UInt64.ofNat (4 * l)) m
      else some m
    bitRow font dst o n (l + 1) { p.norm with m := p.norm.m <<< 1 } m

/-- The rows of a bitmap, `k` columns wide, with `j` rows to go. -/
def bitRows (font : Font) (dst : SsfnBuf) (k : Nat) : Nat → BitPos → Brush → Option Brush
  | 0, _, b => some b
  | j + 1, p, b =>
    if insideColumn dst b.y then do
      let (p, m) ← bitRow font dst b.o k 0 p b.mem
      bitRows font dst k j p (b.next dst m)
    else some b

/-- Where the fragment of the descriptor at `ptr` stands in the font. -/
def fragmentOffset (font : Font) (type : UInt8) (ptr : Nat) : Option Nat := do
  let b₂ ← byte font (ptr + 2)
  let b₃ ← byte font (ptr + 3)
  let b₄ ← byte font (ptr + 4)
  if type &&& 0x40 ≠ 0 then do
    let b₅ ← byte font (ptr + 5)
    -- `ptr[5] << 24` is a shift of an `int`
    if b₅.toNat < 128 then
      some (b₂.toNat + 2 ^ 8 * b₃.toNat + 2 ^ 16 * b₄.toNat + 2 ^ 24 * b₅.toNat)
    else none
  else
    some (b₂.toNat + 2 ^ 8 * b₃.toNat + 2 ^ 16 * b₄.toNat)

/-- One turn of the loop over the fragments of the character at `chr`. -/
def drawFragment (font : Font) (dst : SsfnBuf) (chr ptr : Nat) (b : Brush) : Option Brush := do
  let b₀ ← byte font ptr
  let b₁ ← byte font (ptr + 1)
  if b₀ = 255 ∧ b₁ = 255 then
    some b
  else do
    let type ← byte font chr
    let frg ← fragmentOffset font type ptr
    let kind ← byte font frg
    if kind &&& 0xE0 ≠ 0x80 then
      some b
    else do
      let width ← byte font (chr + 2)
      let b :=
        if dst.bg ≠ 0 then
          fillRows dst width (b₁.toNat - b.y) b
        else
          { b with
            y := b₁.toNat
            o := b.o + UInt64.ofInt (((b₁.toNat : Int) - b.y) * pixelPitch dst * 4) }
      let rows ← byte font (frg + 1)
      bitRows font dst (((kind &&& 0x1F).toNat + 1) <<< 3) (rows.toNat + 1) ⟨frg + 2, 1⟩ b

/-- The loop over the fragments, with `n` to go. -/
def drawFragments (font : Font) (dst : SsfnBuf) (chr size : Nat) :
    Nat → Nat → Brush → Option Brush
  | 0, _, b => some b
  | n + 1, ptr, b => do
    let b ← drawFragment font dst chr ptr b
    drawFragments font dst chr size n (ptr + size) b

def drawCharacter (font : Font) (chr : Nat) (c : Canvas) : Option (Mem Object) := do
  let type ← byte font chr
  let n ← byte font (chr + 1)
  let width ← byte font (chr + 2)
  let height ← byte font (chr + 3)
  let _ ← int (c.dst.y.toInt * c.dst.p.toNat)
  let b ← drawFragments font c.dst chr (descriptorSize type) n.toNat (chr + 6)
    { y := 0, o := c.dst.pixel c.dst.x c.dst.y, mem := c.mem }
  if c.dst.bg ≠ 0 then
    some (fillRows c.dst width (height.toNat - b.y) b).mem
  else
    some b.mem

def ok : Int32 := 0
def errInvInp : Int32 := -4
def errNoGlyph : Int32 := -7

/-- `ssfn_putc`; `ssfn_src` is `none` until the console is set up. -/
def ssfnPutc (src : Option Font) (unicode : UInt32) (c : Canvas) :
    Option (Int32 × Canvas) :=
  match src with
  | none => some (errInvInp, c)
  | some font =>
    if font.take 4 ≠ bytes "SFN2" ∨ c.dst.ptr = 0 ∨ c.dst.p = 0 then
      some (errInvInp, c)
    else do
      let offs ← word32 font 16
      let chr ← findCharacter font unicode offs 0
      let c ← control font unicode chr c
      if unicode = 0x0D ∨ unicode = 0x0A then
        some (ok, { c with dst := { c.dst with x := 0 } })
      else
        match chr with
        | none => some (errNoGlyph, c)
        | some chr => do
          let m ← drawCharacter font chr c
          let advanceX ← byte font (chr + 4)
          let advanceY ← byte font (chr + 5)
          let x ← int (c.dst.x.toInt + advanceX.toNat)
          let y ← int (c.dst.y.toInt + advanceY.toNat)
          some (ok, { dst := { c.dst with x := x, y := y }, mem := m })

/-- The argument `*msg`, a `char`, as the `uint32_t` it becomes. -/
def unicodeOf (c : UInt8) : UInt32 := c.toInt8.toInt32.toUInt32

/-- What the console does with a character it has recorded. -/
def showGlyph (src : Option Font) (c : Canvas) (g : Glyph) : Option Canvas := do
  let (_, c) ← ssfnPutc src (unicodeOf g.char) { c with dst := { c.dst with fg := g.fg } }
  some c

end Renderer
end BenchOS
