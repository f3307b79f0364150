import BenchOS.Ports

/-!
`console/console.c`: output through the renderer, the pixel loop and the polled
keyboard reader.

The renderer is the vendored `ssfn.h`. What the kernel's results depend on is
which characters it is given and in which colour, so `ssfnPutc` records them. Of
the drawing itself only the place of a pixel is modelled here.

The functions that print, in this module and in those that follow, are written in the
namespace `Over` for any `ssfn_putc`. The kernel's own are these over the recording;
over one that draws they are the kernel as it runs, with its pixels.
-/
namespace BenchOS

/-- The recording of a character with its colour. What `ssfn_putc` loads and stores to draw
it is not here: that is the renderer's own model. -/
def ssfnPutc (c : UInt8) : Kernel Unit :=
  Prog.modify fun s => { s with screen := s.screen ++ [⟨c, s.ssfnDst.fg⟩] }

/-- `ssfn_dst.ptr + ssfn_dst.y * ssfn_dst.p + ssfn_dst.x * sizeof(SSFN_PIXEL)`: the
product is one of `int`s, and both terms are widened with their signs. -/
def SsfnBuf.pixel (dst : SsfnBuf) (x y : Int32) : UInt64 :=
  dst.ptr + UInt64.ofInt (y * dst.p.toUInt32.toInt32).toInt + UInt64.ofInt x.toInt * 4

/-- `w` in `ssfn_putc`. -/
def SsfnBuf.lineWidth (dst : SsfnBuf) : Int32 := if dst.w < 0 then -dst.w else dst.w

/-- The tests of `ssfn_putc` on a pixel; a bound that is zero does not bound. -/
def SsfnBuf.Inside (dst : SsfnBuf) (x y : Int32) : Prop :=
  0 ≤ x ∧ (dst.lineWidth = 0 ∨ x < dst.lineWidth) ∧ (dst.h = 0 ∨ y < dst.h)

def setFg (fg : UInt32) : Kernel Unit :=
  Prog.modify fun s => { s with ssfnDst := { s.ssfnDst with fg := fg } }

def store32 (address : UInt64) (v : UInt32) : Kernel Unit :=
  Prog.modify fun s =>
    { s with
      mem := s.mem.blit ⟨.ram, address⟩
        [v.toUInt8, (v >>> 8).toUInt8, (v >>> 16).toUInt8, (v >>> 24).toUInt8]
      bus := s.bus ++ [.write32 ⟨.ram, address⟩ v] }

/-- `&framebuffer_pointer[i * pitch / 4 + j]`. -/
def LimineFramebuffer.pixel (fb : LimineFramebuffer) (i j : UInt64) : UInt64 :=
  fb.address + 4 * (i * fb.pitch / 4 + j)

def clearPixelTurn (color : UInt32) (i j : UInt64) : Kernel (Turn UInt64 Unit) := do
  let s ← Prog.get
  if j < s.globalFramebuffer.width then do
    store32 (s.globalFramebuffer.pixel i j) color
    pure (.again (j + 1))
  else
    pure (.leave ())

def clearRowTurn (color : UInt32) (i : UInt64) : Kernel (Turn UInt64 Unit) := do
  let s ← Prog.get
  if i < s.globalFramebuffer.height then do
    Prog.loop (clearPixelTurn color i) 0
    Prog.modify fun s => { s with ssfnDst := { s.ssfnDst with x := 0, y := 0 } }
    pure (.again (i + 1))
  else
    pure (.leave ())

def consoleClear (color : UInt32) : Kernel Unit := do
  Prog.loop (clearRowTurn color) 0
  Prog.modify fun s => { s with ssfnDst := { s.ssfnDst with bg := 0xff000000 ||| color } }

/-- The conversions to `int` and `uint16_t` keep the low bits. -/
def consoleInit (framebuffer : LimineFramebuffer) : Kernel Unit :=
  Prog.modify fun s =>
    { s with
      ssfnDst :=
        { ptr := framebuffer.address
          w := framebuffer.width.toUInt32.toInt32
          h := framebuffer.height.toUInt32.toInt32
          p := framebuffer.pitch.toUInt16
          x := 0
          y := 0
          fg := 0xFFFFFF
          bg := 0xff000000 }
      globalFramebuffer := framebuffer }

/-- The key table with its terminator at index 58. -/
def lowercase : List UInt8 :=
  bytes "?\x001234567890-=\x08\tqwertyuiop[]\x00?asdfghjkl;'`?\\zxcvbnm,./??? "

/-- `while (scan_code >= 59)`. -/
def pollTurn (scanCode : UInt8) : Kernel (Turn UInt8 UInt8) :=
  if scanCode ≥ 59 then do
    let scanCode ← portRead 0x60
    pure (.again scanCode)
  else
    pure (.leave scanCode)

/-- `while (port_read(0x60) == scan_code)`. -/
def releaseTurn (scanCode : UInt8) : Unit → Kernel (Turn Unit Unit)
  | () => do
    let sample ← portRead 0x60
    if sample = scanCode then
      pure (.again ())
    else
      pure (.leave ())

namespace Over
variable (putc : UInt8 → Kernel Unit)

def consolePutCharacter (msg : Pointer) (fg : UInt32) : Kernel Unit := do
  setFg fg
  let c ← load msg
  putc c

def putStringTurn (msg : Pointer) : Kernel (Turn Pointer Unit) := do
  let c ← load msg
  if c ≠ 0 then do
    let c ← load msg
    putc c
    pure (.again (msg.add 1))
  else
    pure (.leave ())

def consolePutString (msg : Pointer) (fg : UInt32) : Kernel Unit := do
  setFg fg
  Prog.loop (putStringTurn putc) msg

def acceptKey (input : Location) (fg : UInt32) (scanCode : UInt8) : Kernel Unit := do
  let c ← load (.lit lowercase scanCode.toNat)
  if c > 1 then
    consolePutCharacter putc (.lit lowercase scanCode.toNat) fg
  let c ← load (.lit lowercase scanCode.toNat)
  store input c

def consoleInputCharacter (input : Location) (fg : UInt32) : Kernel Unit := do
  let scanCode ← portRead 0x60
  let scanCode ← Prog.loop pollTurn scanCode
  acceptKey putc input fg scanCode
  Prog.loop (releaseTurn scanCode) ()

/-- The loop is left with `false` by the `return` in its body. -/
def inputTurn (input : Location) (count : Nat) (fg : UInt32) (i : Nat) :
    Kernel (Turn Nat Bool) :=
  if i < count then do
    consoleInputCharacter putc (input.add i) fg
    let c ← load (.loc (input.add i))
    if c = 0 then
      pure (.leave false)
    else
      pure (.again (i + 1))
  else
    pure (.leave true)

def consoleInputCharacters (input : Location) (count : Nat) (fg : UInt32)
    (nullTerminate : Bool) : Kernel Unit := do
  let full ← Prog.loop (inputTurn putc input count fg) 0
  if full ∧ nullTerminate then
    store (input.add count) 0

end Over

abbrev consolePutCharacter := Over.consolePutCharacter ssfnPutc
abbrev putStringTurn := Over.putStringTurn ssfnPutc
abbrev consolePutString := Over.consolePutString ssfnPutc
abbrev acceptKey := Over.acceptKey ssfnPutc
abbrev consoleInputCharacter := Over.consoleInputCharacter ssfnPutc
abbrev inputTurn := Over.inputTurn ssfnPutc
abbrev consoleInputCharacters := Over.consoleInputCharacters ssfnPutc

end BenchOS
