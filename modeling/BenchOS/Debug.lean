import BenchOS.Console

/-!
`debug/debug.c`: halting, hexadecimal text in both directions and `printf`.

A C `int` that only counts within a range is an `Int` or a `Nat` here; arithmetic
that can wrap is done at the width the source does it.
-/
namespace BenchOS

def exit : Kernel Unit := Prog.stop .halted

def log2Turn : UInt64 × UInt64 → Kernel (Turn (UInt64 × UInt64) UInt64)
  | (val, n) =>
    if n > 1 then
      pure (.again (val + 1, n >>> 1))
    else
      pure (.leave val)

def log2 (n : UInt64) : Kernel UInt64 := Prog.loop log2Turn (0, n)

def hexDigits : List UInt8 := bytes "0123456789abcdef"

/-- The loop counts `i` down to 0 and stores the digits from the last one on. -/
def hexDigitTurn (result : Location) : Int × UInt64 → Kernel (Turn (Int × UInt64) Unit)
  | (i, num) =>
    if i ≥ 0 then do
      store (result.add i.toNat) (hexDigits.getD (num % 16).toNat 0)
      pure (.again (i - 1, num / 16))
    else
      pure (.leave ())

def writeDigits (num : UInt64) (result : Location) : Kernel Unit := do
  let bits ← log2 num
  let length := (bits.toNat + 4) / 4
  Prog.loop (hexDigitTurn result) ((length : Int) - 1, num)
  store (result.add length) 0

/-- The branch for zero moves `result` and does not return. -/
def toHexString (num : UInt64) (result : Location) : Kernel Unit := do
  if num = 0 then do
    store result '0'.toUInt8
    store (result.add 1) 0
    writeDigits num (result.add 1)
  else
    writeDigits num result

def initDebug (fg : UInt32) : Kernel Unit :=
  Prog.modify fun s => { s with globalFg := fg, init := true }

def panicNotice : String :=
  "Kernel Panic\n============\n\nYour computer has run into an irrecoverable issue and needs to restart. To\nrestart, hold down the power button and you'll be back on track in no time.\nIf the problem persists, note down the error code, fork the repository and fix\nit yourself.\n\nError code: "

def strlenTurn : UInt32 × Pointer → Kernel (Turn (UInt32 × Pointer) UInt32)
  | (l, str) => do
    let c ← load str
    if c ≠ 0 then
      pure (.again (l + 1, str.add 1))
    else
      pure (.leave l)

/-- The source counts and then returns nothing: the value of the call is
indeterminate. -/
def strlen (str : Pointer) : Kernel UInt32 := do
  let _ ← Prog.loop strlenTurn (0, str)
  let value ← indeterminate
  pure value.toUInt32

inductive VaArg where
  | string (p : Pointer)
  | number (n : UInt64)

def vaArgString : List VaArg → Kernel (Pointer × List VaArg)
  | .string p :: rest => pure (p, rest)
  | _ => Prog.stop .undefined

def vaArgNumber : List VaArg → Kernel (UInt64 × List VaArg)
  | .number n :: rest => pure (n, rest)
  | _ => Prog.stop .undefined

/-- `char num_hex[17]`. -/
def numHex : Location := ⟨.numHex, 0⟩

def digitCases : List (UInt8 × UInt32) :=
  [('0'.toUInt8, 0), ('1'.toUInt8, 1), ('2'.toUInt8, 2), ('3'.toUInt8, 3),
   ('4'.toUInt8, 4), ('5'.toUInt8, 5), ('6'.toUInt8, 6), ('7'.toUInt8, 7),
   ('8'.toUInt8, 8), ('9'.toUInt8, 9), ('a'.toUInt8, 10), ('b'.toUInt8, 11),
   ('c'.toUInt8, 12), ('d'.toUInt8, 13), ('e'.toUInt8, 14), ('f'.toUInt8, 15)]

/-- `digit` after the `switch`: a character without a case leaves it as it was. -/
def switchDigit (c : UInt8) : Kernel UInt32 :=
  match digitCases.lookup c with
  | some digit => pure digit
  | none => do
    let digit ← indeterminate
    pure digit.toUInt32

def fromHexTurn : UInt64 × Pointer × UInt32 → Kernel (Turn (UInt64 × Pointer × UInt32) UInt64)
  | (num, input, length) => do
    let c ← load input
    if c ≠ 0 then do
      let c ← load input
      let digit ← switchDigit c
      pure (.again (num + (digit * length * 16).toUInt64, input.add 1, length - 1))
    else
      pure (.leave num)

namespace Over
variable (putc : UInt8 → Kernel Unit)

def panic (msg : Pointer) : Kernel Unit := do
  let s ← Prog.get
  if s.init then do
    consoleClear 0xff38a169
    consolePutString putc (literal panicNotice) 0
    consolePutString putc msg 0xff5555
  exit

/-- The inner `switch` of `printf`, with `fmt` on the character after a `%`. -/
def printfDirective (fmt : Pointer) (args : List VaArg) (fg : UInt32) :
    Kernel (Turn (Pointer × List VaArg) (List VaArg)) := do
  let c ← load fmt
  if c = 's'.toUInt8 then do
    let (p, args) ← vaArgString args
    consolePutString putc p fg
    pure (.again (fmt.add 1, args))
  else if c = 'x'.toUInt8 then do
    let (num, args) ← vaArgNumber args
    toHexString num numHex
    consolePutString putc (.loc numHex) fg
    pure (.again (fmt.add 1, args))
  else do
    consolePutCharacter putc (literal "%") fg
    consolePutCharacter putc fmt fg
    pure (.again (fmt.add 1, args))

def printfTurn : Pointer × List VaArg → Kernel (Turn (Pointer × List VaArg) (List VaArg))
  | (fmt, args) => do
    let c ← load fmt
    if c ≠ 0 then do
      let s ← Prog.get
      let c ← load fmt
      if c = '%'.toUInt8 then
        printfDirective putc (fmt.add 1) args s.globalFg
      else do
        consolePutCharacter putc fmt s.globalFg
        pure (.again (fmt.add 1, args))
    else
      pure (.leave args)

/-- `printf`; the value is what is left of the argument list when it returns. -/
def printf (fmt : Pointer) (args : List VaArg) : Kernel (List VaArg) :=
  Prog.loop (printfTurn putc) (fmt, args)

def fromHexString (input : Pointer) : Kernel UInt64 := do
  let length ← strlen input
  let _ ← printf putc (literal "\nlength: 0x%x\n") [.number length.toUInt64]
  Prog.loop fromHexTurn (0, input, length)

end Over

abbrev panic := Over.panic ssfnPutc
abbrev printfDirective := Over.printfDirective ssfnPutc
abbrev printfTurn := Over.printfTurn ssfnPutc
abbrev printf := Over.printf ssfnPutc
abbrev fromHexString := Over.fromHexString ssfnPutc

end BenchOS
