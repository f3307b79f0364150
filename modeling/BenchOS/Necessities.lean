import BenchOS.Machine

/-!
`memory/necessities.c`: the memory functions the compiler relies on.

Their arguments are addresses of the one address space, the object `ram`; a
comparison of two of them compares the numbers. `memcmp` stores nothing, so it is
given any two pointers.
-/
namespace BenchOS

def ram (address : UInt64) : Location := ⟨.ram, address⟩

/-- `for (size_t i = 0; i < n; i++) pdest[i] = psrc[i]`. -/
def copyUpTurn (dest src n i : UInt64) : Kernel (Turn UInt64 Unit) :=
  if i < n then do
    let c ← load (.loc (ram (src + i)))
    store (ram (dest + i)) c
    pure (.again (i + 1))
  else
    pure (.leave ())

/-- `for (size_t i = n; i > 0; i--) pdest[i - 1] = psrc[i - 1]`. -/
def copyDownTurn (dest src i : UInt64) : Kernel (Turn UInt64 Unit) :=
  if i > 0 then do
    let c ← load (.loc (ram (src + (i - 1))))
    store (ram (dest + (i - 1))) c
    pure (.again (i - 1))
  else
    pure (.leave ())

def memcpy (dest src n : UInt64) : Kernel UInt64 := do
  Prog.loop (copyUpTurn dest src n) 0
  pure dest

def memsetTurn (address : UInt64) (c : Int32) (n i : UInt64) : Kernel (Turn UInt64 Unit) :=
  if i < n then do
    store (ram (address + i)) c.toUInt32.toUInt8
    pure (.again (i + 1))
  else
    pure (.leave ())

def memset (address : UInt64) (c : Int32) (n : UInt64) : Kernel UInt64 := do
  Prog.loop (memsetTurn address c n) 0
  pure address

def memmove (dest src n : UInt64) : Kernel UInt64 := do
  if src > dest then
    Prog.loop (copyUpTurn dest src n) 0
  else if src < dest then
    Prog.loop (copyDownTurn dest src) n
  pure dest

def memcmpTurn (p1 p2 : Pointer) (n i : UInt64) : Kernel (Turn UInt64 Int) :=
  if i < n then do
    let x ← load (p1.add i.toNat)
    let y ← load (p2.add i.toNat)
    if x ≠ y then do
      let x ← load (p1.add i.toNat)
      let y ← load (p2.add i.toNat)
      pure (.leave (if x < y then -1 else 1))
    else
      pure (.again (i + 1))
  else
    pure (.leave 0)

def memcmp (p1 p2 : Pointer) (n : UInt64) : Kernel Int := Prog.loop (memcmpTurn p1 p2 n) 0

/-- A machine whose bytes are told apart by the low part of their offsets. -/
def rampMachine : Machine := { Machine.reset with mem := fun l => l.off.toUInt8 }

end BenchOS
