import BenchOS.Debug

/-!
`interrupts/`: the gate descriptors, the table register, the exception gates and
how the processor finds a handler.

The processor's side is the architecture's: it faults unless all 16 bytes of the
gate are below the limit, and otherwise goes to the offset put together from the
three parts in the gate.
-/
namespace BenchOS

/-- `InterruptDescriptor64`, in the order of its packed layout. -/
structure InterruptDescriptor64 where
  handlerPointerLow : UInt16
  segmentSelector : UInt16
  ist : UInt8
  typeAttributes : UInt8
  handlerPointerMed : UInt16
  handlerPointerHigh : UInt32
  zero : UInt32
  deriving DecidableEq

def trapGate : UInt8 := 0x8F

def interruptsNewEntry (segmentSelector : UInt16) (handler : UInt64)
    (typeAttributes ist : UInt8) : InterruptDescriptor64 where
  segmentSelector := segmentSelector
  handlerPointerLow := handler.toUInt16
  handlerPointerMed := (handler >>> 16).toUInt16
  handlerPointerHigh := (handler >>> 32).toUInt32
  typeAttributes := typeAttributes
  ist := ist
  zero := 0

/-- The 16 bytes of a descriptor: packed, little-endian. -/
def InterruptDescriptor64.packed (d : InterruptDescriptor64) : List UInt8 :=
  bytes16 d.handlerPointerLow ++ bytes16 d.segmentSelector ++ [d.ist, d.typeAttributes] ++
    bytes16 d.handlerPointerMed ++ bytes32 d.handlerPointerHigh ++ bytes32 d.zero

/-- `idt[v] = d`. -/
def setEntry (idt : Location) (v : Nat) (d : InterruptDescriptor64) : Kernel Unit :=
  storeBytes (idt.add (16 * v)) d.packed

def lidt (base : Location) (size : UInt16) : Kernel Unit :=
  Prog.modify fun s => { s with idtr := some { length := size, base := base } }

/-- The addresses the linker gives the five exception handlers. -/
structure ExceptionHandlers where
  divZero : UInt64
  breakpoint : UInt64
  doubleFault : UInt64
  generalProtectionFault : UInt64
  pageFault : UInt64

def initExceptions (handlers : ExceptionHandlers) (idt : Location)
    (segmentSelector : UInt16) : Kernel Unit := do
  setEntry idt 0 (interruptsNewEntry segmentSelector handlers.divZero trapGate 0)
  setEntry idt 3 (interruptsNewEntry segmentSelector handlers.breakpoint trapGate 0)
  setEntry idt 8 (interruptsNewEntry segmentSelector handlers.doubleFault trapGate 0)
  setEntry idt 13
    (interruptsNewEntry segmentSelector handlers.generalProtectionFault trapGate 0)
  setEntry idt 14 (interruptsNewEntry segmentSelector handlers.pageFault trapGate 0)

def handleBreakpoint : Kernel Unit := do
  let _ ← printf (literal "Breakpoint\n") []

def handleDivZero : Kernel Unit := panic (literal "EXCEPTION_DIV_ZERO")
def handlePageFault : Kernel Unit := panic (literal "EXCEPTION_PAGE_FAULT")
def handleDoubleFault : Kernel Unit := panic (literal "EXCEPTION_DOUBLE_FAULT")
def handleGeneralProtectionFault : Kernel Unit :=
  panic (literal "EXCEPTION_GENERAL_PROTECTION_FAULT")

def initInterrupts (handlers : ExceptionHandlers) (idt : Location) : Kernel Unit := do
  let s ← Prog.get
  let segmentSelector := s.cs ||| 0x000
  initExceptions handlers idt segmentSelector
  lidt idt 255

structure Gate where
  offset : UInt64
  selector : UInt16
  ist : UInt8
  typeAttributes : UInt8
  reserved : UInt32
  deriving DecidableEq

def readGate (m : Mem Object) (l : Location) : Gate where
  offset := UInt64.ofNat (m.number l 2 + 2 ^ 16 * m.number (l.add 6) 2 +
    2 ^ 32 * m.number (l.add 8) 4)
  selector := UInt16.ofNat (m.number (l.add 2) 2)
  ist := m (l.add 4) &&& 7
  typeAttributes := m (l.add 5)
  reserved := UInt32.ofNat (m.number (l.add 12) 4)

/-- The gate the processor finds for vector `v`; `none` is a fault. -/
def Machine.lookup (s : Machine) (v : Nat) : Option Gate :=
  match s.idtr with
  | none => none
  | some idtr =>
    if 16 * v + 15 ≤ idtr.length.toNat then some (readGate s.mem (idtr.base.add (16 * v)))
    else none

end BenchOS
