import BenchOS.Interrupts

/-!
`main.c`: string helpers, the boot-time memory report, the shell and the entry
point.

What the bootloader answers is a parameter; a missing answer is `none`. The value
of each memory-map constant comes from a header the build fetches, so the eight
of them are a parameter too.
-/
namespace BenchOS

def strcpyTurn :
    Location × Pointer → Kernel (Turn (Location × Pointer) (Location × Pointer))
  | (dst, src) => do
    let c ← load src
    if c ≠ 0 then do
      let c ← load src
      store dst c
      pure (.again (dst.add 1, src.add 1))
    else
      pure (.leave (dst, src))

def strcpy (dst : Location) (src : Pointer) : Kernel Unit := do
  let (dst, src) ← Prog.loop strcpyTurn (dst, src)
  let c ← load src
  store dst c

/-- `*a || *b`, which looks at `b` only when `*a` is zero. -/
def eitherGoesOn (a b : Pointer) : Kernel Bool := do
  let c ← load a
  if c ≠ 0 then
    pure true
  else do
    let c ← load b
    pure (c != 0)

def stringeqTurn : Pointer × Pointer → Kernel (Turn (Pointer × Pointer) Bool)
  | (a, b) => do
    if ← eitherGoesOn a b then do
      let x ← load a
      let y ← load b
      if x ≠ y then
        pure (.leave false)
      else
        pure (.again (a.add 1, b.add 1))
    else
      pure (.leave true)

def stringeq (a b : Pointer) : Kernel Bool := Prog.loop stringeqTurn (a, b)

structure FrameAllocator where
  physicalOffset : UInt64

def memoryFrameAllocatorPhysToVirt (self : FrameAllocator) (address : UInt64) : UInt64 :=
  self.physicalOffset + address

/-- The constants `LIMINE_MEMMAP_*`. A `switch` does not compile unless its cases
are distinct. -/
structure MemmapConstants where
  usable : UInt64
  reserved : UInt64
  acpiReclaimable : UInt64
  acpiNvs : UInt64
  badMemory : UInt64
  bootloaderReclaimable : UInt64
  kernelAndModules : UInt64
  framebuffer : UInt64
  distinct : [usable, reserved, acpiReclaimable, acpiNvs, badMemory,
    bootloaderReclaimable, kernelAndModules, framebuffer].Nodup

structure MemmapEntry where
  base : UInt64
  length : UInt64
  type : UInt64
  deriving DecidableEq

/-- `char memmap_type[256]`. -/
def memmapType : Location := ⟨.memmapType, 0⟩

/-- `char input[257]`. -/
def input : Location := ⟨.input, 0⟩

def memmapTypeName (k : MemmapConstants) (type : UInt64) : String :=
  if type = k.usable then "USABLE"
  else if type = k.reserved then "RESERVED"
  else if type = k.acpiReclaimable then "ACPI_RECLAIMABLE"
  else if type = k.acpiNvs then "ACPI_NVS"
  else if type = k.badMemory then "BAD"
  else if type = k.bootloaderReclaimable then "BOOTLOADER_RECLAIMABLE"
  else if type = k.kernelAndModules then "KERNEL_AND_MODULES"
  else if type = k.framebuffer then "FRAMEBUFFER"
  else "UNKNOWN"

/-- Records the line the shell is about to act on. -/
def note (how : List UInt8 → Handled) : Kernel Unit :=
  Prog.modify fun s => { s with handled := s.handled ++ [how (s.mem.textOf input 257)] }

def helpText : String :=
  "BenchOS v0.1.0\nCommands:\n    - help\n    - exit\n    - clear\n"

structure BootResponses where
  framebuffers : Option (List LimineFramebuffer)
  memmap : Option (List MemmapEntry)
  hhdm : Option UInt64

namespace Over
variable (putc : UInt8 → Kernel Unit)

def memmapEntryReport (k : MemmapConstants) (frameAllocator : FrameAllocator)
    (entry : MemmapEntry) : Kernel Unit := do
  strcpy memmapType (literal (memmapTypeName k entry.type))
  let phys := entry.base
  let _ ← printf putc (literal "    phys: 0x%x, virt: 0x%x, length: 0x%x, status: %s\n")
    [.number phys, .number (memoryFrameAllocatorPhysToVirt frameAllocator phys),
     .number entry.length, .string (.loc memmapType)]

def memmapTurn (k : MemmapConstants) (frameAllocator : FrameAllocator)
    (entries : List MemmapEntry) (i : Nat) : Kernel (Turn Nat Unit) :=
  match entries[i]? with
  | some entry => do
    memmapEntryReport putc k frameAllocator entry
    pure (.again (i + 1))
  | none => pure (.leave ())

def memmapLoop (k : MemmapConstants) (frameAllocator : FrameAllocator)
    (entries : List MemmapEntry) : Kernel Unit :=
  Prog.loop (memmapTurn putc k frameAllocator entries) 0

def dumppage : Kernel Unit := do
  let _ ← printf putc (literal "Enter address: ") []
  consoleInputCharacters putc input 16 0xffff00 true
  note .address
  let value ← fromHexString putc (.loc input)
  let _ ← printf putc (literal "\n0x%x\n") [.number value]

def dispatch : Kernel Unit := do
  let c ← load (.loc input)
  if c = 0 then
    pure ()
  else do
    if ← stringeq (.loc input) (literal "exit") then do
      let _ ← printf putc (literal "exiting...\n") []
      exit
    else if ← stringeq (.loc input) (literal "help") then do
      let _ ← printf putc (literal helpText) []
    else if ← stringeq (.loc input) (literal "clear") then
      consoleClear 0
    else if ← stringeq (.loc input) (literal "dumppage") then
      dumppage putc
    else do
      consolePutString putc (literal "Unknown command: ") 0xff0000
      consolePutString putc (.loc input) 0xff0000
      consolePutString putc (literal "\n") 0xff0000

/-- The body of the prompt loop. -/
def promptTurn : Unit → Kernel (Turn Unit Unit)
  | () => do
    let _ ← printf putc (literal "> ") []
    consoleInputCharacters putc input 256 0xffff00 true
    let _ ← printf putc (literal "\n") []
    note .command
    dispatch putc
    pure (.again ())

def promptLoop : Kernel Unit := Prog.loop (promptTurn putc) ()

def kernelMain (k : MemmapConstants) (boot : BootResponses) : Kernel Unit := do
  let _ ← printf putc (literal "BenchOS 0.1.0\n") []
  match boot.framebuffers, boot.hhdm with
  | some (framebuffer :: _), some offset => do
    let _ ← printf putc (literal "Using framebuffer at 0x%x\n") [.number framebuffer.address]
    let frameAllocator : FrameAllocator := { physicalOffset := offset }
    let _ ← printf putc (literal "Offset 0x%x\n") [.number frameAllocator.physicalOffset]
    let _ ← printf putc (literal "Detecting memory...\n") []
    match boot.memmap with
    | none => panic putc (literal "NO_MEMORY_MAP")
    | some entries => do
      memmapLoop putc k frameAllocator entries
      let _ ← printf putc (literal "\n\nThis is the prompt. Type `help` for more info.\n\n") []
      promptLoop putc
  | _, _ => Prog.stop .undefined

/-- `_start`; `panic` does not return. -/
def start (k : MemmapConstants) (handlers : ExceptionHandlers) (boot : BootResponses) :
    Kernel Unit :=
  match boot.framebuffers with
  | some (framebuffer :: _) => do
    consoleInit framebuffer
    initDebug 0xffffff
    if boot.hhdm.isNone then
      panic putc (literal "NO_HHDM")
    initInterrupts handlers ⟨.idt, 0⟩
    kernelMain putc k boot
    exit
  | _ => panic putc (literal "NO_FRAMEBUFFER")

end Over

abbrev memmapEntryReport := Over.memmapEntryReport ssfnPutc
abbrev memmapTurn := Over.memmapTurn ssfnPutc
abbrev memmapLoop := Over.memmapLoop ssfnPutc
abbrev dumppage := Over.dumppage ssfnPutc
abbrev dispatch := Over.dispatch ssfnPutc
abbrev promptTurn := Over.promptTurn ssfnPutc
abbrev promptLoop := Over.promptLoop ssfnPutc
abbrev kernelMain := Over.kernelMain ssfnPutc
abbrev start := Over.start ssfnPutc

end BenchOS
