import BenchOS.Library.Program
import BenchOS.Library.Memory
import Mathlib.Data.UInt

/-!
The machine the kernel runs on: its memory, the port samples still to come, the
two interrupt controllers, the interrupt table register and what the screen has
been sent.

The kernel never calls a function from inside itself, so each local array of the
source is one object, and objects never overlap. `bus` records every access in
order and `handled` the lines the shell acts on. Both are for statements only:
no modelled function reads them.
-/
namespace BenchOS

/-- The memory objects: `ram` is everything that is addressed by number (the
framebuffer, the arguments of the memory functions), the others are the arrays
of the source. -/
inductive Object where
  | ram
  | idt
  | numHex
  | memmapType
  | input
  deriving DecidableEq

abbrev Location : Type := Loc Object
abbrev Pointer : Type := Ptr Object

inductive BusEvent where
  | read (p : Pointer)
  | write (l : Location) (value : UInt8)
  | write32 (l : Location) (value : UInt32)
  | inb (port : UInt16) (value : UInt8)
  | outb (port : UInt16) (value : UInt8)

/-- A character the renderer was given and the colour it had then. -/
structure Glyph where
  char : UInt8
  fg : UInt32
  deriving DecidableEq

/-- What the screen is asked for. -/
inductive ScreenOp where
  | put (g : Glyph)
  | clear (color : UInt32)

/-- `ssfn_buf_t`: the renderer's copy of the framebuffer, at its own widths. -/
structure SsfnBuf where
  ptr : UInt64
  w : Int32
  h : Int32
  p : UInt16
  x : Int32
  y : Int32
  fg : UInt32
  bg : UInt32

/-- The fields of `limine_framebuffer` that the kernel reads. -/
structure LimineFramebuffer where
  address : UInt64
  width : UInt64
  height : UInt64
  pitch : UInt64

/-- How far an 8259A is in taking its three initialisation words. -/
inductive PicPhase where
  | ready
  | wantsBase
  | wantsCascade
  | wantsMode
  deriving DecidableEq

structure Pic where
  phase : PicPhase
  base : UInt8
  cascade : UInt8
  mode : UInt8
  mask : UInt8
  deriving DecidableEq

structure Idtr where
  length : UInt16
  base : Location

/-- A line as the shell acted on it. -/
inductive Handled where
  | command (line : List UInt8)
  | address (line : List UInt8)
  deriving DecidableEq

structure Machine where
  mem : Mem Object
  /-- What the reads of each port will return. -/
  samples : UInt16 → List UInt8
  pic1 : Pic
  pic2 : Pic
  cs : UInt16
  idtr : Option Idtr
  ssfnDst : SsfnBuf
  globalFramebuffer : LimineFramebuffer
  globalFg : UInt32
  init : Bool
  /-- The indeterminate values the run will meet, in the order it meets them. -/
  junk : Nat → UInt64
  screen : List Glyph
  bus : List BusEvent
  handled : List Handled

def Machine.reset : Machine where
  mem := fun _ => 0
  samples := fun _ => []
  pic1 := ⟨.ready, 0, 0, 0, 0⟩
  pic2 := ⟨.ready, 0, 0, 0, 0⟩
  cs := 0
  idtr := none
  ssfnDst := ⟨0, 0, 0, 0, 0, 0, 0, 0⟩
  globalFramebuffer := ⟨0, 0, 0, 0⟩
  globalFg := 0
  init := false
  junk := fun _ => 0
  screen := []
  bus := []
  handled := []

/-- Why a run ended for good: the processor was halted, a port has no further
sample, or the C program has no defined behaviour from here on. -/
inductive Halt where
  | halted
  | waiting
  | undefined
  deriving DecidableEq

abbrev Kernel (α : Type) : Type := Prog Halt Machine α

def bytes (text : String) : List UInt8 := text.toList.map fun c => UInt8.ofNat c.toNat

/-- The bytes of a word, the least significant first. -/
def bytes16 (v : UInt16) : List UInt8 := [v.toUInt8, (v >>> 8).toUInt8]

def bytes32 (v : UInt32) : List UInt8 :=
  [v.toUInt8, (v >>> 8).toUInt8, (v >>> 16).toUInt8, (v >>> 24).toUInt8]

def literal (text : String) : Pointer := .lit (bytes text) 0

def load (p : Pointer) : Kernel UInt8 := fun _ s =>
  match s.mem.read p with
  | some c => some (.returned c { s with bus := s.bus ++ [.read p] })
  | none => some (.stopped .undefined s)

/-- Reads a value that the C program leaves indeterminate. -/
def indeterminate : Kernel UInt64 := fun _ s =>
  some (.returned (s.junk 0) { s with junk := fun i => s.junk (i + 1) })

def store (l : Location) (c : UInt8) : Kernel Unit :=
  Prog.modify fun s =>
    { s with mem := Function.update s.mem l c, bus := s.bus ++ [.write l c] }

def storeBytes (l : Location) (bs : List UInt8) : Kernel Unit :=
  Prog.modify fun s =>
    { s with
      mem := s.mem.blit l bs
      bus := s.bus ++ bs.mapIdx fun i b => .write (l.add i) b }

@[simp] theorem length_bytes16 (v : UInt16) : (bytes16 v).length = 2 := rfl

@[simp] theorem length_bytes32 (v : UInt32) : (bytes32 v).length = 4 := rfl

theorem number_bytes16 {m : Mem Object} {l : Location} {v : UInt16}
    (h : m.Block l (bytes16 v)) : m.number l 2 = v.toNat := by
  have hnum := h.number_eq
  have hlt := UInt16.toNat_lt v
  rw [length_bytes16] at hnum
  rw [hnum]
  simp [bytes16, Nat.ofDigits, Nat.shiftRight_eq_div_pow]
  omega

theorem number_bytes32 {m : Mem Object} {l : Location} {v : UInt32}
    (h : m.Block l (bytes32 v)) : m.number l 4 = v.toNat := by
  have hnum := h.number_eq
  have hlt := UInt32.toNat_lt v
  rw [length_bytes32] at hnum
  rw [hnum]
  simp [bytes32, Nat.ofDigits, Nat.shiftRight_eq_div_pow]
  omega

theorem store_returns (l : Location) (c : UInt8) (s : Machine) :
    (store l c).Returns s ()
      { s with mem := Function.update s.mem l c, bus := s.bus ++ [.write l c] } :=
  Prog.returns_modify _ s

/-- Every byte that the trace reads satisfies `P`. -/
def ReadsOnly (P : Pointer → Prop) (t : List BusEvent) : Prop := ∀ p, .read p ∈ t → P p

theorem ReadsOnly.append {P : Pointer → Prop} {t u : List BusEvent} (h : ReadsOnly P t)
    (k : ReadsOnly P u) : ReadsOnly P (t ++ u) := by
  intro p hp
  cases List.mem_append.mp hp with
  | inl hp => exact h p hp
  | inr hp => exact k p hp

/-- The machine after the bytes at `ps` have been read. -/
def Machine.reading (s : Machine) (ps : List Pointer) : Machine :=
  { s with bus := s.bus ++ ps.map .read }

def Machine.withJunk (s : Machine) (junk : Nat → UInt64) : Machine := { s with junk := junk }

@[simp] theorem Machine.withJunk_mem (s : Machine) (junk : Nat → UInt64) :
    (s.withJunk junk).mem = s.mem := rfl

@[simp] theorem Machine.withJunk_junk (s : Machine) (junk : Nat → UInt64) :
    (s.withJunk junk).junk = junk := rfl

@[simp] theorem Machine.reading_junk (s : Machine) (ps : List Pointer) :
    (s.reading ps).junk = s.junk := rfl

@[simp] theorem Machine.reading_mem (s : Machine) (ps : List Pointer) :
    (s.reading ps).mem = s.mem := rfl

@[simp] theorem Machine.reading_globalFg (s : Machine) (ps : List Pointer) :
    (s.reading ps).globalFg = s.globalFg := rfl

@[simp] theorem Machine.reading_nil (s : Machine) : s.reading [] = s := by
  simp [Machine.reading]

@[simp] theorem Machine.reading_reading (s : Machine) (ps qs : List Pointer) :
    (s.reading ps).reading qs = s.reading (ps ++ qs) := by
  simp [Machine.reading]

theorem load_returns {p : Pointer} {c : UInt8} {s : Machine} (h : s.mem.read p = some c) :
    (load p).Returns s c (s.reading [p]) :=
  .of_forall fun _ => by simp only [load, h, Machine.reading, List.map_singleton]

end BenchOS
