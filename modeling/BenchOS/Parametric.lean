import BenchOS.Library.Simulation
import BenchOS.Main
import BenchOS.Printing

/-!
What prints over one `ssfn_putc` follows what prints over another, when the two machines
differ only in what the kernel does not look at between two characters. `Simulates` says
what that takes of the relation; the functions are then followed one by one.
-/
namespace BenchOS
open Prog

/-- `R` is kept by every access the kernel makes outside `ram` and by the two ways to draw
a character, in the runs that do not stop for a reason in `E`. -/
structure Simulates (E : Halt → Prop) (R : Machine → Machine → Prop)
    (putc putc' : UInt8 → Kernel Unit) : Prop where
  putc : ∀ c, Mimics E R (putc c) (putc' c)
  setFg : ∀ fg, Mimics E R (setFg fg) (setFg fg)
  load : ∀ p : Pointer, p.Outside .ram → Mimics E R (load p) (load p)
  store : ∀ (l : Location) c, l.obj ≠ .ram → Mimics E R (store l c) (store l c)
  indeterminate : Mimics E R indeterminate indeterminate
  portRead : ∀ port, Mimics E R (portRead port) (portRead port)
  note : ∀ how, Mimics E R (note how) (note how)
  globalFg : ∀ s t, R s t → t.globalFg = s.globalFg

theorem literal_outside (text : String) (o : Object) : Pointer.Outside (literal text) o :=
  trivial

theorem input_notRam : input.obj ≠ .ram := by decide

theorem input_outsideRam : Pointer.Outside (.loc input) .ram := input_notRam

/-- The strings among the arguments are outside `ram`. -/
def StringsOutside (args : List VaArg) : Prop := ∀ p, .string p ∈ args → Pointer.Outside p .ram

/-- What is left to print is outside `ram`. -/
def ToPrint (b : Pointer × List VaArg) : Prop := Pointer.Outside b.1 .ram ∧ StringsOutside b.2

section Values
variable {E : Halt → Prop} {R : Machine → Machine → Prop} {arg : VaArg} {args : List VaArg}

theorem StringsOutside.tail (h : StringsOutside (arg :: args)) : StringsOutside args :=
  fun p hp => h p (List.mem_cons_of_mem _ hp)

theorem stringsOutside_numbers (numbers : List UInt64) :
    StringsOutside (numbers.map .number) := by
  intro p hp
  obtain ⟨n, -, hn⟩ := List.mem_map.mp hp
  cases hn

theorem follows_load {p : Pointer}
    (same : ∀ s t, R s t → t.mem.read p = s.mem.read p)
    (kept : ∀ s t, R s t → R (s.reading [p]) (t.reading [p])) : Mimics E R (load p) (load p) := by
  intro n s t o hst ho _
  rw [load] at ho
  cases hs : s.mem.read p with
  | none =>
      rw [hs] at ho
      cases ho
      refine ⟨_, .of_forall fun _ => ?_, .stopped hst⟩
      simp only [load, same s t hst, hs]
  | some c =>
      rw [hs] at ho
      cases ho
      exact ⟨_, load_returns ((same s t hst).trans hs), .returned trivial (kept s t hst)⟩

theorem vaArgString_mimics (h : StringsOutside args) :
    Follows E R (fun r => Pointer.Outside r.1 .ram ∧ StringsOutside r.2) (vaArgString args)
      (vaArgString args) := by
  cases args with
  | nil => exact follows_stop _
  | cons arg args =>
      cases arg with
      | string p => exact follows_pure ⟨h p (List.mem_cons_self ..), h.tail⟩
      | number n => exact follows_stop _

theorem vaArgNumber_mimics (h : StringsOutside args) :
    Follows E R (fun r => StringsOutside r.2) (vaArgNumber args) (vaArgNumber args) := by
  cases args with
  | nil => exact follows_stop _
  | cons arg args =>
      cases arg with
      | string p => exact follows_stop _
      | number n => exact follows_pure h.tail

theorem log2_mimics (num : UInt64) : Mimics E R (log2 num) (log2 num) := by
  refine Follows.loop (I := fun _ => True) ?_ trivial
  rintro ⟨val, n⟩ -
  exact .ite (fun _ => follows_pure trivial) fun _ => follows_pure trivial

end Values

namespace Simulates
variable {E : Halt → Prop} {R : Machine → Machine → Prop} {putc putc' : UInt8 → Kernel Unit}
  (h : Simulates E R putc putc')
include h

section Plain

theorem strcpy {dst : Location} {src : Pointer} (hdst : dst.obj ≠ .ram)
    (hsrc : src.Outside .ram) : Mimics E R (strcpy dst src) (strcpy dst src) := by
  let apart : Location × Pointer → Prop := fun b => b.1.obj ≠ .ram ∧ b.2.Outside .ram
  refine Follows.bind (P := apart) (Follows.loop (I := apart) ?_ ⟨hdst, hsrc⟩) ?_
  · rintro ⟨dst, src⟩ ⟨hdst, hsrc⟩
    refine (h.load src hsrc).bind fun c _ => .ite (fun _ => ?_) fun _ => follows_pure ⟨hdst, hsrc⟩
    refine (h.load src hsrc).bind fun c _ => (h.store dst c hdst).bind fun _ _ => ?_
    exact follows_pure ⟨hdst, outside_add hsrc 1⟩
  · rintro ⟨dst, src⟩ ⟨hdst, hsrc⟩
    exact (h.load src hsrc).bind fun c _ => h.store dst c hdst

theorem writeDigits (num : UInt64) {result : Location} (hresult : result.obj ≠ .ram) :
    Mimics E R (writeDigits num result) (writeDigits num result) := by
  refine (log2_mimics num).bind fun bits _ => ?_
  refine Follows.bind (P := fun _ => True) (Follows.loop (I := fun _ => True) ?_ trivial)
    fun _ _ => h.store _ 0 hresult
  rintro ⟨i, num⟩ -
  refine .ite (fun _ => ?_) fun _ => follows_pure trivial
  refine (h.store (result.add i.toNat) _ hresult).bind fun _ _ => ?_
  exact follows_pure trivial

theorem toHexString (num : UInt64) {result : Location} (hresult : result.obj ≠ .ram) :
    Mimics E R (toHexString num result) (toHexString num result) := by
  refine .ite (fun _ => ?_) fun _ => h.writeDigits num hresult
  refine (h.store result _ hresult).bind fun _ _ => ?_
  refine (h.store (result.add 1) 0 hresult).bind fun _ _ => ?_
  exact h.writeDigits num (show (result.add 1).obj ≠ .ram from hresult)

theorem strlen {str : Pointer} (hstr : str.Outside .ram) :
    Mimics E R (strlen str) (strlen str) := by
  refine Follows.bind (P := fun _ => True)
    (Follows.loop (I := fun b => b.2.Outside .ram) ?_ hstr) fun _ _ =>
      h.indeterminate.bind fun _ _ => follows_pure trivial
  rintro ⟨l, str⟩ hstr
  refine (h.load str hstr).bind fun c _ => .ite (fun _ => ?_) fun _ => follows_pure trivial
  exact follows_pure (outside_add hstr 1)

theorem switchDigit (c : UInt8) : Mimics E R (switchDigit c) (switchDigit c) := by
  rw [BenchOS.switchDigit]
  split
  · exact follows_pure trivial
  · exact h.indeterminate.bind fun _ _ => follows_pure trivial

theorem pollLoop (scanCode : UInt8) :
    Mimics E R (Prog.loop pollTurn scanCode) (Prog.loop pollTurn scanCode) := by
  refine Follows.loop (I := fun _ => True) (fun scanCode _ => ?_) trivial
  refine .ite (fun _ => ?_) fun _ => follows_pure trivial
  exact (h.portRead 0x60).bind fun _ _ => follows_pure trivial

theorem releaseLoop (scanCode : UInt8) :
    Mimics E R (Prog.loop (releaseTurn scanCode) ()) (Prog.loop (releaseTurn scanCode) ()) := by
  refine Follows.loop (I := fun _ => True) (fun _ _ => ?_) trivial
  refine (h.portRead 0x60).bind fun sample _ => ?_
  exact .ite (fun _ => follows_pure trivial) fun _ => follows_pure trivial

end Plain

section Console

theorem consolePutCharacter {msg : Pointer} (hmsg : msg.Outside .ram) (fg : UInt32) :
    Mimics E R (Over.consolePutCharacter putc msg fg) (Over.consolePutCharacter putc' msg fg) :=
  (h.setFg fg).bind fun _ _ => (h.load msg hmsg).bind fun c _ => h.putc c

theorem consolePutString {msg : Pointer} (hmsg : msg.Outside .ram) (fg : UInt32) :
    Mimics E R (Over.consolePutString putc msg fg) (Over.consolePutString putc' msg fg) := by
  refine (h.setFg fg).bind fun _ _ => ?_
  refine Follows.loop (I := fun msg => msg.Outside .ram) (fun msg hmsg => ?_) hmsg
  refine (h.load msg hmsg).bind fun c _ => .ite (fun _ => ?_) fun _ => follows_pure trivial
  refine (h.load msg hmsg).bind fun c _ => (h.putc c).bind fun _ _ => ?_
  exact follows_pure (outside_add hmsg 1)

theorem acceptKey {input : Location} (hinput : input.obj ≠ .ram) (fg : UInt32)
    (scanCode : UInt8) :
    Mimics E R (Over.acceptKey putc input fg scanCode)
      (Over.acceptKey putc' input fg scanCode) := by
  have htable : Pointer.Outside (.lit lowercase scanCode.toNat) .ram := trivial
  have hrest : Mimics E R (BenchOS.load (.lit lowercase scanCode.toNat) >>= BenchOS.store input)
      (BenchOS.load (.lit lowercase scanCode.toNat) >>= BenchOS.store input) :=
    (h.load _ htable).bind fun c _ => h.store input c hinput
  refine (h.load _ htable).bind fun c _ => .ite (fun _ => ?_) fun _ => hrest
  exact (h.consolePutCharacter htable fg).bind fun _ _ => hrest

theorem consoleInputCharacter {input : Location} (hinput : input.obj ≠ .ram) (fg : UInt32) :
    Mimics E R (Over.consoleInputCharacter putc input fg)
      (Over.consoleInputCharacter putc' input fg) :=
  (h.portRead 0x60).bind fun v _ => (h.pollLoop v).bind fun scanCode _ =>
    (h.acceptKey hinput fg scanCode).bind fun _ _ => h.releaseLoop scanCode

theorem consoleInputCharacters {input : Location} (hinput : input.obj ≠ .ram) (count : Nat)
    (fg : UInt32) (nullTerminate : Bool) :
    Mimics E R (Over.consoleInputCharacters putc input count fg nullTerminate)
      (Over.consoleInputCharacters putc' input count fg nullTerminate) := by
  refine Follows.bind (P := fun _ => True)
    (Follows.loop (I := fun _ => True) (fun i _ => ?_) trivial) fun full _ => ?_
  · refine .ite (fun _ => ?_) fun _ => follows_pure trivial
    have hplace : (input.add i).obj ≠ .ram := hinput
    refine (h.consoleInputCharacter hplace fg).bind fun _ _ => ?_
    refine (h.load (.loc (input.add i)) hplace).bind fun c _ => ?_
    exact .ite (fun _ => follows_pure trivial) fun _ => follows_pure trivial
  · exact .ite (fun _ => h.store _ 0 hinput) fun _ => follows_pure trivial

end Console

section Printf

theorem printfDirective {fmt : Pointer} (hfmt : fmt.Outside .ram) {args : List VaArg}
    (hargs : StringsOutside args) (fg : UInt32) :
    Follows E R (Turn.All ToPrint fun _ => True) (Over.printfDirective putc fmt args fg)
      (Over.printfDirective putc' fmt args fg) := by
  have hnext := outside_add hfmt 1
  have hbuffer : Pointer.Outside (.loc numHex) .ram := show Object.numHex ≠ .ram by decide
  refine (h.load fmt hfmt).bind fun c _ =>
    .ite (fun _ => ?_) fun _ => .ite (fun _ => ?_) fun _ => ?_
  · refine (vaArgString_mimics hargs).bind ?_
    rintro ⟨p, args⟩ ⟨hp, hargs⟩
    exact (h.consolePutString hp fg).bind fun _ _ => follows_pure ⟨hnext, hargs⟩
  · refine (vaArgNumber_mimics hargs).bind ?_
    rintro ⟨num, args⟩ hargs
    refine (h.toHexString num hbuffer).bind fun _ _ => ?_
    exact (h.consolePutString hbuffer fg).bind fun _ _ => follows_pure ⟨hnext, hargs⟩
  · refine (h.consolePutCharacter (literal_outside "%" .ram) fg).bind fun _ _ => ?_
    exact (h.consolePutCharacter hfmt fg).bind fun _ _ => follows_pure ⟨hnext, hargs⟩

theorem printf {fmt : Pointer} (hfmt : fmt.Outside .ram) {args : List VaArg}
    (hargs : StringsOutside args) :
    Mimics E R (Over.printf putc fmt args) (Over.printf putc' fmt args) := by
  refine Follows.loop (I := ToPrint) ?_ ⟨hfmt, hargs⟩
  rintro ⟨fmt, args⟩ ⟨hfmt, hargs⟩
  refine (h.load fmt hfmt).bind fun c _ => .ite (fun _ => ?_) fun _ => follows_pure trivial
  refine follows_get fun s t hst => ?_
  rw [h.globalFg s t hst]
  refine (h.load fmt hfmt).bind fun c _ => .ite (fun _ => ?_) fun _ => ?_
  · exact h.printfDirective (outside_add hfmt 1) hargs _
  · refine (h.consolePutCharacter hfmt _).bind fun _ _ => ?_
    exact follows_pure ⟨outside_add hfmt 1, hargs⟩

theorem printf_numbers (text : String) (numbers : List UInt64) :
    Mimics E R (Over.printf putc (literal text) (numbers.map .number))
      (Over.printf putc' (literal text) (numbers.map .number)) :=
  h.printf (literal_outside text .ram) (stringsOutside_numbers numbers)

theorem fromHexString {input : Pointer} (hinput : input.Outside .ram) :
    Mimics E R (Over.fromHexString putc input) (Over.fromHexString putc' input) := by
  refine (h.strlen hinput).bind fun length _ => ?_
  refine (h.printf_numbers _ [length.toUInt64]).bind fun _ _ => ?_
  refine Follows.loop (I := fun b => b.2.1.Outside .ram) ?_ hinput
  rintro ⟨num, input, length⟩ hinput
  refine (h.load input hinput).bind fun c _ => .ite (fun _ => ?_) fun _ => follows_pure trivial
  refine (h.load input hinput).bind fun c _ => (h.switchDigit c).bind fun digit _ => ?_
  exact follows_pure (outside_add hinput 1)

end Printf

section Main

theorem memmapEntryReport (k : MemmapConstants) (frameAllocator : FrameAllocator)
    (entry : MemmapEntry) :
    Mimics E R (Over.memmapEntryReport putc k frameAllocator entry)
      (Over.memmapEntryReport putc' k frameAllocator entry) := by
  have hbuffer : Pointer.Outside (.loc memmapType) .ram := show Object.memmapType ≠ .ram by decide
  refine (h.strcpy hbuffer (literal_outside _ .ram)).bind fun _ _ => ?_
  refine (h.printf (literal_outside _ .ram) ?_).bind fun _ _ => follows_pure trivial
  intro p hp
  obtain rfl : p = .loc memmapType := by simpa using hp
  exact hbuffer

theorem memmapLoop (k : MemmapConstants) (frameAllocator : FrameAllocator)
    (entries : List MemmapEntry) :
    Mimics E R (Over.memmapLoop putc k frameAllocator entries)
      (Over.memmapLoop putc' k frameAllocator entries) := by
  refine Follows.loop (I := fun _ => True) (fun i _ => ?_) trivial
  rw [Over.memmapTurn, Over.memmapTurn]
  split
  · exact (h.memmapEntryReport k frameAllocator _).bind fun _ _ => follows_pure trivial
  · exact follows_pure trivial

theorem dumppage : Mimics E R (Over.dumppage putc) (Over.dumppage putc') := by
  refine (h.printf_numbers _ []).bind fun _ _ => ?_
  refine (h.consoleInputCharacters input_notRam 16 0xffff00 true).bind fun _ _ => ?_
  refine (h.note _).bind fun _ _ => (h.fromHexString input_outsideRam).bind fun value _ => ?_
  exact (h.printf_numbers _ [value]).bind fun _ _ => follows_pure trivial

end Main
end Simulates
end BenchOS
