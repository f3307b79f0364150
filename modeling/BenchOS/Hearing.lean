import BenchOS.Parametric

/-!
A run that does not wait for the keyboard is not changed by what the keyboard gives later.
Only `portRead` looks at the samples, and at the first one alone, so the kernel follows
itself on the machine that has more of them to come. The runs that wait are those that need
not be followed.
-/
namespace BenchOS
open Prog

/-- The machine with more samples of the keyboard to come. -/
def Machine.hearing (s : Machine) (more : List UInt8) : Machine :=
  { s with samples := Function.update s.samples 0x60 (s.samples 0x60 ++ more) }

/-- `d` does from `s.hearing more` what `c` does from `s`, unless that waits. -/
abbrev Unheard (more : List UInt8) {α : Type} (c : Kernel α) : Prop :=
  Mimics (· = Halt.waiting) (fun s t => t = Machine.hearing s more) c c

section Unheard
variable {more : List UInt8}

/-- What does not touch the samples. -/
theorem unheard_modify {f : Machine → Machine}
    (h : ∀ s, f (s.hearing more) = (f s).hearing more) : Unheard more (Prog.modify f) :=
  follows_modify <| by
    rintro s _ rfl
    exact h s

theorem unheard_portRead (port : UInt16) : Unheard more (portRead port) := by
  rintro n s _ o rfl ho hcounts
  rw [portRead] at ho
  cases hs : s.samples port with
  | nil =>
      rw [hs] at ho
      cases ho
      exact absurd rfl hcounts
  | cons v rest =>
      rw [hs] at ho
      cases ho
      refine ⟨_, .of_forall fun _ => ?_, .returned trivial rfl⟩
      by_cases hport : port = 0x60
      · subst hport
        simp [portRead, Machine.hearing, hs]
      · have hsamples : (s.hearing more).samples port = v :: rest :=
          (Function.update_of_ne hport _ _).trans hs
        simp only [portRead, hsamples]
        simp [Machine.hearing, Function.update_comm hport,
          Function.update_of_ne (Ne.symm hport)]

theorem unheard_load (p : Pointer) : Unheard more (load p) := by
  refine follows_load ?_ ?_
  · rintro s _ rfl
    rfl
  · rintro s _ rfl
    rfl

theorem unheard_indeterminate : Unheard more indeterminate := by
  rintro n s _ o rfl ho -
  cases ho
  exact ⟨_, .of_forall fun _ => rfl, .returned trivial rfl⟩

theorem unheard_simulates (more : List UInt8) :
    Simulates (· = Halt.waiting) (fun s t => t = Machine.hearing s more) ssfnPutc ssfnPutc where
  putc := fun _ => unheard_modify fun _ => rfl
  setFg := fun _ => unheard_modify fun _ => rfl
  load := fun p _ => unheard_load p
  store := fun _ _ _ => unheard_modify fun _ => rfl
  indeterminate := unheard_indeterminate
  portRead := unheard_portRead
  note := fun _ => unheard_modify fun _ => rfl
  globalFg := by
    rintro s _ rfl
    rfl

theorem consoleClear_unheard (color : UInt32) : Unheard more (consoleClear color) := by
  refine Follows.bind (P := fun _ => True) (Follows.loop (I := fun _ => True)
    (fun i _ => ?_) trivial) fun _ _ => unheard_modify fun _ => rfl
  refine follows_get ?_
  rintro s _ rfl
  refine .ite (fun _ => ?_) fun _ => follows_pure trivial
  refine Follows.bind (P := fun _ => True) (Follows.loop (I := fun _ => True)
    (fun j _ => ?_) trivial) fun _ _ => ?_
  · refine follows_get ?_
    rintro s _ rfl
    refine .ite (fun _ => ?_) fun _ => follows_pure trivial
    refine Follows.bind (P := fun _ => True) (unheard_modify fun _ => rfl) fun _ _ => ?_
    exact follows_pure trivial
  · refine Follows.bind (P := fun _ => True) (unheard_modify fun _ => rfl) fun _ _ => ?_
    exact follows_pure trivial

theorem panic_unheard (msg : String) : Unheard more (panic (literal msg)) := by
  have h := unheard_simulates more
  refine follows_get ?_
  rintro s _ rfl
  refine .ite (fun _ => ?_) fun _ => follows_stop _
  refine (consoleClear_unheard _).bind fun _ _ => ?_
  refine (h.consolePutString (literal_outside _ .ram) 0).bind fun _ _ => ?_
  exact (h.consolePutString (literal_outside _ .ram) _).bind fun _ _ => follows_stop _

theorem stringeq_unheard (a b : Pointer) : Unheard more (stringeq a b) := by
  refine Follows.loop (I := fun _ => True) ?_ trivial
  rintro ⟨a, b⟩ -
  refine Follows.bind (P := fun _ => True) ?_ fun on _ => .ite (fun _ => ?_) fun _ => ?_
  · refine (unheard_load a).bind fun c _ => .ite (fun _ => follows_pure trivial) fun _ => ?_
    exact (unheard_load b).bind fun c _ => follows_pure trivial
  · refine (unheard_load a).bind fun x _ => (unheard_load b).bind fun y _ => ?_
    exact .ite (fun _ => follows_pure trivial) fun _ => follows_pure trivial
  · exact follows_pure trivial

theorem dispatch_unheard : Unheard more dispatch := by
  have h := unheard_simulates more
  refine (unheard_load _).bind fun c _ => .ite (fun _ => follows_pure trivial) fun _ => ?_
  refine (stringeq_unheard _ _).bind fun _ _ => .ite (fun _ => ?_) fun _ => ?_
  · exact (h.printf_numbers _ []).bind fun _ _ => follows_stop _
  refine (stringeq_unheard _ _).bind fun _ _ => .ite (fun _ => ?_) fun _ => ?_
  · exact (h.printf_numbers _ []).bind fun _ _ => follows_pure trivial
  refine (stringeq_unheard _ _).bind fun _ _ => .ite (fun _ => consoleClear_unheard 0) fun _ => ?_
  refine (stringeq_unheard _ _).bind fun _ _ => .ite (fun _ => h.dumppage) fun _ => ?_
  refine (h.consolePutString (literal_outside _ .ram) 0xff0000).bind fun _ _ => ?_
  refine (h.consolePutString input_outsideRam 0xff0000).bind fun _ _ => ?_
  exact h.consolePutString (literal_outside _ .ram) 0xff0000

theorem promptLoop_unheard : Unheard more promptLoop := by
  have h := unheard_simulates more
  refine Follows.loop (I := fun _ => True) (fun _ _ => ?_) trivial
  refine (h.printf_numbers _ []).bind fun _ _ => ?_
  refine (h.consoleInputCharacters input_notRam 256 0xffff00 true).bind fun _ _ => ?_
  refine (h.printf_numbers _ []).bind fun _ _ => (h.note _).bind fun _ _ => ?_
  exact dispatch_unheard.bind fun _ _ => follows_pure trivial

theorem initInterrupts_unheard (handlers : ExceptionHandlers) (idt : Location) :
    Unheard more (initInterrupts handlers idt) := by
  have hentry : ∀ v d, Unheard more (setEntry idt v d) := fun _ _ => unheard_modify fun _ => rfl
  refine follows_get ?_
  rintro s _ rfl
  refine Follows.bind (P := fun _ => True) ?_ fun _ _ => unheard_modify fun _ => rfl
  refine (hentry 0 _).bind fun _ _ => (hentry 3 _).bind fun _ _ => ?_
  refine (hentry 8 _).bind fun _ _ => (hentry 13 _).bind fun _ _ => ?_
  exact hentry 14 _

theorem kernelMain_unheard (k : MemmapConstants) (boot : BootResponses) :
    Unheard more (kernelMain k boot) := by
  have h := unheard_simulates more
  obtain ⟨framebuffers, memmap, hhdm⟩ := boot
  refine (h.printf_numbers _ []).bind fun _ _ => ?_
  rcases framebuffers with _ | _ | ⟨framebuffer, rest⟩
  · exact follows_stop _
  · exact follows_stop _
  cases hhdm with
  | none => exact follows_stop _
  | some offset =>
      refine (h.printf_numbers _ [framebuffer.address]).bind fun _ _ => ?_
      refine (h.printf_numbers _ [offset]).bind fun _ _ => ?_
      refine (h.printf_numbers _ []).bind fun _ _ => ?_
      cases memmap with
      | none => exact panic_unheard _
      | some entries =>
          refine (h.memmapLoop k ⟨offset⟩ entries).bind fun _ _ => ?_
          exact (h.printf_numbers _ []).bind fun _ _ => promptLoop_unheard

theorem start_unheard (k : MemmapConstants) (handlers : ExceptionHandlers)
    (boot : BootResponses) : Unheard more (start k handlers boot) := by
  obtain ⟨framebuffers, memmap, hhdm⟩ := boot
  rcases framebuffers with _ | _ | ⟨framebuffer, rest⟩
  · exact panic_unheard _
  · exact panic_unheard _
  refine Follows.bind (P := fun _ => True) (unheard_modify fun _ => rfl) fun _ _ => ?_
  refine Follows.bind (P := fun _ => True) (unheard_modify fun _ => rfl) fun _ _ => ?_
  have hrest : Unheard more (initInterrupts handlers ⟨.idt, 0⟩ >>= fun _ =>
      kernelMain k ⟨some (framebuffer :: rest), memmap, hhdm⟩ >>= fun _ => exit) :=
    (initInterrupts_unheard handlers _).bind fun _ _ =>
      (kernelMain_unheard k _).bind fun _ _ => follows_stop _
  exact .ite (fun _ => (panic_unheard _).bind fun _ _ => hrest) fun _ => hrest

end Unheard
end BenchOS
