import BenchOS.Machine

/-!
`interrupts/hardware`: the port instructions, the interrupt controllers behind
the ports 0x20, 0x21, 0xa0 and 0xa1, and the function that sets them up.

A controller takes 0x11 on its command port as the start of an initialisation and
then three words on its data port; at any other time a data byte is the mask.
-/
namespace BenchOS

def Pic.command (pic : Pic) (value : UInt8) : Pic :=
  if value = 0x11 then { pic with phase := .wantsBase, mask := 0 } else pic

def Pic.data (pic : Pic) (value : UInt8) : Pic :=
  match pic.phase with
  | .wantsBase => { pic with phase := .wantsCascade, base := value }
  | .wantsCascade => { pic with phase := .wantsMode, cascade := value }
  | .wantsMode => { pic with phase := .ready, mode := value }
  | .ready => { pic with mask := value }

/-- The machine after `value` has gone out on `port`. -/
def Machine.out (s : Machine) (port : UInt16) (value : UInt8) : Machine :=
  { s with
    pic1 := if port = 0x20 then s.pic1.command value
      else if port = 0x21 then s.pic1.data value else s.pic1
    pic2 := if port = 0xa0 then s.pic2.command value
      else if port = 0xa1 then s.pic2.data value else s.pic2
    bus := s.bus ++ [.outb port value] }

def portWrite (port : UInt16) (value : UInt8) : Kernel Unit :=
  Prog.modify fun s => s.out port value

/-- A read takes the next sample of the port; without one the processor waits. -/
def portRead (port : UInt16) : Kernel UInt8 := fun _ s =>
  match s.samples port with
  | [] => some (.stopped .waiting s)
  | v :: rest => some (.returned v
      { s with
        samples := Function.update s.samples port rest
        bus := s.bus ++ [.inb port v] })

def cmdInit : UInt8 := 0x11
def mode8086 : UInt8 := 0x01
def pic1Command : UInt16 := 0x20
def pic1Data : UInt16 := 0x21
def pic2Command : UInt16 := 0xa0
def pic2Data : UInt16 := 0xa1

def wait : Kernel Unit := portWrite 0x80 0

def picInitialise : Kernel Unit := do
  portWrite pic1Command cmdInit
  wait
  portWrite pic2Command cmdInit
  wait
  portWrite pic1Data 0x20
  wait
  portWrite pic2Data 0x28
  wait
  portWrite pic1Data 4
  wait
  portWrite pic2Data 2
  wait
  portWrite pic1Data mode8086
  wait
  portWrite pic1Data mode8086 -- the source names the first controller here too
  wait
  portWrite pic1Data 0xfd
  wait
  portWrite pic2Data 0xff
  wait

/-- Both controllers as `picInitialise` writes them down. -/
def PicsAsIntended (s : Machine) : Prop :=
  s.pic1 = ⟨.ready, 0x20, 4, mode8086, 0xfd⟩ ∧ s.pic2 = ⟨.ready, 0x28, 2, mode8086, 0xff⟩

/-- The second mode word goes to the first controller, which takes it as a mask. The
second controller takes the mask byte as its mode word and is left unmasked. -/
theorem picInitialise_returns (s : Machine) :
    ∃ s', picInitialise.Returns s () s' ∧
      s'.pic1 = ⟨.ready, 0x20, 4, mode8086, 0xfd⟩ ∧ s'.pic2 = ⟨.ready, 0x28, 2, 0xff, 0⟩ :=
  ⟨_, .of_forall fun _ => rfl, rfl, rfl⟩

theorem picInitialise_never_intended (s : Machine) :
    ¬ ∃ s', picInitialise.Returns s () s' ∧ PicsAsIntended s' := by
  rintro ⟨s', hs', -, intended⟩
  obtain ⟨s'', hs'', -, actual⟩ := picInitialise_returns s
  cases hs'.unique hs''
  rw [actual] at intended
  exact absurd intended (by decide)

/-- On a machine whose controllers are idle, the second one ends in mode 0xff with no
interrupt masked. -/
theorem picInitialise_reset :
    ∃ s', picInitialise.Returns Machine.reset () s' ∧ s'.pic2.mode = 0xff ∧
      s'.pic2.mask = 0 ∧ ¬ PicsAsIntended s' := by
  obtain ⟨s', hs', -, h⟩ := picInitialise_returns Machine.reset
  refine ⟨s', hs', by rw [h], by rw [h], ?_⟩
  intro intended
  have bad := intended.2
  rw [h] at bad
  exact absurd bad (by decide)

end BenchOS
