import BenchOS.Library.Contracts
import BenchOS.Main
import BenchOS.Printf

/-!
What the functions of the kernel touch: strings are read up to their terminator, the buffers
are written within their length, and only the keyboard's port is read. Each function has a
contract with the accesses it makes, the objects it changes and what it leaves in them.
-/
namespace BenchOS
open Prog

/-- The bytes of the arrays of the source; `ram` is not one. -/
def Object.size : Object → Nat
  | .ram => 0
  | .idt => 4096
  | .numHex => 17
  | .memmapType => 256
  | .input => 257

def MayLoad : Pointer → Prop
  | .loc l => l.obj ≠ .idt ∧ l.off.toNat < l.obj.size
  | .lit text i => i ≤ text.length

def Permitted (fb : LimineFramebuffer) : BusEvent → Prop
  | .read p => MayLoad p
  | .write l _ => l.off.toNat < l.obj.size
  | .write32 l _ => ∃ i j, i < fb.height ∧ j < fb.width ∧ l = ⟨.ram, fb.pixel i j⟩
  | .inb port _ => port = 0x60
  | .outb _ _ => False

/-- From `s` to `s'` every access was permitted. -/
structure Touches (s s' : Machine) : Prop where
  framebuffer : s'.globalFramebuffer = s.globalFramebuffer
  trace : ∃ t, s'.bus = s.bus ++ t ∧ ∀ e ∈ t, Permitted s.globalFramebuffer e

/-- The state of the renderer but for the colour of the next character. -/
def Machine.pen (s : Machine) : SsfnBuf := { s.ssfnDst with fg := 0 }

/-- And outside the objects `W` the memory is the same, and so is the pen when `ram` is none
of them. -/
structure Moves (W : List Object) (s s' : Machine) : Prop extends Touches s s' where
  idtr : s'.idtr = s.idtr
  init : s'.init = s.init
  mem : ∀ l, l.obj ∉ W → s'.mem l = s.mem l
  pen : .ram ∉ W → s'.pen = s.pen

theorem Touches.still {s s' : Machine} (hfb : s'.globalFramebuffer = s.globalFramebuffer)
    (hbus : s'.bus = s.bus) : Touches s s' :=
  ⟨hfb, [], by rw [hbus, List.append_nil], by simp⟩

instance : Std.Refl Touches := ⟨fun _ => .still rfl rfl⟩

instance : IsTrans Machine Touches where
  trans s s₁ s' h k := by
    obtain ⟨t, ht, hper⟩ := h.trace
    obtain ⟨u, hu, kper⟩ := k.trace
    refine ⟨k.framebuffer.trans h.framebuffer, t ++ u, by rw [hu, ht, List.append_assoc], ?_⟩
    rw [h.framebuffer] at kper
    exact List.forall_mem_append.mpr ⟨hper, kper⟩

instance (W : List Object) : Std.Refl (Moves W) :=
  ⟨fun s => ⟨refl_of Touches s, rfl, rfl, fun _ _ => rfl, fun _ => rfl⟩⟩

instance (W : List Object) : IsTrans Machine (Moves W) where
  trans _ _ _ h k := ⟨trans_of Touches h.toTouches k.toTouches, k.idtr.trans h.idtr,
    k.init.trans h.init, fun l hl => (k.mem l hl).trans (h.mem l hl),
    fun hram => (k.pen hram).trans (h.pen hram)⟩

/-- The program never runs into anything C leaves undefined. -/
def Defined (why : Halt) : Prop := why ≠ .undefined

/-- The contract of the kernel's functions. -/
abbrev Tame {α : Type} (W : List Object) (c : Kernel α) (s : Machine)
    (Q : α → Machine → Prop) : Prop :=
  Meets (Moves W) Defined c s Q

/-- Two memories that agree outside the buffer of `printf`. -/
def SameText (m m' : Mem Object) : Prop := ∀ l : Location, l.obj ≠ .numHex → m' l = m l

theorem SameText.refl (m : Mem Object) : SameText m m := fun _ _ => rfl

theorem SameText.trans {m₀ m₁ m₂ : Mem Object} (h : SameText m₀ m₁) (k : SameText m₁ m₂) :
    SameText m₀ m₂ :=
  fun l hl => (k l hl).trans (h l hl)

theorem SameText.of_eq {m₀ m₁ m₂ : Mem Object} (h : SameText m₀ m₁) (heq : m₂ = m₁) :
    SameText m₀ m₂ :=
  heq ▸ h

theorem SameText.update {m m' : Mem Object} (h : SameText m m') {l : Location}
    (hl : l.obj = .numHex) (c : UInt8) : SameText m (Function.update m' l c) := by
  intro l' hl'
  rw [Function.update_of_ne (ne_of_apply_ne Loc.obj (hl ▸ hl'))]
  exact h l' hl'

/-- A string that may be read to its end. -/
structure Text (m : Mem Object) (p : Pointer) (text : List UInt8) : Prop where
  string : CString m p text
  inside : ∀ i, i ≤ text.length → MayLoad (p.add i)

/-- A string that printing leaves alone. -/
structure Kept (m : Mem Object) (p : Pointer) (text : List UInt8) : Prop extends
    Text m p text where
  outside : Pointer.Outside p .numHex

section Strings
variable {m m' : Mem Object} {p : Pointer} {c : UInt8} {text : List UInt8}

theorem Text.first (h : Text m p text) : MayLoad p := by
  simpa using h.inside 0 (Nat.zero_le _)

theorem Text.tail (h : Text m p (c :: text)) : Text m (p.add 1) text := by
  refine ⟨h.string.2.2, ?_⟩
  intro i hi
  rw [Ptr.add_add]
  exact h.inside (1 + i) (by simp; omega)

theorem Kept.tail (h : Kept m p (c :: text)) : Kept m (p.add 1) text :=
  ⟨h.toText.tail, outside_add h.outside 1⟩

theorem Kept.congr (h : Kept m p text) (same : SameText m m') : Kept m' p text := by
  refine ⟨⟨h.string.congr fun i _ => ?_, h.inside⟩, h.outside⟩
  have hout := outside_add h.outside i
  cases hp : p.add i with
  | loc l =>
      rw [hp] at hout
      exact congrArg some (same l hout)
  | lit text j => rfl

theorem kept_literal (m : Mem Object) (text : String) (h : 0 ∉ bytes text) :
    Kept m (literal text) (bytes text) :=
  ⟨⟨cstring_lit m _ h, fun i hi => by simpa [literal, Ptr.add, MayLoad] using hi⟩, trivial⟩

theorem all_ofList {p : UInt8 → Bool} {l : List Char}
    (h : (l.all fun c => p (UInt8.ofNat c.toNat)) = true) :
    (bytes (String.ofList l)).all p = true := by
  rw [bytes, String.toList_ofList, List.all_map]
  exact h

theorem noNul_ofList {l : List Char} (h : (l.all fun c => UInt8.ofNat c.toNat != 0) = true) :
    0 ∉ bytes (String.ofList l) := by
  intro hzero
  have hne := List.all_eq_true.mp (all_ofList (p := (· != 0)) h) 0 hzero
  cases hne

-- The text is long, and the recursion runs over its characters.
set_option maxRecDepth 4000 in
theorem panicNotice_noNul : 0 ∉ bytes panicNotice := noNul_ofList (by decide +kernel)

/-- A NUL within reach makes a string. -/
theorem cstring_of_nul {n : Nat} {l : Location} (h : m (l.add n) = 0) :
    ∃ text, text.length ≤ n ∧ CString m (.loc l) text := by
  induction n generalizing l with
  | zero => exact ⟨[], Nat.le_refl 0, congrArg some (l.add_zero ▸ h)⟩
  | succ n ih =>
      by_cases hfirst : m l = 0
      · exact ⟨[], Nat.zero_le _, congrArg some hfirst⟩
      · have hrest : m ((l.add 1).add n) = 0 := by rwa [Loc.add_add, Nat.add_comm]
        obtain ⟨text, hlen, htext⟩ := ih hrest
        exact ⟨m l :: text, Nat.succ_le_succ hlen, rfl, hfirst, htext⟩

/-- A NUL in an array makes a string that may be read. -/
theorem text_of_nul {o : Object} (ho : o ≠ .idt) {n : Nat} (hn : n < o.size)
    (h : m (Loc.add ⟨o, 0⟩ n) = 0) : ∃ text, Text m (.loc ⟨o, 0⟩) text := by
  obtain ⟨text, hlen, hstring⟩ := cstring_of_nul h
  refine ⟨text, hstring, ?_⟩
  intro i hi
  refine ⟨ho, ?_⟩
  simp only [Loc.add, UInt64.zero_add, UInt64.toNat_ofNat']
  omega

end Strings

section Steps
variable {W : List Object} {s : Machine}

theorem tame_load {p : Pointer} {c : UInt8} (h : s.mem.read p = some c) (hp : MayLoad p) :
    Tame W (load p) s fun a s' => a = c ∧ s'.mem = s.mem :=
  meets_of_forall (o := .returned c (s.reading [p]))
    (fun n => by simp only [load, h, Machine.reading, List.map_singleton])
    ⟨⟨rfl, [.read p], rfl, List.forall_mem_singleton.mpr hp⟩, rfl, rfl, fun _ _ => rfl,
      fun _ => rfl⟩
    ⟨rfl, rfl⟩

theorem tame_store {l : Location} (hl : l.off.toNat < l.obj.size) (hW : l.obj ∈ W) (c : UInt8) :
    Tame W (store l c) s fun _ s' => s'.mem = Function.update s.mem l c := by
  refine meets_modify
    ⟨⟨rfl, [.write l c], rfl, List.forall_mem_singleton.mpr hl⟩, rfl, rfl, ?_, fun _ => rfl⟩ rfl
  intro l' hl'
  exact Function.update_of_ne (ne_of_apply_ne Loc.obj (ne_of_mem_of_not_mem hW hl').symm) _ _

/-- A step that touches neither the memory nor a port. -/
theorem tame_modify {f : Machine → Machine} {Q : Unit → Machine → Prop}
    (same : (f s).globalFramebuffer = s.globalFramebuffer ∧ (f s).idtr = s.idtr ∧
      (f s).init = s.init ∧ (f s).mem = s.mem ∧ (f s).bus = s.bus)
    (pen : .ram ∉ W → (f s).pen = s.pen) (h : Q () (f s)) : Tame W (modify f) s Q := by
  obtain ⟨hfb, hidtr, hinit, hmem, hbus⟩ := same
  exact meets_modify ⟨.still hfb hbus, hidtr, hinit, fun l _ => congrFun hmem l, pen⟩ h

theorem tame_setFg (fg : UInt32) : Tame W (setFg fg) s fun _ s' => s'.mem = s.mem :=
  tame_modify ⟨rfl, rfl, rfl, rfl, rfl⟩ (fun _ => rfl) rfl

theorem tame_ssfnPutc (c : UInt8) : Tame W (ssfnPutc c) s fun _ s' => s'.mem = s.mem :=
  tame_modify ⟨rfl, rfl, rfl, rfl, rfl⟩ (fun _ => rfl) rfl

theorem consolePutCharacter_tame {p : Pointer} {c : UInt8} (fg : UInt32)
    (h : s.mem.read p = some c) (hp : MayLoad p) :
    Tame W (consolePutCharacter p fg) s fun _ s' => s'.mem = s.mem := by
  refine (tame_setFg fg).bind fun _ s₁ _ h₁ => ?_
  refine (tame_load (h₁ ▸ h) hp).bind fun c' s₂ _ h₂ => ?_
  exact (tame_ssfnPutc c').post fun _ s₃ _ h₃ => h₃.trans (h₂.2.trans h₁)

theorem consolePutString_tame {p : Pointer} {text : List UInt8} (fg : UInt32)
    (h : Text s.mem p text) :
    Tame W (consolePutString p fg) s fun _ s' => s'.mem = s.mem := by
  refine (tame_setFg fg).bind fun _ s₁ _ h₁ => ?_
  refine Meets.loop (I := fun p s' => s'.mem = s.mem ∧ ∃ text, Text s.mem p text) ?_
    ⟨h₁, text, h⟩
  rintro p s₂ ⟨h₂, text, htext⟩
  cases text with
  | nil =>
      have hread : s₂.mem.read p = some 0 := h₂ ▸ htext.string
      refine (tame_load hread htext.first).bind fun c s₃ _ h₃ => ?_
      rw [if_neg (by simp [h₃.1])]
      exact meets_pure (h₃.2.trans h₂)
  | cons c text =>
      obtain ⟨hread, hc, -⟩ := htext.string
      have hread₂ : s₂.mem.read p = some c := h₂ ▸ hread
      refine (tame_load hread₂ htext.first).bind fun c' s₃ _ h₃ => ?_
      have hread₃ : s₃.mem.read p = some c := h₃.2 ▸ hread₂
      rw [if_pos (h₃.1 ▸ hc)]
      refine (tame_load hread₃ htext.first).bind fun c'' s₄ _ h₄ => ?_
      refine (tame_ssfnPutc c'').bind fun _ s₅ _ h₅ => meets_pure ⟨?_, text, htext.tail⟩
      exact h₅.trans (h₄.2.trans (h₃.2.trans h₂))

/-- The value has at most six bits, and that of zero is zero. -/
theorem log2_tame (num : UInt64) :
    Tame W (log2 num) s fun bits s' =>
      s'.mem = s.mem ∧ bits.toNat ≤ 63 ∧ (num = 0 → bits = 0) := by
  -- `val` shifts have left `n` with `64 - val` bits.
  refine Meets.loop (I := fun b s' => s'.mem = s.mem ∧ b.1.toNat ≤ 63 ∧
    b.2.toNat < 2 ^ (64 - b.1.toNat) ∧ (num = 0 → b = (0, 0))) ?_
    ⟨rfl, by simp, UInt64.toNat_lt num, fun h => by rw [h]⟩
  rintro ⟨val, n⟩ s₁ ⟨hmem, hval, hn, hzero⟩
  simp only at hval hn
  rw [log2Turn]
  by_cases hbig : n > 1
  · rw [if_pos hbig]
    have hlt : 1 < n.toNat := UInt64.lt_iff_toNat_lt.mp hbig
    have hroom : val.toNat < 63 := by
      by_contra hfull
      rw [show val.toNat = 63 by omega] at hn
      omega
    have hnext : (val + 1).toNat = val.toNat + 1 := by
      rw [UInt64.toNat_add, UInt64.toNat_one]
      omega
    refine meets_pure ⟨hmem, by simp only [hnext]; omega, ?_, ?_⟩
    · have hpow : 2 ^ (64 - val.toNat) = 2 * 2 ^ (64 - (val.toNat + 1)) := by
        rw [← Nat.pow_succ']
        congr 1
        omega
      have hhalf : (n >>> 1).toNat = n.toNat / 2 := Nat.shiftRight_eq_div_pow _ _
      simp only [hnext, hhalf]
      omega
    · intro h
      cases hzero h
      exact absurd hbig (by decide)
  · rw [if_neg hbig]
    exact meets_pure ⟨hmem, hval, fun h => congrArg Prod.fst (hzero h)⟩

theorem numHex_add {i : Nat} (hi : i < 17) :
    (numHex.add i).off.toNat < (numHex.add i).obj.size := by
  have hoff : (numHex.add i).off = UInt64.ofNat i := by simp [numHex, Loc.add]
  rw [hoff, UInt64.toNat_ofNat']
  show i % 2 ^ 64 < 17
  omega

/-- The digits and the terminator stay in the buffer. -/
theorem writeDigits_tame (hW : .numHex ∈ W) {num : UInt64} {k : Nat}
    (hk : k = 0 ∨ k = 1 ∧ num = 0) :
    Tame W (writeDigits num (numHex.add k)) s fun _ s' =>
      SameText s.mem s'.mem ∧ ∃ i, i ≤ 16 ∧ s'.mem (numHex.add i) = 0 := by
  refine (log2_tame num).bind fun bits s₁ _ ⟨hmem, hbits, hzero⟩ => ?_
  have hlen : k + (bits.toNat + 4) / 4 ≤ 16 := by
    obtain rfl | ⟨rfl, hnum⟩ := hk
    · omega
    · rw [hzero hnum]
      decide
  have hstart : SameText s.mem s₁.mem := fun l _ => congrFun hmem l
  refine Meets.bind (P := fun _ s' => SameText s.mem s'.mem)
    (Meets.loop (I := fun b s' => SameText s.mem s'.mem ∧
      b.1 < (((bits.toNat + 4) / 4 : Nat) : Int)) ?_ ⟨hstart, by simp⟩) ?_
  · rintro ⟨i, num⟩ s₂ ⟨hsame, hi⟩
    simp only at hi
    rw [hexDigitTurn]
    by_cases hmore : i ≥ 0
    · rw [if_pos hmore, Loc.add_add]
      have hin : k + i.toNat < 17 := by omega
      refine (tame_store (numHex_add hin) hW _).bind fun _ s₃ _ h₃ => meets_pure ⟨?_, ?_⟩
      · rw [h₃]
        exact hsame.update rfl _
      · simp only
        omega
    · rw [if_neg hmore]
      exact meets_pure hsame
  · intro _ s₃ _ hsame
    rw [Loc.add_add]
    refine (tame_store (numHex_add (by omega)) hW 0).post fun _ s₄ _ h₄ => ?_
    rw [h₄]
    exact ⟨hsame.update rfl 0, _, hlen, Function.update_self ..⟩

theorem toHexString_tame (hW : .numHex ∈ W) (num : UInt64) :
    Tame W (toHexString num numHex) s fun _ s' =>
      SameText s.mem s'.mem ∧ ∃ i, i ≤ 16 ∧ s'.mem (numHex.add i) = 0 := by
  rw [toHexString]
  have hzero := numHex_add (show 0 < 17 by decide)
  rw [Loc.add_zero] at hzero
  by_cases hnum : num = 0
  · rw [if_pos hnum]
    refine (tame_store hzero hW _).bind fun _ s₁ _ h₁ => ?_
    refine (tame_store (numHex_add (by decide)) hW _).bind fun _ s₂ _ h₂ => ?_
    refine (writeDigits_tame hW (.inr ⟨rfl, hnum⟩)).post fun _ s₃ _ h₃ => ⟨?_, h₃.2⟩
    have hsame := ((SameText.refl s.mem).update (l := numHex) rfl '0'.toUInt8).update
      (l := numHex.add 1) rfl 0
    rw [← h₁, ← h₂] at hsame
    exact hsame.trans h₃.1
  · rw [if_neg hnum]
    have hwrite : Tame W (writeDigits num (numHex.add 0)) s _ := writeDigits_tame hW (.inl rfl)
    rwa [Loc.add_zero] at hwrite

theorem tame_indeterminate : Tame W indeterminate s fun _ s' => s'.mem = s.mem :=
  meets_of_forall (fun _ => rfl)
    ⟨.still rfl rfl, rfl, rfl, fun _ _ => rfl, fun _ => rfl⟩ rfl

theorem strlen_tame {p : Pointer} {text : List UInt8} (h : Text s.mem p text) :
    Tame W (strlen p) s fun _ s' => s'.mem = s.mem := by
  refine Meets.bind (P := fun _ s' => s'.mem = s.mem)
    (Meets.loop (I := fun b s' => s'.mem = s.mem ∧ ∃ text, Text s.mem b.2 text) ?_
      ⟨rfl, text, h⟩) ?_
  · rintro ⟨l, p⟩ s₁ ⟨h₁, text, htext⟩
    cases text with
    | nil =>
        have hread : s₁.mem.read p = some 0 := h₁ ▸ htext.string
        refine (tame_load hread htext.first).bind fun c s₂ _ h₂ => ?_
        rw [if_neg (by simp [h₂.1])]
        exact meets_pure (h₂.2.trans h₁)
    | cons c text =>
        obtain ⟨hread, hc, -⟩ := htext.string
        refine (tame_load (h₁ ▸ hread) htext.first).bind fun c' s₂ _ h₂ => ?_
        rw [if_pos (h₂.1 ▸ hc)]
        exact meets_pure ⟨h₂.2.trans h₁, text, htext.tail⟩
  · intro l s₁ _ h₁
    exact tame_indeterminate.bind fun v s₂ _ h₂ => meets_pure (h₂.trans h₁)

def VaArg.isString : VaArg → Bool
  | .string _ => true
  | .number _ => false

/-- The directives of a format find arguments of their kinds. -/
def serves : List UInt8 → List Bool → Bool
  | [], _ => true
  | c :: f, kinds =>
    if c = percent then
      match f, kinds with
      | [], _ => false
      | d :: f, kinds =>
        match directiveOf d, kinds with
        | .string, true :: kinds => serves f kinds
        | .hex, false :: kinds => serves f kinds
        | .pair _, kinds => serves f kinds
        | _, _ => false
    else serves f kinds

theorem serves_plain {c : UInt8} (h : c ≠ percent) (f : List UInt8) (kinds : List Bool) :
    serves (c :: f) kinds = serves f kinds := by
  cases f with
  | nil => exact if_neg h
  | cons d f => exact if_neg h

theorem serves_percent (c : UInt8) (f : List UInt8) (kinds : List Bool) :
    serves (percent :: c :: f) kinds =
      match directiveOf c, kinds with
      | .string, true :: kinds => serves f kinds
      | .hex, false :: kinds => serves f kinds
      | .pair _, kinds => serves f kinds
      | _, _ => false :=
  if_pos rfl

/-- A format that may be read, with arguments for all of its directives. -/
structure Served (m : Mem Object) (fmt : Pointer) (args : List VaArg) (f : List UInt8) :
    Prop where
  format : Kept m fmt f
  texts : ∀ p, .string p ∈ args → ∃ t, Kept m p t
  serves : serves f (args.map VaArg.isString) = true

theorem Served.congr {m m' : Mem Object} {fmt : Pointer} {args : List VaArg} {f : List UInt8}
    (h : Served m fmt args f) (same : SameText m m') : Served m' fmt args f := by
  refine ⟨h.format.congr same, ?_, h.serves⟩
  intro p hp
  obtain ⟨t, ht⟩ := h.texts p hp
  exact ⟨t, ht.congr same⟩

theorem percent_read (m : Mem Object) : m.read (literal "%") = some percent := rfl

/-- What a turn of `printf` keeps. -/
def PrintfKeeps (m : Mem Object) (b : Pointer × List VaArg) (s : Machine) : Prop :=
  SameText m s.mem ∧ ∃ f, Served s.mem b.1 b.2 f

theorem printfDirective_tame (hW : .numHex ∈ W) {fmt : Pointer} {args : List VaArg} {c : UInt8}
    {f : List UInt8} (hfmt : Kept s.mem fmt (c :: f))
    (htexts : ∀ p, .string p ∈ args → ∃ t, Kept s.mem p t)
    (hserves : serves (percent :: c :: f) (args.map VaArg.isString) = true) (fg : UInt32) :
    Tame W (printfDirective fmt args fg) s
      (Turn.Sat (PrintfKeeps s.mem) fun _ s' => SameText s.mem s'.mem) := by
  rw [serves_percent] at hserves
  have hread := hfmt.string.1
  refine (tame_load hread hfmt.toText.first).bind fun c' s₁ _ hload => ?_
  obtain ⟨rfl, h₁⟩ := hload
  by_cases hs : c' = 's'.toUInt8
  · rw [if_pos hs]
    rw [directiveOf, if_pos hs] at hserves
    cases args with
    | nil => cases hserves
    | cons arg args =>
        cases arg with
        | number n => cases hserves
        | string p =>
            obtain ⟨t, ht⟩ := htexts p List.mem_cons_self
            have hnext : Served s.mem (fmt.add 1) args f :=
              ⟨hfmt.tail, fun q hq => htexts q (List.mem_cons_of_mem _ hq), hserves⟩
            refine Meets.bind (P := fun r s' => r = (p, args) ∧ s'.mem = s.mem)
              (meets_pure ⟨rfl, h₁⟩) ?_
            rintro _ s₂ - ⟨rfl, h₂⟩
            refine (consolePutString_tame fg (h₂ ▸ ht.toText)).bind fun _ s₃ _ h₃ => ?_
            have hmem := h₃.trans h₂
            exact meets_pure ⟨hmem ▸ .refl _, f, hmem ▸ hnext⟩
  · rw [if_neg hs]
    by_cases hx : c' = 'x'.toUInt8
    · rw [if_pos hx]
      rw [directiveOf, if_neg hs, if_pos hx] at hserves
      cases args with
      | nil => cases hserves
      | cons arg args =>
          cases arg with
          | string p => cases hserves
          | number n =>
              have hnext : Served s.mem (fmt.add 1) args f :=
                ⟨hfmt.tail, fun q hq => htexts q (List.mem_cons_of_mem _ hq), hserves⟩
              refine Meets.bind (P := fun r s' => r = (n, args) ∧ s'.mem = s.mem)
                (meets_pure ⟨rfl, h₁⟩) ?_
              rintro _ s₂ - ⟨rfl, h₂⟩
              refine (toHexString_tame hW n).bind fun _ s₃ _ hdigits => ?_
              obtain ⟨hsame, i, hi, hnul⟩ := hdigits
              rw [h₂] at hsame
              obtain ⟨text, htext⟩ :=
                text_of_nul (o := .numHex) (by decide) (Nat.lt_succ_of_le hi) hnul
              refine (consolePutString_tame fg htext).bind fun _ s₄ _ h₄ => ?_
              rw [← h₄] at hsame
              exact meets_pure ⟨hsame, f, hnext.congr hsame⟩
    · rw [if_neg hx]
      rw [directiveOf, if_neg hs, if_neg hx] at hserves
      have hnext : Served s.mem (fmt.add 1) args f := ⟨hfmt.tail, htexts, hserves⟩
      refine (consolePutCharacter_tame fg (percent_read _) (Nat.zero_le _)).bind
        fun _ s₂ _ h₂ => ?_
      have hread₂ : s₂.mem.read fmt = some c' := by rw [h₂, h₁, hread]
      refine (consolePutCharacter_tame fg hread₂ hfmt.toText.first).bind fun _ s₃ _ h₃ => ?_
      have hmem := h₃.trans (h₂.trans h₁)
      exact meets_pure ⟨hmem ▸ .refl _, f, hmem ▸ hnext⟩

theorem printf_tame (hW : .numHex ∈ W) {fmt : Pointer} {args : List VaArg} {f : List UInt8}
    (h : Served s.mem fmt args f) :
    Tame W (printf fmt args) s fun _ s' => SameText s.mem s'.mem := by
  refine Meets.loop (I := PrintfKeeps s.mem) ?_ ⟨.refl _, f, h⟩
  rintro ⟨fmt, args⟩ s₁ ⟨hsame, f, hfmt, htexts, hserves⟩
  cases f with
  | nil =>
      refine (tame_load hfmt.string hfmt.toText.first).bind fun c s₂ _ h₂ => ?_
      rw [if_neg (by simp [h₂.1])]
      exact meets_pure (hsame.of_eq h₂.2)
  | cons c f =>
      obtain ⟨hread, hc, -⟩ := hfmt.string
      have hfirst := hfmt.toText.first
      refine (tame_load hread hfirst).bind fun c' s₂ _ h₂ => ?_
      rw [if_pos (h₂.1 ▸ hc)]
      refine Meets.bind (P := fun _ s' => s'.mem = s₁.mem) (meets_get h₂.2) fun g s₃ _ h₃ => ?_
      refine (tame_load (h₃ ▸ hread) hfirst).bind fun c'' s₄ _ ⟨hc'', h₄⟩ => ?_
      subst hc''
      have hmem := h₄.trans h₃
      by_cases hpercent : c'' = '%'.toUInt8
      · subst hpercent
        rw [if_pos rfl]
        cases f with
        | nil => cases hserves
        | cons d f =>
            have hdirective := printfDirective_tame (s := s₄) hW (hmem ▸ hfmt.tail)
              (hmem ▸ htexts) hserves g.globalFg
            refine hdirective.post fun turn s₅ _ hturn => ?_
            rw [hmem] at hturn
            cases turn with
            | again b => exact ⟨hsame.trans hturn.1, hturn.2⟩
            | leave left => exact hsame.trans hturn
      · rw [if_neg hpercent]
        have hplain : c'' ≠ percent := hpercent
        rw [serves_plain hplain] at hserves
        refine (consolePutCharacter_tame _ (hmem ▸ hread) hfirst).bind fun _ s₅ _ h₅ => ?_
        have hmem' := h₅.trans hmem
        exact meets_pure ⟨hsame.of_eq hmem', f, hmem' ▸ ⟨hfmt.tail, htexts, hserves⟩⟩

/-- A literal whose arguments are all numbers. -/
theorem printf_numbers_tame (hW : .numHex ∈ W) (text : String) (numbers : List UInt64)
    (hno : 0 ∉ bytes text)
    (hserves : serves (bytes text) (numbers.map fun _ => false) = true) :
    Tame W (printf (literal text) (numbers.map .number)) s fun _ s' =>
      SameText s.mem s'.mem := by
  refine printf_tame hW ⟨kept_literal _ _ hno, ?_, ?_⟩
  · intro p hp
    obtain ⟨n, -, hn⟩ := List.mem_map.mp hp
    cases hn
  · rw [List.map_map]
    exact hserves

theorem switchDigit_tame (c : UInt8) : Tame W (switchDigit c) s fun _ s' => s'.mem = s.mem := by
  rw [switchDigit]
  split
  · exact meets_pure rfl
  · exact tame_indeterminate.bind fun _ s₁ _ h₁ => meets_pure h₁

theorem fromHexString_tame (hW : .numHex ∈ W) {p : Pointer} {text : List UInt8}
    (h : Kept s.mem p text) :
    Tame W (fromHexString p) s fun _ s' => SameText s.mem s'.mem := by
  refine (strlen_tame h.toText).bind fun length s₁ _ h₁ => ?_
  have hserves : serves (bytes "\nlength: 0x%x\n") [false] = true := by decide +kernel
  refine (printf_numbers_tame hW _ [length.toUInt64] (by decide) hserves).bind
    fun _ s₂ _ h₂ => ?_
  rw [h₁] at h₂
  refine Meets.loop (I := fun b s' => SameText s.mem s'.mem ∧ ∃ text, Text s'.mem b.2.1 text) ?_
    ⟨h₂, text, (h.congr h₂).toText⟩
  rintro ⟨num, p, length⟩ s₃ ⟨hsame, text, htext⟩
  cases text with
  | nil =>
      refine (tame_load htext.string htext.first).bind fun c s₄ _ h₄ => ?_
      rw [if_neg (by simp [h₄.1])]
      exact meets_pure (hsame.of_eq h₄.2)
  | cons c text =>
      obtain ⟨hread, hc, -⟩ := htext.string
      refine (tame_load hread htext.first).bind fun c' s₄ _ h₄ => ?_
      rw [if_pos (h₄.1 ▸ hc)]
      refine (tame_load (h₄.2 ▸ hread) htext.first).bind fun c'' s₅ _ h₅ => ?_
      refine (switchDigit_tame c'').bind fun digit s₆ _ h₆ => ?_
      have hmem := h₆.trans (h₅.2.trans h₄.2)
      exact meets_pure ⟨hsame.of_eq hmem, text, hmem ▸ htext.tail⟩

theorem portRead_tame : Tame W (portRead 0x60) s fun _ s' => s'.mem = s.mem := by
  cases hsamples : s.samples 0x60 with
  | nil =>
      exact meets_of_forall (o := .stopped .waiting s) (fun _ => by simp only [portRead, hsamples])
        (refl_of (Moves W) s) (show Halt.waiting ≠ .undefined by decide)
  | cons v rest =>
      let s' : Machine :=
        { s with
          samples := Function.update s.samples 0x60 rest
          bus := s.bus ++ [.inb 0x60 v] }
      exact meets_of_forall (o := .returned v s')
        (fun _ => by simp only [portRead, hsamples, s'])
        ⟨⟨rfl, [.inb 0x60 v], rfl, List.forall_mem_singleton.mpr rfl⟩, rfl, rfl, fun _ _ => rfl,
          fun _ => rfl⟩ rfl

theorem pollLoop_tame (scanCode : UInt8) :
    Tame W (loop pollTurn scanCode) s fun v s' => s'.mem = s.mem ∧ v.toNat ≤ 58 := by
  refine Meets.loop (I := fun _ s' => s'.mem = s.mem) ?_ rfl
  intro v s₁ h₁
  rw [pollTurn]
  by_cases hhigh : v ≥ 59
  · rw [if_pos hhigh]
    exact portRead_tame.bind fun v' s₂ _ h₂ => meets_pure (h₂.trans h₁)
  · rw [if_neg hhigh]
    have hlow : v.toNat < 59 := UInt8.lt_iff_toNat_lt.mp (UInt8.not_le.mp hhigh)
    exact meets_pure ⟨h₁, Nat.le_of_lt_succ hlow⟩

theorem releaseLoop_tame (scanCode : UInt8) :
    Tame W (loop (releaseTurn scanCode) ()) s fun _ s' => s'.mem = s.mem := by
  refine Meets.loop (I := fun _ s' => s'.mem = s.mem) ?_ rfl
  intro _ s₁ h₁
  refine portRead_tame.bind fun v s₂ _ h₂ => ?_
  split
  · exact meets_pure (h₂.trans h₁)
  · exact meets_pure (h₂.trans h₁)

/-- The key table has an entry for every code that ends the first wait. -/
theorem lowercase_read (m : Mem Object) {i : Nat} (hi : i ≤ 58) :
    ∃ c, m.read (.lit lowercase i) = some c ∧ MayLoad (.lit lowercase i) := by
  have hlen : lowercase.length = 58 := by decide
  have hin : i < (lowercase ++ [0]).length := by
    rw [List.length_append, hlen]
    exact Nat.lt_succ_of_le hi
  refine ⟨_, List.getElem?_eq_getElem hin, ?_⟩
  rw [MayLoad, hlen]
  exact hi

theorem acceptKey_tame {l : Location} (hl : l.off.toNat < l.obj.size) (hW : l.obj ∈ W)
    (fg : UInt32) {scanCode : UInt8} (hcode : scanCode.toNat ≤ 58) :
    Tame W (acceptKey l fg scanCode) s fun _ s' => ∃ c, s'.mem = Function.update s.mem l c := by
  have htable := fun m : Mem Object => lowercase_read m hcode
  obtain ⟨c₀, hread, hmay⟩ := htable s.mem
  refine (tame_load hread hmay).bind fun c s₁ _ h₁ => ?_
  have hstore : ∀ s₂ : Machine, s₂.mem = s.mem →
      Tame W (load (.lit lowercase scanCode.toNat) >>= store l) s₂ fun _ s' =>
        ∃ c, s'.mem = Function.update s.mem l c := by
    intro s₂ h₂
    refine (tame_load (h₂ ▸ hread) hmay).bind fun c' s₃ _ h₃ => ?_
    refine (tame_store hl hW c').post fun _ s₄ _ h₄ => ⟨c', ?_⟩
    rw [h₄, h₃.2, h₂]
  by_cases hshown : c > 1
  · simp only [if_pos hshown]
    refine (consolePutCharacter_tame fg (h₁.2 ▸ hread) hmay).bind fun _ s₂ _ h₂ => ?_
    exact hstore s₂ (h₂.trans h₁.2)
  · simp only [if_neg hshown]
    exact hstore s₁ h₁.2

theorem consoleInputCharacter_tame {l : Location} (hl : l.off.toNat < l.obj.size)
    (hW : l.obj ∈ W) (fg : UInt32) :
    Tame W (consoleInputCharacter l fg) s fun _ s' =>
      ∃ c, s'.mem = Function.update s.mem l c := by
  refine portRead_tame.bind fun v s₁ _ h₁ => ?_
  refine (pollLoop_tame v).bind fun code s₂ _ ⟨h₂, hcode⟩ => ?_
  refine (acceptKey_tame hl hW fg hcode).bind fun _ s₃ _ ⟨c, h₃⟩ => ?_
  refine (releaseLoop_tame code).post fun _ s₄ _ h₄ => ⟨c, ?_⟩
  rw [h₄, h₃, h₂, h₁]

theorem input_add {i : Nat} (hi : i < 257) :
    (input.add i).off.toNat < (input.add i).obj.size := by
  have hoff : (input.add i).off = UInt64.ofNat i := by simp [input, Loc.add]
  rw [hoff, UInt64.toNat_ofNat']
  show i % 2 ^ 64 < 257
  omega

/-- Whatever is typed, the line that was read ends in its buffer. -/
theorem consoleInputCharacters_tame (hW : .input ∈ W) {count : Nat} (hcount : count ≤ 256)
    (fg : UInt32) :
    Tame W (consoleInputCharacters input count fg true) s fun _ s' =>
      ∃ text, Kept s'.mem (.loc input) text := by
  have hkept : ∀ {m : Mem Object} {i : Nat}, i ≤ 256 → m (input.add i) = 0 →
      ∃ text, Kept m (.loc input) text := by
    intro m i hi hnul
    obtain ⟨text, htext⟩ := text_of_nul (o := .input) (by decide) (Nat.lt_succ_of_le hi) hnul
    exact ⟨text, htext, show Object.input ≠ .numHex by decide⟩
  refine Meets.bind (P := fun full s' => full = false → ∃ text, Kept s'.mem (.loc input) text)
    (Meets.loop (I := fun _ _ => True) ?_ trivial) ?_
  · intro i s₁ _
    rw [Over.inputTurn]
    by_cases hi : i < count
    · rw [if_pos hi]
      have hin := input_add (show i < 257 by omega)
      refine (consoleInputCharacter_tame hin hW fg).bind fun _ s₂ _ ⟨c, h₂⟩ => ?_
      have hmay : MayLoad (.loc (input.add i)) := ⟨show Object.input ≠ .idt by decide, hin⟩
      have hread : s₂.mem.read (.loc (input.add i)) = some (s₂.mem (input.add i)) := rfl
      refine (tame_load hread hmay).bind fun c' s₃ _ h₃ => ?_
      split
      · next hnul =>
          exact meets_pure fun _ => hkept (i := i) (by omega) (by rw [h₃.2, ← h₃.1, hnul])
      · exact meets_pure trivial
    · rw [if_neg hi]
      exact meets_pure fun h => by cases h
  · intro full s₁ _ hleft
    cases full with
    | false =>
        rw [if_neg (by simp)]
        exact meets_pure (hleft rfl)
    | true =>
        rw [if_pos (by simp)]
        refine (tame_store (input_add (Nat.lt_succ_of_le hcount)) hW 0).post fun _ s₂ _ h₂ => ?_
        exact hkept hcount (by rw [h₂, Function.update_self])

end Steps
end BenchOS
