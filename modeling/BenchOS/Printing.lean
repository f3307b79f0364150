import BenchOS.HexText

/-!
What the kernel's printing functions send to the screen, and that printing
changes nothing else but the pen colour and the buffer of `printf`.

A pointer is outside an object when it cannot reach it. No pointer into the
buffer of `printf` exists before `printf` runs, so its format and its arguments
are always outside.
-/
namespace BenchOS

def Pointer.Outside : Pointer → Object → Prop
  | .loc l, o => l.obj ≠ o
  | .lit _ _, _ => True

/-- `p` is a string that printing leaves alone. -/
def Holds (m : Mem Object) (p : Pointer) (text : List UInt8) : Prop :=
  CString m p text ∧ Pointer.Outside p .numHex

def glyphs (fg : UInt32) (text : List UInt8) : List Glyph := text.map fun c => ⟨c, fg⟩

/-- From `s` to `s'` the program has sent `out` to the screen and done no more. -/
def Prints (s s' : Machine) (out : List Glyph) : Prop :=
  ∃ m fg t, (∀ l : Location, l.obj ≠ .numHex → m l = s.mem l) ∧
    s' =
      { s with
        mem := m
        ssfnDst := { s.ssfnDst with fg := fg }
        screen := s.screen ++ out
        bus := s.bus ++ t }

/-- From `s` to `s'` the screen has been sent `out`. Besides, only memory, the renderer's
state and the trace have changed. -/
def Says (s s' : Machine) (out : List Glyph) : Prop :=
  ∃ m dst t, s' =
    { s with mem := m, ssfnDst := dst, screen := s.screen ++ out, bus := s.bus ++ t }

/-- `Prints`, and every byte that was read satisfies `P`. -/
structure PrintsFrom (P : Pointer → Prop) (s s' : Machine) (out : List Glyph) : Prop where
  prints : Prints s s' out
  reads : ∃ t, s'.bus = s.bus ++ t ∧ ReadsOnly P t

@[simp] theorem glyphs_nil (fg : UInt32) : glyphs fg [] = [] := rfl

@[simp] theorem glyphs_cons (fg : UInt32) (c : UInt8) (text : List UInt8) :
    glyphs fg (c :: text) = ⟨c, fg⟩ :: glyphs fg text := rfl

@[simp] theorem glyphs_append (fg : UInt32) (a b : List UInt8) :
    glyphs fg (a ++ b) = glyphs fg a ++ glyphs fg b := by
  simp [glyphs]

theorem Prints.refl (s : Machine) : Prints s s [] :=
  ⟨s.mem, s.ssfnDst.fg, [], fun _ _ => rfl, by simp⟩

theorem Prints.trans {s₀ s₁ s₂ : Machine} {a b : List Glyph}
    (h : Prints s₀ s₁ a) (k : Prints s₁ s₂ b) : Prints s₀ s₂ (a ++ b) := by
  obtain ⟨m, fg, t, hm, rfl⟩ := h
  obtain ⟨m', fg', t', hm', rfl⟩ := k
  refine ⟨m', fg', t ++ t', fun l hl => (hm' l hl).trans (hm l hl), ?_⟩
  simp

theorem Says.trans {s₀ s₁ s₂ : Machine} {a b : List Glyph} (h : Says s₀ s₁ a)
    (k : Says s₁ s₂ b) : Says s₀ s₂ (a ++ b) := by
  obtain ⟨m, dst, t, rfl⟩ := h
  obtain ⟨m', dst', t', rfl⟩ := k
  exact ⟨m', dst', t ++ t', by simp⟩

theorem Prints.said {s s' : Machine} {out : List Glyph} (h : Prints s s' out) :
    Says s s' out := by
  obtain ⟨m, fg, t, -, rfl⟩ := h
  exact ⟨m, _, t, rfl⟩

theorem Prints.withJunk {s s' : Machine} {out : List Glyph} (h : Prints s s' out)
    (junk : Nat → UInt64) : Prints (s.withJunk junk) (s'.withJunk junk) out := by
  obtain ⟨m, fg, t, hm, rfl⟩ := h
  exact ⟨m, fg, t, hm, rfl⟩

theorem prints_reading (s : Machine) (ps : List Pointer) : Prints s (s.reading ps) [] :=
  ⟨s.mem, s.ssfnDst.fg, ps.map .read, fun _ _ => rfl, by simp [Machine.reading]⟩

section From
variable {P : Pointer → Prop} {s s₁ s' : Machine} {a b : List Glyph}

theorem PrintsFrom.trans (h : PrintsFrom P s s₁ a) (k : PrintsFrom P s₁ s' b) :
    PrintsFrom P s s' (a ++ b) := by
  obtain ⟨t, ht, hreads⟩ := h.reads
  obtain ⟨u, hu, kreads⟩ := k.reads
  exact ⟨h.prints.trans k.prints, t ++ u, by rw [hu, ht, List.append_assoc],
    hreads.append kreads⟩

theorem printsFrom_reading (s : Machine) {ps : List Pointer} (h : ∀ p ∈ ps, P p) :
    PrintsFrom P s (s.reading ps) [] :=
  ⟨prints_reading s ps, ps.map .read, rfl, by simpa [ReadsOnly] using h⟩

end From

section Frame
variable {s s' : Machine} {out : List Glyph}

theorem Prints.mem_eq (h : Prints s s' out) {l : Location} (hl : l.obj ≠ .numHex) :
    s'.mem l = s.mem l := by
  obtain ⟨m, fg, t, hm, rfl⟩ := h
  exact hm l hl

theorem Prints.screen_eq (h : Prints s s' out) : s'.screen = s.screen ++ out := by
  obtain ⟨m, fg, t, hm, rfl⟩ := h
  rfl

theorem Prints.globalFg_eq (h : Prints s s' out) : s'.globalFg = s.globalFg := by
  obtain ⟨m, fg, t, hm, rfl⟩ := h
  rfl

theorem Says.screen_eq (h : Says s s' out) : s'.screen = s.screen ++ out := by
  obtain ⟨m, dst, t, rfl⟩ := h
  rfl

theorem Says.globalFg_eq (h : Says s s' out) : s'.globalFg = s.globalFg := by
  obtain ⟨m, dst, t, rfl⟩ := h
  rfl

theorem Prints.init_eq (h : Prints s s' out) : s'.init = s.init := by
  obtain ⟨m, fg, t, hm, rfl⟩ := h
  rfl

theorem Prints.junk_eq (h : Prints s s' out) : s'.junk = s.junk := by
  obtain ⟨m, fg, t, hm, rfl⟩ := h
  rfl

theorem Prints.read_eq (h : Prints s s' out) {p : Pointer} (hp : Pointer.Outside p .numHex) :
    s'.mem.read p = s.mem.read p := by
  cases p with
  | loc l => exact congrArg some (h.mem_eq hp)
  | lit text i => rfl

theorem outside_add {p : Pointer} {o : Object} (h : Pointer.Outside p o) (i : Nat) :
    Pointer.Outside (p.add i) o := by
  cases p with
  | loc l => exact h
  | lit text j => trivial

theorem Prints.holds (h : Prints s s' out) {p : Pointer} {text : List UInt8}
    (hp : Holds s.mem p text) : Holds s'.mem p text :=
  ⟨hp.1.congr fun i _ => h.read_eq (outside_add hp.2 i), hp.2⟩

end Frame

theorem holds_literal (m : Mem Object) (text : String) (h : 0 ∉ bytes text) :
    Holds m (literal text) (bytes text) :=
  ⟨cstring_lit m _ h, trivial⟩

theorem Holds.tail {m : Mem Object} {p : Pointer} {c : UInt8} {text : List UInt8}
    (h : Holds m p (c :: text)) : Holds m (p.add 1) text :=
  ⟨h.1.2.2, outside_add h.2 1⟩

theorem consolePutCharacter_returns {p : Pointer} {c : UInt8} {s : Machine} (fg : UInt32)
    (h : s.mem.read p = some c) :
    (consolePutCharacter p fg).Returns s ()
      { s with
        ssfnDst := { s.ssfnDst with fg := fg }
        screen := s.screen ++ [⟨c, fg⟩]
        bus := s.bus ++ [.read p] } :=
  .of_forall fun _ => by
    simp [consolePutCharacter, Over.consolePutCharacter, setFg, ssfnPutc, load, h]

section Reads
variable {P : Pointer → Prop} {p : Pointer} {s : Machine}

theorem consolePutCharacter_prints {c : UInt8} (fg : UInt32) (h : s.mem.read p = some c)
    (hP : P p) :
    ∃ s', (consolePutCharacter p fg).Returns s () s' ∧ PrintsFrom P s s' [⟨c, fg⟩] :=
  ⟨_, consolePutCharacter_returns fg h, ⟨s.mem, fg, [.read p], fun _ _ => rfl, rfl⟩, [.read p],
    rfl, by simpa [ReadsOnly] using hP⟩

theorem putString_loop {text : List UInt8} (h : CString s.mem p text)
    (hP : ∀ i, i ≤ text.length → P (p.add i)) :
    ∃ s', (Prog.loop putStringTurn p).Returns s () s' ∧
      PrintsFrom P s s' (glyphs s.ssfnDst.fg text) := by
  have hfirst : P p := by simpa using hP 0 (Nat.zero_le _)
  induction text generalizing p s with
  | nil =>
      have hread : s.mem.read p = some 0 := h
      refine ⟨s.reading [p], Prog.loop_leave ?_, printsFrom_reading s (by simpa using hfirst)⟩
      exact .of_forall fun _ => by
        simp [putStringTurn, Over.putStringTurn, load, hread, Machine.reading]
  | cons c text ih =>
      obtain ⟨hread, hc, htail⟩ := h
      let s₁ : Machine :=
        { s with
          screen := s.screen ++ [⟨c, s.ssfnDst.fg⟩]
          bus := s.bus ++ [.read p, .read p] }
      have hturn : (putStringTurn p).Returns s (.again (p.add 1)) s₁ :=
        .of_forall fun _ => by
          simp [putStringTurn, Over.putStringTurn, load, ssfnPutc, hread, hc, s₁]
      have hone : PrintsFrom P s s₁ [⟨c, s.ssfnDst.fg⟩] :=
        ⟨⟨s.mem, s.ssfnDst.fg, [.read p, .read p], fun _ _ => rfl, rfl⟩, [.read p, .read p], rfl,
          by simpa [ReadsOnly] using hfirst⟩
      have hnext : ∀ i, i ≤ text.length → P ((p.add 1).add i) := by
        intro i hi
        rw [Ptr.add_add]
        exact hP (1 + i) (by simp; omega)
      obtain ⟨s', hrest, hprints⟩ := ih (p := p.add 1) (s := s₁) htail hnext
        (by simpa using hnext 0 (Nat.zero_le _))
      exact ⟨s', Prog.loop_again hturn hrest, hone.trans hprints⟩

theorem consolePutString_reads {text : List UInt8} (fg : UInt32) (h : CString s.mem p text)
    (hP : ∀ i, i ≤ text.length → P (p.add i)) :
    ∃ s', (consolePutString p fg).Returns s () s' ∧ PrintsFrom P s s' (glyphs fg text) := by
  let s₁ : Machine := { s with ssfnDst := { s.ssfnDst with fg := fg } }
  have hset : PrintsFrom P s s₁ [] :=
    ⟨⟨s.mem, fg, [], fun _ _ => rfl, by simp [s₁]⟩, [], by simp [s₁], by simp [ReadsOnly]⟩
  obtain ⟨s', hloop, hprints⟩ := putString_loop (s := s₁) h hP
  have hfirst : (setFg fg).Returns s () s₁ := Prog.returns_modify _ s
  exact ⟨s', hfirst.bind hloop, hset.trans hprints⟩

theorem consolePutString_prints {text : List UInt8} (fg : UInt32) (h : CString s.mem p text) :
    ∃ s', (consolePutString p fg).Returns s () s' ∧ Prints s s' (glyphs fg text) := by
  obtain ⟨s', hput, hp⟩ :=
    consolePutString_reads (P := fun _ => True) fg h fun _ _ => trivial
  exact ⟨s', hput, hp.prints⟩

end Reads
end BenchOS
