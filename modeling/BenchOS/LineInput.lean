import BenchOS.Printing
import BenchOS.Reader

/-!
Lines of input. What a call of `consoleInputCharacter` returns with depends on the
samples only through the characters still to be delivered, so from here on the
keyboard is the list `typed`, and `consoleInputCharacters` takes a line from it.
-/
namespace BenchOS

/-- The characters of the calls that return. -/
def Ear.typed : Ear → List UInt8 → List UInt8
  | _, [] => []
  | .polling, w :: l =>
    if w < 59 then (Ear.releasing w).typed l else Ear.polling.typed l
  | .releasing v, w :: l =>
    if w = v then (Ear.releasing v).typed l else keyChar v :: Ear.polling.typed l

def Machine.typed (s : Machine) : List UInt8 := Ear.polling.typed (s.samples 0x60)

/-- The screen has been sent `out`; the lines handled and the colour are as before. -/
structure Shows (s s' : Machine) (out : List Glyph) : Prop where
  screen : s'.screen = s.screen ++ out
  handled : s'.handled = s.handled
  globalFg : s'.globalFg = s.globalFg

theorem Shows.trans {s₀ s₁ s₂ : Machine} {a b : List Glyph} (h : Shows s₀ s₁ a)
    (k : Shows s₁ s₂ b) : Shows s₀ s₂ (a ++ b) where
  screen := by rw [k.screen, h.screen, List.append_assoc]
  handled := k.handled.trans h.handled
  globalFg := k.globalFg.trans h.globalFg

theorem Prints.shows {s s' : Machine} {out : List Glyph} (h : Prints s s' out) :
    Shows s s' out := by
  obtain ⟨m, fg, t, hm, rfl⟩ := h
  exact ⟨rfl, rfl, rfl⟩

theorem Prints.typed_eq {s s' : Machine} {out : List Glyph} (h : Prints s s' out) :
    s'.typed = s.typed := by
  obtain ⟨m, fg, t, hm, rfl⟩ := h
  rfl

/-- The scan codes that the calls accept which return. -/
def Ear.codes : Ear → List UInt8 → List UInt8
  | _, [] => []
  | .polling, w :: l =>
    if w < 59 then (Ear.releasing w).codes l else Ear.polling.codes l
  | .releasing v, w :: l =>
    if w = v then (Ear.releasing v).codes l else v :: Ear.polling.codes l

def Machine.codes (s : Machine) : List UInt8 := Ear.polling.codes (s.samples 0x60)

theorem Ear.typed_eq (e : Ear) (l : List UInt8) : e.typed l = (e.codes l).map keyChar := by
  induction l generalizing e with
  | nil => cases e <;> rfl
  | cons w l ih =>
      cases e with
      | polling =>
          rw [Ear.typed, Ear.codes]
          split <;> exact ih _
      | releasing v =>
          rw [Ear.typed, Ear.codes]
          split
          · exact ih _
          · rw [List.map_cons, ih]

theorem Machine.typed_eq (s : Machine) : s.typed = s.codes.map keyChar := Ear.typed_eq _ _

theorem codes_quiet {pre : List UInt8} (hpre : ∀ u ∈ pre, 59 ≤ u) (l : List UInt8) :
    Ear.polling.codes (pre ++ l) = Ear.polling.codes l := by
  induction pre with
  | nil => rfl
  | cons u pre ih =>
      have hu : ¬ u < 59 := by simpa using hpre u (by simp)
      rw [List.cons_append, Ear.codes, if_neg hu, ih fun u' hu' => hpre u' (by simp [hu'])]

theorem codes_held {v : UInt8} {held : List UInt8} (hheld : ∀ u ∈ held, u = v)
    (l : List UInt8) : (Ear.releasing v).codes (held ++ l) = (Ear.releasing v).codes l := by
  induction held with
  | nil => rfl
  | cons u held ih =>
      rw [List.cons_append, Ear.codes, if_pos (hheld u (by simp)),
        ih fun u' hu' => hheld u' (by simp [hu'])]

/-- The character of the key that is still held when the samples end, unless it is NUL: it
has been shown, but the call that took it does not return. -/
def Ear.pending : Ear → List UInt8 → List UInt8
  | .polling, [] => []
  | .releasing v, [] => if keyChar v = 0 then [] else [keyChar v]
  | .polling, w :: l =>
    if w < 59 then (Ear.releasing w).pending l else Ear.polling.pending l
  | .releasing v, w :: l =>
    if w = v then (Ear.releasing v).pending l else Ear.polling.pending l

def Machine.pending (s : Machine) : List UInt8 := Ear.polling.pending (s.samples 0x60)

theorem pending_quiet {pre : List UInt8} (hpre : ∀ u ∈ pre, 59 ≤ u) (l : List UInt8) :
    Ear.polling.pending (pre ++ l) = Ear.polling.pending l := by
  induction pre with
  | nil => rfl
  | cons u pre ih =>
      have hu : ¬ u < 59 := by simpa using hpre u (by simp)
      rw [List.cons_append, Ear.pending, if_neg hu, ih fun u' hu' => hpre u' (by simp [hu'])]

theorem pending_held {v : UInt8} {held : List UInt8} (hheld : ∀ u ∈ held, u = v)
    (l : List UInt8) : (Ear.releasing v).pending (held ++ l) = (Ear.releasing v).pending l := by
  induction held with
  | nil => rfl
  | cons u held ih =>
      rw [List.cons_append, Ear.pending, if_pos (hheld u (by simp)),
        ih fun u' hu' => hheld u' (by simp [hu'])]

/-- Neither the key that stays held nor the indeterminate values to come have changed. -/
structure Unspent (s s' : Machine) : Prop where
  pending : s'.pending = s.pending
  junk : s'.junk = s.junk

theorem Unspent.trans {s₀ s₁ s₂ : Machine} (h : Unspent s₀ s₁) (k : Unspent s₁ s₂) :
    Unspent s₀ s₂ :=
  ⟨k.pending.trans h.pending, k.junk.trans h.junk⟩

theorem Says.unspent {s s' : Machine} {out : List Glyph} (h : Says s s' out) :
    Unspent s s' := by
  obtain ⟨m, dst, t, rfl⟩ := h
  exact ⟨rfl, rfl⟩

theorem Says.typed_eq {s s' : Machine} {out : List Glyph} (h : Says s s' out) :
    s'.typed = s.typed := by
  obtain ⟨m, dst, t, rfl⟩ := h
  rfl

theorem Says.shows {s s' : Machine} {out : List Glyph} (h : Says s s' out) :
    Shows s s' out := by
  obtain ⟨m, dst, t, rfl⟩ := h
  exact ⟨rfl, rfl, rfl⟩

theorem keyChar_echoed {v : UInt8} (hv : v < 59) : keyChar v > 1 ↔ keyChar v ≠ 0 := by
  have all : ∀ n < 59, keyChar (UInt8.ofNat n) > 1 ↔ keyChar (UInt8.ofNat n) ≠ 0 := by decide
  have hlt : v.toNat < 59 := UInt8.lt_iff_toNat_lt.mp hv
  simpa using all v.toNat hlt

def echo (fg : UInt32) (c : UInt8) : List Glyph := if c = 0 then [] else [⟨c, fg⟩]

theorem shown_eq_echo {v : UInt8} (hv : v < 59) (fg : UInt32) :
    (if keyChar v > 1 then [⟨keyChar v, fg⟩] else []) = echo fg (keyChar v) := by
  simp only [keyChar_echoed hv, echo]
  split <;> simp_all

theorem echo_eq_glyphs (fg : UInt32) (c : UInt8) :
    echo fg c = glyphs fg (if c = 0 then [] else [c]) := by
  rw [echo]
  split <;> rfl

/-- A call waits for ever when no further scan code is accepted and released, and
otherwise stores the character of the next one. -/
theorem consoleInputCharacter_code (input : Location) (fg : UInt32) (s : Machine) :
    (s.codes = [] ∧ ∃ s', (consoleInputCharacter input fg).Stops s .waiting s' ∧
      Shows s s' (glyphs fg s.pending)) ∨
    ∃ v s' pre held, v < 59 ∧ s.codes = v :: s'.codes ∧
      (consoleInputCharacter input fg).Returns s () s' ∧ Shows s s' (echo fg (keyChar v)) ∧
      s'.mem = Function.update s.mem input (keyChar v) ∧
      s'.bus = s.bus ++ keyTrace input pre v held ∧ Unspent s s' := by
  rcases consoleInputCharacter_ends input fg s with
    ⟨hquiet, hstop⟩ | ⟨pre, v, after, hl, hpre, hv, hend⟩
  · have hnone := codes_quiet hquiet []
    have hidle := pending_quiet hquiet []
    rw [List.append_nil] at hnone hidle
    refine .inl ⟨hnone, _, hstop, ?_⟩
    rw [Machine.pending, hidle]
    exact ⟨by simp [Machine.taking, Ear.pending], rfl, rfl⟩
  · have hcodes : s.codes = (Ear.releasing v).codes after := by
      rw [Machine.codes, hl, codes_quiet hpre, Ear.codes, if_pos hv]
    have hpending : s.pending = (Ear.releasing v).pending after := by
      rw [Machine.pending, hl, pending_quiet hpre, Ear.pending, if_pos hv]
    have hecho := shown_eq_echo hv fg
    rcases hend with ⟨hheld, hstop⟩ | ⟨held, w, rest, rfl, hheld, hw, hreturn⟩
    · have hnone := codes_held hheld []
      have hidle := pending_held hheld []
      rw [List.append_nil] at hnone hidle
      refine .inl ⟨hcodes.trans hnone, _, hstop, ?_⟩
      rw [hpending, hidle, Ear.pending, ← echo_eq_glyphs, ← hecho]
      exact ⟨rfl, rfl, rfl⟩
    · refine .inr ⟨v, _, pre, held ++ [w], hv, ?_, hreturn, ?_, rfl, key_bus _ _ _ _ _ _ _ _,
        ?_, rfl⟩
      · rw [hcodes, codes_held hheld, Ear.codes, if_neg hw, Machine.codes,
          Machine.taking_samples]
      · rw [← hecho]
        exact ⟨rfl, rfl, rfl⟩
      · rw [hpending, pending_held hheld, Ear.pending, if_neg hw, Machine.pending,
          Machine.taking_samples]

/-- A line of at most `count` characters and what is delivered after it. The buffer may
be full before the line ends. -/
def readLine : Nat → List UInt8 → Option (List UInt8 × List UInt8)
  | 0, d => some ([], d)
  | _ + 1, [] => none
  | n + 1, c :: d =>
    if c = 0 then some ([], d) else (readLine n d).map fun (text, rest) => (c :: text, rest)

/-- A line ends at a NUL, or its first character is the one delivered. -/
theorem readLine_step {n : Nat} {c : UInt8} {d text rest : List UInt8}
    (h : readLine (n + 1) (c :: d) = some (text, rest)) :
    (c = 0 ∧ text = [] ∧ rest = d) ∨
      c ≠ 0 ∧ ∃ tail, text = c :: tail ∧ readLine n d = some (tail, rest) := by
  rw [readLine] at h
  split at h
  · rename_i hc
    cases h
    exact .inl ⟨hc, rfl, rfl⟩
  · rename_i hc
    obtain ⟨⟨tail, r⟩, htail, hcons⟩ := Option.map_eq_some_iff.mp h
    cases hcons
    exact .inr ⟨hc, tail, rfl, htail⟩

theorem readLine_length_le {n : Nat} {d text rest : List UInt8}
    (h : readLine n d = some (text, rest)) : text.length ≤ n := by
  induction n generalizing d text with
  | zero => cases h; exact Nat.le_refl 0
  | succ n ih =>
      cases d with
      | nil => cases h
      | cons c d =>
          obtain ⟨-, rfl, -⟩ | ⟨-, tail, rfl, htail⟩ := readLine_step h
          · exact Nat.zero_le _
          · exact Nat.succ_le_succ (ih htail)

theorem readLine_noNul {n : Nat} {d text rest : List UInt8}
    (h : readLine n d = some (text, rest)) : 0 ∉ text := by
  induction n generalizing d text with
  | zero => cases h; simp
  | succ n ih =>
      cases d with
      | nil => cases h
      | cons c d =>
          obtain ⟨-, rfl, -⟩ | ⟨hc, tail, rfl, htail⟩ := readLine_step h
          · simp
          · simpa [eq_comm, hc] using ih htail

theorem readLine_rest_lt {n : Nat} {d text rest : List UInt8} (hn : 0 < n)
    (h : readLine n d = some (text, rest)) : rest.length < d.length := by
  induction n generalizing d text with
  | zero => exact absurd hn (Nat.lt_irrefl 0)
  | succ n ih =>
      cases d with
      | nil => cases h
      | cons c d =>
          obtain ⟨-, -, rfl⟩ | ⟨-, tail, -, htail⟩ := readLine_step h
          · simp
          · cases Nat.eq_zero_or_pos n with
            | inl hzero =>
                subst hzero
                cases htail
                simp
            | inr hpos => exact Nat.lt_succ_of_lt (ih hpos htail)

/-- A line is what is delivered before the first NUL, or what fills the buffer. -/
theorem readLine_split {n : Nat} {d text rest : List UInt8}
    (h : readLine n d = some (text, rest)) :
    (∃ k, k < n ∧ d[k]? = some 0 ∧ 0 ∉ d.take k ∧ text = d.take k ∧ rest = d.drop (k + 1)) ∨
      (0 ∉ d.take n ∧ n ≤ d.length ∧ text = d.take n ∧ rest = d.drop n) := by
  induction n generalizing d text with
  | zero => cases h; exact .inr (by simp)
  | succ n ih =>
      cases d with
      | nil => cases h
      | cons c d =>
          obtain ⟨rfl, rfl, rfl⟩ | ⟨hc, tail, rfl, htail⟩ := readLine_step h
          · exact .inl ⟨0, by simp⟩
          · have hc' : ¬ 0 = c := fun hzero => hc hzero.symm
            rcases ih htail with ⟨k, hk, hnul, hno, rfl, rfl⟩ | ⟨hno, hlen, rfl, rfl⟩
            · exact .inl ⟨k + 1, by omega, by simpa using hnul, by simpa [hc'] using hno, by simp⟩
            · exact .inr ⟨by simpa [hc'] using hno, by simpa using hlen, by simp⟩

/-- The scan codes that a line of at most `count` characters takes. -/
def lineCodes : Nat → List UInt8 → List UInt8
  | 0, _ => []
  | _ + 1, [] => []
  | n + 1, v :: vs => if keyChar v = 0 then [v] else v :: lineCodes n vs

theorem length_lineCodes_le (n : Nat) (vs : List UInt8) : (lineCodes n vs).length ≤ n := by
  induction n generalizing vs with
  | zero => exact Nat.le_refl 0
  | succ n ih =>
      cases vs with
      | nil => exact Nat.zero_le _
      | cons v vs =>
          rw [lineCodes]
          split
          · simp
          · exact Nat.succ_le_succ (ih vs)

/-- The characters of a line, and its NUL if there was room to see it. -/
theorem lineCodes_chars {n : Nat} {vs text rest : List UInt8}
    (h : readLine n (vs.map keyChar) = some (text, rest)) :
    (lineCodes n vs).map keyChar = text ++ if text.length = n then [] else [0] := by
  induction n generalizing vs text with
  | zero => cases h; rfl
  | succ n ih =>
      cases vs with
      | nil => cases h
      | cons v vs =>
          obtain ⟨hc, rfl, -⟩ | ⟨hc, tail, rfl, htail⟩ := readLine_step h
          · simp [lineCodes, hc]
          · simp [lineCodes, hc, ih htail]

theorem echo_line {text : List UInt8} (hno : 0 ∉ text) (fg : UInt32) (p : Prop) [Decidable p] :
    (text ++ if p then [] else [0]).flatMap (echo fg) = glyphs fg text := by
  have hnul : (if p then [] else [0] : List UInt8).flatMap (echo fg) = [] := by
    split <;> rfl
  rw [List.flatMap_append, hnul, List.append_nil]
  induction text with
  | nil => rfl
  | cons c text ih =>
      have hc : c ≠ 0 := fun hzero => hno (by simp [hzero])
      rw [List.flatMap_cons, ih fun h => hno (List.mem_cons_of_mem c h), echo, if_neg hc]
      rfl

/-- From `s` to `s'` the scan codes `vs` have been accepted, their characters stored from
`l` on and shown where they are not NUL. The trace is `t`. -/
structure Takes (fg : UInt32) (l : Location) (s s' : Machine) (vs : List UInt8)
    (t : List BusEvent) : Prop where
  codes : s.codes = vs ++ s'.codes
  shows : Shows s s' ((vs.map keyChar).flatMap (echo fg))
  mem : s'.mem = s.mem.blit l (vs.map keyChar)
  bus : s'.bus = s.bus ++ t
  looks : lookups t = vs.flatMap looksAt
  stores : stored t = vs.map keyChar

theorem takes_nothing (fg : UInt32) (l : Location) (s : Machine) : Takes fg l s s [] [] where
  codes := rfl
  shows := ⟨by simp, rfl, rfl⟩
  mem := (s.mem.blit_nil l).symm
  bus := by simp
  looks := rfl
  stores := rfl

theorem Takes.trans {fg : UInt32} {l : Location} {s₀ s₁ s₂ : Machine} {vs us : List UInt8}
    {t u : List BusEvent} (h : Takes fg l s₀ s₁ vs t)
    (k : Takes fg (l.add vs.length) s₁ s₂ us u) (hlen : vs.length + us.length ≤ 2 ^ 64) :
    Takes fg l s₀ s₂ (vs ++ us) (t ++ u) where
  codes := by rw [h.codes, k.codes, List.append_assoc]
  shows := by
    rw [List.map_append, List.flatMap_append]
    exact h.shows.trans k.shows
  mem := by
    have hblit := s₀.mem.blit_blit l (vs.map keyChar) (us.map keyChar) (by simpa using hlen)
    rw [List.length_map, ← h.mem, ← k.mem, ← List.map_append] at hblit
    exact hblit
  bus := by rw [k.bus, h.bus, List.append_assoc]
  looks := by rw [lookups_append, h.looks, k.looks, List.flatMap_append]
  stores := by rw [stored_append, h.stores, k.stores, List.map_append]

section Line
variable (input : Location) (count : Nat) (fg : UInt32)

/-- A turn waits for ever or takes one scan code, and it goes on unless that is a NUL. -/
theorem inputTurn_takes {i : Nat} (hi : i < count) (s : Machine) :
    (s.codes = [] ∧ ∃ s', (inputTurn input count fg i).Stops s .waiting s' ∧
      Shows s s' (glyphs fg s.pending)) ∨
    ∃ v s' t, Takes fg (input.add i) s s' [v] t ∧ Unspent s s' ∧
      (inputTurn input count fg i).Returns s
        (if keyChar v = 0 then .leave false else .again (i + 1)) s' := by
  rcases consoleInputCharacter_code (input.add i) fg s with
    ⟨hnone, s', hstop, hshows⟩ |
    ⟨v, s₁, pre, held, -, hcodes, hcall, hshows, hmem, hbus, hunspent⟩
  · refine .inl ⟨hnone, s', ?_, hshows⟩
    rw [inputTurn, Over.inputTurn, if_pos hi]
    exact Prog.Ends.bind_stopped _ hstop
  · let e := keyTrace (input.add i) pre v held ++ [.read (.loc (input.add i))]
    have hread := prints_reading s₁ [.loc (input.add i)]
    refine .inr ⟨v, s₁.reading [.loc (input.add i)], e, ?_, hunspent.trans hread.said.unspent, ?_⟩
    · constructor
      · exact hcodes
      · simpa using hshows.trans hread.shows
      · simpa [Mem.blit_singleton] using hmem
      · simp [Machine.reading, hbus, e]
      · rw [lookups_append, lookups_key]
        simp [lookups, BusEvent.lookup]
      · rw [stored_append, stored_key]
        rfl
    · have hchar : s₁.mem.read (.loc (input.add i)) = some (keyChar v) := by
        simp [hmem, Mem.read]
      rw [inputTurn, Over.inputTurn, if_pos hi]
      refine hcall.bind ((load_returns hchar).bind ?_)
      split
      · exact Prog.returns_pure _ _
      · exact Prog.returns_pure _ _

/-- An unfinished line is shown, with the key that is still held. -/
theorem input_loop_waits {n i : Nat} (hn : i + n = count) {s : Machine}
    (h : readLine n s.typed = none) :
    ∃ s', (Prog.loop (inputTurn input count fg) i).Stops s .waiting s' ∧
      Shows s s' (glyphs fg (s.typed ++ s.pending)) := by
  induction n generalizing i s with
  | zero => cases h
  | succ n ih =>
      have hi : i < count := by omega
      obtain ⟨hnone, s', hstop, hshows⟩ | ⟨v, s₁, t, htakes, hunspent, hturn⟩ :=
        inputTurn_takes input count fg hi s
      · rw [s.typed_eq, hnone]
        exact ⟨s', Prog.loop_stop hstop, hshows⟩
      · have htyped : s.typed = keyChar v :: s₁.typed := by
          rw [s.typed_eq, htakes.codes, List.map_append, ← s₁.typed_eq, List.map_singleton,
            List.singleton_append]
        rw [htyped, readLine] at h
        split at h
        · cases h
        · rename_i hc
          rw [if_neg hc] at hturn
          obtain ⟨s', hstop, hrest⟩ :=
            ih (i := i + 1) (by omega) (Option.map_eq_none_iff.mp h)
          have hshows := htakes.shows.trans hrest
          rw [List.map_singleton, List.flatMap_singleton, echo, if_neg hc, hunspent.pending,
            List.singleton_append, ← glyphs_cons, ← List.cons_append, ← htyped] at hshows
          exact ⟨s', Prog.loop_again hturn hstop, hshows⟩

/-- The loop takes the scan codes of the line. -/
theorem input_loop (hcount : count < 2 ^ 64) {n i : Nat} (hn : i + n = count) {s : Machine}
    {text rest : List UInt8} (h : readLine n s.typed = some (text, rest)) :
    ∃ s' t, (Prog.loop (inputTurn input count fg) i).Returns s (text.length == n) s' ∧
      s'.typed = rest ∧ Unspent s s' ∧
      Takes fg (input.add i) s s' (lineCodes n s.codes) t := by
  induction n generalizing i s text with
  | zero =>
      cases h
      have hend : ¬ i < count := by omega
      refine ⟨s, [], Prog.loop_leave ?_, rfl, ⟨rfl, rfl⟩, takes_nothing fg _ s⟩
      rw [inputTurn, Over.inputTurn, if_neg hend]
      exact Prog.returns_pure _ _
  | succ n ih =>
      have hi : i < count := by omega
      obtain ⟨hnone, -⟩ | ⟨v, s₁, t, htakes, hunspent, hturn⟩ :=
        inputTurn_takes input count fg hi s
      · rw [s.typed_eq, hnone] at h
        cases h
      · have hcodes : s.codes = v :: s₁.codes := htakes.codes
        rw [s.typed_eq, hcodes, List.map_cons, ← s₁.typed_eq] at h
        obtain ⟨hc, rfl, rfl⟩ | ⟨hc, tail, rfl, htail⟩ := readLine_step h
        · rw [if_pos hc] at hturn
          refine ⟨s₁, t, Prog.loop_leave hturn, rfl, hunspent, ?_⟩
          rw [hcodes, lineCodes, if_pos hc]
          exact htakes
        · rw [if_neg hc] at hturn
          obtain ⟨s', u, hloop, hrest, hmore, hline⟩ := ih (i := i + 1) (by omega) htail
          have hfull : (tail.length == n) = ((keyChar v :: tail).length == n + 1) := by simp
          rw [hfull] at hloop
          refine ⟨s', t ++ u, Prog.loop_again hturn hloop, hrest, hunspent.trans hmore, ?_⟩
          rw [hcodes, lineCodes, if_neg hc]
          rw [← Loc.add_add] at hline
          have hlen := length_lineCodes_le n s₁.codes
          exact htakes.trans hline (by rw [List.length_singleton]; omega)

end Line

/-- `consoleInputCharacters` returns with the line in `input`. With room to see its NUL,
or when told to, it leaves a terminator. -/
theorem consoleInputCharacters_traced (input : Location) (count : Nat) (fg : UInt32)
    (nullTerminate : Bool) (hcount : count < 2 ^ 64) {s : Machine} {text rest : List UInt8}
    (h : readLine count s.typed = some (text, rest)) :
    ∃ s' t, (consoleInputCharacters input count fg nullTerminate).Returns s () s' ∧
      s'.typed = rest ∧ Shows s s' (glyphs fg text) ∧
      s'.mem = s.mem.blit input
        (text ++ if text.length = count ∧ nullTerminate = false then [] else [0]) ∧
      s'.bus = s.bus ++ t ∧ lookups t = (lineCodes count s.codes).flatMap looksAt ∧
      stored t = text ++ if text.length = count ∧ nullTerminate = false then [] else [0] := by
  obtain ⟨s₁, t, hloop, hrest, -, htakes⟩ :=
    input_loop input count fg hcount (Nat.zero_add count) h
  rw [Loc.add_zero] at htakes
  obtain ⟨-, hshows, hmem, hbus, hlooks, hstored⟩ := htakes
  rw [lineCodes_chars (s.typed_eq ▸ h)] at hshows hmem hstored
  rw [echo_line (readLine_noNul h)] at hshows
  by_cases hstore : text.length = count ∧ nullTerminate = true
  · obtain ⟨hfull, hnull⟩ := hstore
    let e : List BusEvent := [.write (input.add count) 0]
    let s₂ : Machine :=
      { s₁ with mem := Function.update s₁.mem (input.add count) 0, bus := s₁.bus ++ e }
    refine ⟨s₂, t ++ e, hloop.bind (.of_forall fun _ => by simp [store, hfull, hnull, s₂, e]),
      hrest, ⟨hshows.screen, hshows.handled, hshows.globalFg⟩, ?_, by simp [s₂, hbus], ?_, ?_⟩
    · have hblit := s.mem.blit_blit input text [0] (by simp; omega)
      rw [Mem.blit_singleton, hfull] at hblit
      simpa [s₂, hmem, hfull, hnull] using hblit
    · rw [lookups_append, hlooks]
      exact List.append_nil _
    · have hlast : stored e = [0] := rfl
      rw [stored_append, hstored, hlast]
      simp [hfull, hnull]
  · have hsame : (if text.length = count then [] else [0] : List UInt8) =
        if text.length = count ∧ nullTerminate = false then [] else [0] := by
      by_cases hfull : text.length = count
      · simp_all
      · simp [hfull]
    rw [hsame] at hmem hstored
    exact ⟨s₁, t, hloop.bind (.of_forall fun _ => by simp [hstore]), hrest, hshows, hmem, hbus,
      hlooks, hstored⟩

theorem consoleInputCharacters_returns (input : Location) (count : Nat) (fg : UInt32)
    (nullTerminate : Bool) (hcount : count < 2 ^ 64) {s : Machine} {text rest : List UInt8}
    (h : readLine count s.typed = some (text, rest)) :
    ∃ s', (consoleInputCharacters input count fg nullTerminate).Returns s () s' ∧
      s'.typed = rest ∧ Shows s s' (glyphs fg text) ∧
      s'.mem = s.mem.blit input
        (text ++ if text.length = count ∧ nullTerminate = false then [] else [0]) := by
  obtain ⟨s', t, hreturn, hrest, hshows, hmem, -⟩ :=
    consoleInputCharacters_traced input count fg nullTerminate hcount h
  exact ⟨s', hreturn, hrest, hshows, hmem⟩

theorem consoleInputCharacters_unspent {input : Location} {count : Nat} {fg : UInt32}
    {nullTerminate : Bool} (hcount : count < 2 ^ 64) {s s' : Machine}
    {text rest : List UInt8} (h : readLine count s.typed = some (text, rest))
    (hreturns : (consoleInputCharacters input count fg nullTerminate).Returns s () s') :
    Unspent s s' := by
  obtain ⟨s₁, t, hloop, -, hunspent, -⟩ :=
    input_loop input count fg hcount (Nat.zero_add count) h
  by_cases hstore : (text.length == count) = true ∧ nullTerminate = true
  · have hmore := store_returns (input.add count) 0 s₁
    cases hreturns.unique (hloop.bind (by rw [if_pos hstore]; exact hmore))
    exact ⟨hunspent.pending, hunspent.junk⟩
  · cases hreturns.unique (hloop.bind (by rw [if_neg hstore]; exact Prog.returns_pure _ _))
    exact hunspent

theorem consoleInputCharacters_waits (input : Location) (count : Nat) (fg : UInt32)
    (nullTerminate : Bool) {s : Machine} (h : readLine count s.typed = none) :
    ∃ s', (consoleInputCharacters input count fg nullTerminate).Stops s .waiting s' ∧
      Shows s s' (glyphs fg (s.typed ++ s.pending)) := by
  obtain ⟨s', hstop, hshows⟩ := input_loop_waits input count fg (Nat.zero_add count) h
  exact ⟨s', Prog.Ends.bind_stopped _ hstop, hshows⟩

theorem consoleInputCharacters_line {input : Location} {count : Nat} {fg : UInt32}
    {nullTerminate : Bool} {s s' : Machine}
    (h : (consoleInputCharacters input count fg nullTerminate).Returns s () s') :
    ∃ text rest, readLine count s.typed = some (text, rest) := by
  cases hline : readLine count s.typed with
  | some line => exact ⟨line.1, line.2, rfl⟩
  | none =>
      obtain ⟨s'', hstop, -⟩ :=
        consoleInputCharacters_waits input count fg nullTerminate hline
      cases h.unique hstop

/-- `consoleInputCharacters` takes the deliveries up to the first NUL among the first
`count`, or `count` of them, stores exactly these, and shows those that are not NUL. When
told to, it leaves a terminated string of at most `count` characters. -/
theorem consoleInputCharacters_exact (input : Location) (count : Nat) (hcount : count < 2 ^ 31)
    (fg : UInt32) (nullTerminate : Bool) {s s' : Machine}
    (h : (consoleInputCharacters input count fg nullTerminate).Returns s () s') :
    ((∃ k, k < count ∧ s.typed[k]? = some 0 ∧ 0 ∉ s.typed.take k ∧
        s'.typed = s.typed.drop (k + 1) ∧
        s'.mem = s.mem.blit input (s.typed.take (k + 1)) ∧
        s'.screen = s.screen ++ glyphs fg (s.typed.take k)) ∨
      (0 ∉ s.typed.take count ∧ count ≤ s.typed.length ∧
        s'.typed = s.typed.drop count ∧
        s'.mem = s.mem.blit input (s.typed.take count ++ if nullTerminate then [0] else []) ∧
        s'.screen = s.screen ++ glyphs fg (s.typed.take count))) ∧
      (nullTerminate = true →
        ∃ text, text.length ≤ count ∧ CString s'.mem (.loc input) text) := by
  obtain ⟨text, rest, hline⟩ := consoleInputCharacters_line h
  obtain ⟨s₁, hreturn, hrest, hshows, hmem⟩ :=
    consoleInputCharacters_returns input count fg nullTerminate (by omega) hline
  cases h.unique hreturn
  have hlen := readLine_length_le hline
  have hno := readLine_noNul hline
  constructor
  · rcases readLine_split hline with ⟨k, hk, hnul, hfirst, rfl, rfl⟩ | ⟨hall, hle, rfl, rfl⟩
    · refine .inl ⟨k, hk, hnul, hfirst, hrest, ?_, hshows.screen⟩
      have hshort : ¬ ((s.typed.take k).length = count ∧ nullTerminate = false) := by
        rintro ⟨hfull, -⟩
        have hat := List.length_take_le k s.typed
        omega
      rw [hmem, if_neg hshort, List.take_add_one, hnul]
      rfl
    · refine .inr ⟨hall, hle, hrest, ?_, hshows.screen⟩
      have hfull : (s.typed.take count).length = count := by simpa using hle
      rw [hmem]
      cases nullTerminate <;> simp [hfull]
  · intro hnull
    refine ⟨text, hlen, ?_⟩
    rw [hmem, if_neg (by simp [hnull])]
    exact cstring_blit s.mem input text hno (by omega)

/-- The key `a` and then Enter, each seen in two samples. -/
def typedA : Machine := { Machine.reset with samples := fun _ => [30, 30, 158, 28, 28, 156] }

theorem consoleInputCharacters_exact_a :
    ∃ s', (consoleInputCharacters ⟨.input, 0⟩ 16 7 true).Returns typedA () s' ∧
      s'.screen = glyphs 7 (bytes "a") := by
  have htyped : typedA.typed = [97, 0] := by decide
  have hline : readLine 16 typedA.typed = some ([97], []) := by decide
  obtain ⟨s', hreturn, -⟩ :=
    consoleInputCharacters_returns ⟨.input, 0⟩ 16 7 true (by decide) hline
  refine ⟨s', hreturn, ?_⟩
  obtain ⟨hcases, -⟩ := consoleInputCharacters_exact ⟨.input, 0⟩ 16 (by decide) 7 true hreturn
  rw [htyped] at hcases
  rcases hcases with ⟨k, hk, hnul, hfirst, -, -, hscreen⟩ | ⟨hall, -⟩
  · obtain rfl : k = 1 := by
      match k, hnul, hfirst with
      | 0, hnul, _ => simp at hnul
      | 1, _, _ => rfl
      | k + 2, hnul, _ => simp at hnul
    exact hscreen
  · exact absurd (by decide) hall

end BenchOS
