import BenchOS.FromHex
import BenchOS.LineInput

/-!
What the shell is for: a session takes the delivered characters line by line, a
line is one command, and the line after `dumppage` is its address.

`Session` leaves open how a line is taken. Cut at the delivered NULs it says what
the shell should do; with buffers of 256 and 16 characters it is what the shell
does. The two have the same log exactly when every line that is read leaves room
in its buffer for the NUL.
-/
namespace BenchOS

def puts (out : List Glyph) : List ScreenOp := out.map .put

def ScreenOp.glyph : ScreenOp → Option Glyph
  | .put g => some g
  | .clear _ => none

/-- The characters that the screen is sent. -/
def sent (ops : List ScreenOp) : List Glyph := ops.filterMap ScreenOp.glyph

@[simp] theorem puts_append (a b : List Glyph) : puts (a ++ b) = puts a ++ puts b :=
  List.map_append

@[simp] theorem sent_puts (out : List Glyph) : sent (puts out) = out := by
  rw [sent, puts, List.filterMap_map]
  exact List.filterMap_some

@[simp] theorem sent_append (a b : List ScreenOp) : sent (a ++ b) = sent a ++ sent b :=
  List.filterMap_append

abbrev LineReader : Type := List UInt8 → Option (List UInt8 × List UInt8)

/-- A line of any length ends at its NUL. -/
def cutLine : LineReader
  | [] => none
  | c :: d => if c = 0 then some ([], d) else (cutLine d).map fun (text, rest) => (c :: text, rest)

def exitCommand : List UInt8 := bytes "exit"
def helpCommand : List UInt8 := bytes "help"
def clearCommand : List UInt8 := bytes "clear"
def dumppageCommand : List UInt8 := bytes "dumppage"

def prompted (fg : UInt32) (line : List UInt8) : List Glyph :=
  glyphs fg (bytes "> ") ++ glyphs 0xffff00 line ++ glyphs fg (bytes "\n")

/-- What is printed for a line that neither exits nor asks for an address. -/
def response (fg : UInt32) (line : List UInt8) : List Glyph :=
  if line = [] then []
  else if line = helpCommand then glyphs fg (bytes helpText)
  else if line = clearCommand then []
  else glyphs 0xff0000 (bytes "Unknown command: " ++ line ++ bytes "\n")

/-- What a line asks for that neither exits nor asks for an address. -/
def responseOps (fg : UInt32) (line : List UInt8) : List ScreenOp :=
  if line = clearCommand then [.clear 0] else puts (response fg line)

@[simp] theorem sent_responseOps (fg : UInt32) (line : List UInt8) :
    sent (responseOps fg line) = response fg line := by
  rw [responseOps]
  by_cases isClear : line = clearCommand
  · rw [if_pos isClear, isClear, response, if_neg (by decide), if_neg (by decide), if_pos rfl]
    rfl
  · rw [if_neg isClear, sent_puts]

def asked (fg : UInt32) (line : List UInt8) : List Glyph :=
  glyphs fg (bytes "Enter address: ") ++ glyphs 0xffff00 line

def valueNotice (value : UInt64) : List UInt8 :=
  bytes "\n0x" ++ (hexText value.toNat ++ bytes "\n")

/-- What `dumppage` prints for the address `number`: the first indeterminate value is what
`strlen` yields. -/
def dumped (fg : UInt32) (number : List UInt8) (junk : Nat → UInt64) : List Glyph :=
  asked fg number ++ (glyphs fg (lengthNotice (junk 0).toUInt32) ++
    glyphs fg (valueNotice (weigh number (junk 0).toUInt32 (fun i => junk (i + 1)) 0)))

/-- A session over the delivered characters, with the lines handled, what the screen is
asked for and how it ends. `held` is the key that is still held at the end, and `junk` are
the indeterminate values that the decoder of the addresses meets. -/
inductive Session (fg : UInt32) (held : List UInt8) (command address : LineReader) :
    (Nat → UInt64) → List UInt8 → List Handled → List ScreenOp → Halt → Prop where
  | waits {junk : Nat → UInt64} {d : List UInt8} (line : command d = none) :
      Session fg held command address junk d []
        (puts (glyphs fg (bytes "> ") ++ glyphs 0xffff00 (d ++ held))) .waiting
  | exits {junk : Nat → UInt64} {d rest : List UInt8}
      (line : command d = some (exitCommand, rest)) :
      Session fg held command address junk d [.command exitCommand]
        (puts (prompted fg exitCommand ++ glyphs fg (bytes "exiting...\n"))) .halted
  | asks {junk : Nat → UInt64} {d rest : List UInt8}
      (line : command d = some (dumppageCommand, rest)) (next : address rest = none) :
      Session fg held command address junk d [.command dumppageCommand]
        (puts (prompted fg dumppageCommand ++ asked fg (rest ++ held))) .waiting
  | dumps {junk : Nat → UInt64} {d rest number rest' : List UInt8} {log : List Handled}
      {ops : List ScreenOp} {why : Halt} (line : command d = some (dumppageCommand, rest))
      (next : address rest = some (number, rest'))
      (more : Session fg held command address (fun i => junk (i + strays number + 1)) rest' log
        ops why) :
      Session fg held command address junk d
        (.command dumppageCommand :: .address number :: log)
        (puts (prompted fg dumppageCommand ++ dumped fg number junk) ++ ops) why
  | runs {junk : Nat → UInt64} {d text rest : List UInt8} {log : List Handled}
      {ops : List ScreenOp} {why : Halt} (line : command d = some (text, rest))
      (notExit : text ≠ exitCommand) (notDump : text ≠ dumppageCommand)
      (more : Session fg held command address junk rest log ops why) :
      Session fg held command address junk d (.command text :: log)
        (puts (prompted fg text) ++ responseOps fg text ++ ops) why

/-- Every line that is read leaves room for its NUL: at most 255 characters at the
prompt and 15 after `dumppage`. -/
inductive Fits : List UInt8 → Prop where
  | waits {d : List UInt8} (line : cutLine d = none) (short : d.length ≤ 255) : Fits d
  | exits {d rest : List UInt8} (line : cutLine d = some (exitCommand, rest)) : Fits d
  | asks {d rest : List UInt8} (line : cutLine d = some (dumppageCommand, rest))
      (next : cutLine rest = none) (short : rest.length ≤ 15) : Fits d
  | dumps {d rest number rest' : List UInt8} (line : cutLine d = some (dumppageCommand, rest))
      (next : cutLine rest = some (number, rest')) (short : number.length ≤ 15)
      (more : Fits rest') : Fits d
  | runs {d text rest : List UInt8} (line : cutLine d = some (text, rest))
      (notExit : text ≠ exitCommand) (notDump : text ≠ dumppageCommand)
      (short : text.length ≤ 255) (more : Fits rest) : Fits d

theorem cutLine_step {c : UInt8} {d text rest : List UInt8}
    (h : cutLine (c :: d) = some (text, rest)) :
    (c = 0 ∧ text = [] ∧ rest = d) ∨
      c ≠ 0 ∧ ∃ tail, text = c :: tail ∧ cutLine d = some (tail, rest) := by
  rw [cutLine] at h
  split at h
  · rename_i hc
    cases h
    exact .inl ⟨hc, rfl, rfl⟩
  · rename_i hc
    obtain ⟨⟨tail, r⟩, htail, hcons⟩ := Option.map_eq_some_iff.mp h
    cases hcons
    exact .inr ⟨hc, tail, rfl, htail⟩

theorem readLine_of_cut {n : Nat} {d text rest : List UInt8}
    (h : cutLine d = some (text, rest)) (hlen : text.length < n) :
    readLine n d = some (text, rest) := by
  induction d generalizing n text with
  | nil => cases h
  | cons c d ih =>
      obtain ⟨n, rfl⟩ : ∃ k, n = k + 1 := ⟨n - 1, by omega⟩
      rw [readLine]
      obtain ⟨rfl, rfl, rfl⟩ | ⟨hc, tail, rfl, htail⟩ := cutLine_step h
      · rw [if_pos rfl]
      · rw [if_neg hc, ih htail (by simpa using hlen)]
        rfl

theorem readLine_of_short {n : Nat} {d : List UInt8} (h : cutLine d = none)
    (hlen : d.length < n) : readLine n d = none := by
  induction d generalizing n with
  | nil =>
      obtain ⟨n, rfl⟩ : ∃ k, n = k + 1 := ⟨n - 1, by omega⟩
      rfl
  | cons c d ih =>
      obtain ⟨n, rfl⟩ : ∃ k, n = k + 1 := ⟨n - 1, by omega⟩
      rw [cutLine] at h
      rw [readLine]
      split at h
      · cases h
      · rename_i hc
        rw [if_neg hc, ih (Option.map_eq_none_iff.mp h) (by simpa using hlen)]
        rfl

theorem cutLine_eq_some {d text rest : List UInt8} (h : cutLine d = some (text, rest)) :
    d = text ++ 0 :: rest ∧ 0 ∉ text := by
  induction d generalizing text with
  | nil => cases h
  | cons c d ih =>
      obtain ⟨rfl, rfl, rfl⟩ | ⟨hc, tail, rfl, htail⟩ := cutLine_step h
      · exact ⟨rfl, by simp⟩
      · obtain ⟨rfl, hno⟩ := ih htail
        exact ⟨rfl, by simpa [eq_comm, hc] using hno⟩

theorem cutLine_append {text : List UInt8} (h : 0 ∉ text) (rest : List UInt8) :
    cutLine (text ++ 0 :: rest) = some (text, rest) := by
  induction text with
  | nil => rfl
  | cons c text ih =>
      obtain ⟨hc, htext⟩ : 0 ≠ c ∧ 0 ∉ text := by simpa using h
      rw [List.cons_append, cutLine, if_neg hc.symm, ih htext]
      rfl

theorem cutLine_eq_none {d : List UInt8} (h : cutLine d = none) : 0 ∉ d := by
  induction d with
  | nil => simp
  | cons c d ih =>
      rw [cutLine] at h
      split at h
      · cases h
      · rename_i hc
        simpa [eq_comm, hc] using ih (Option.map_eq_none_iff.mp h)

theorem readLine_fills {text : List UInt8} (h : 0 ∉ text) (rest : List UInt8) :
    readLine text.length (text ++ rest) = some (text, rest) := by
  induction text with
  | nil => rfl
  | cons c text ih =>
      obtain ⟨hc, htext⟩ : 0 ≠ c ∧ 0 ∉ text := by simpa using h
      rw [List.length_cons, List.cons_append, readLine, if_neg hc.symm, ih htext]
      rfl

theorem readLine_of_long {n : Nat} {d text rest : List UInt8}
    (h : cutLine d = some (text, rest)) (hlen : n ≤ text.length) :
    readLine n d = some (text.take n, text.drop n ++ 0 :: rest) := by
  obtain ⟨rfl, hno⟩ := cutLine_eq_some h
  have hno' : 0 ∉ text.take n := fun hm => hno (List.mem_of_mem_take hm)
  have hfill := readLine_fills hno' (text.drop n ++ 0 :: rest)
  rwa [List.length_take_of_le hlen, ← List.append_assoc, List.take_append_drop] at hfill

theorem readLine_of_long_tail {n : Nat} {d : List UInt8} (h : cutLine d = none)
    (hlen : n ≤ d.length) : readLine n d = some (d.take n, d.drop n) := by
  have hno := cutLine_eq_none h
  have hno' : 0 ∉ d.take n := fun hm => hno (List.mem_of_mem_take hm)
  have hfill := readLine_fills hno' (d.drop n)
  rwa [List.length_take_of_le hlen, List.take_append_drop] at hfill

section Inversion
variable {fg : UInt32} {held : List UInt8} {command address : LineReader}
  {junk : Nat → UInt64} {d rest : List UInt8} {log : List Handled} {ops : List ScreenOp}
  {why : Halt}

theorem read_unique {reader : LineReader} {a b r r' : List UInt8}
    (h : reader d = some (a, r)) (k : reader d = some (b, r')) : a = b ∧ r = r' := by
  rw [h] at k
  cases k
  exact ⟨rfl, rfl⟩

theorem dumppage_ne_exit : dumppageCommand ≠ exitCommand := by decide

theorem Session.of_none (h : Session fg held command address junk d log ops why)
    (hd : command d = none) :
    log = [] ∧ why = .waiting ∧
      ops = puts (glyphs fg (bytes "> ") ++ glyphs 0xffff00 (d ++ held)) := by
  cases h with
  | waits line => exact ⟨rfl, rfl, rfl⟩
  | exits line | asks line _ | dumps line _ _ | runs line _ _ _ =>
      rw [hd] at line
      cases line

theorem Session.of_exit (h : Session fg held command address junk d log ops why)
    (hd : command d = some (exitCommand, rest)) :
    log = [.command exitCommand] ∧ why = .halted ∧
      ops = puts (prompted fg exitCommand ++ glyphs fg (bytes "exiting...\n")) := by
  cases h with
  | waits line =>
      rw [hd] at line
      cases line
  | exits line => exact ⟨rfl, rfl, rfl⟩
  | asks line _ | dumps line _ _ => exact absurd (read_unique line hd).1 dumppage_ne_exit
  | runs line notExit _ _ => exact absurd (read_unique line hd).1 notExit

theorem Session.of_dump (h : Session fg held command address junk d log ops why)
    (hd : command d = some (dumppageCommand, rest)) :
    (address rest = none ∧ log = [.command dumppageCommand] ∧ why = .waiting ∧
      ops = puts (prompted fg dumppageCommand ++ asked fg (rest ++ held))) ∨
    ∃ number rest' log' ops', address rest = some (number, rest') ∧
      log = .command dumppageCommand :: .address number :: log' ∧
      ops = puts (prompted fg dumppageCommand ++ dumped fg number junk) ++ ops' ∧
      Session fg held command address (fun i => junk (i + strays number + 1)) rest' log' ops'
        why := by
  cases h with
  | waits line =>
      rw [hd] at line
      cases line
  | exits line => exact absurd (read_unique hd line).1 dumppage_ne_exit
  | asks line next =>
      obtain ⟨-, rfl⟩ := read_unique line hd
      exact .inl ⟨next, rfl, rfl, rfl⟩
  | dumps line next more =>
      obtain ⟨-, rfl⟩ := read_unique line hd
      exact .inr ⟨_, _, _, _, next, rfl, rfl, more⟩
  | runs line _ notDump _ => exact absurd (read_unique line hd).1 notDump

theorem Session.of_run {text : List UInt8}
    (h : Session fg held command address junk d log ops why)
    (hd : command d = some (text, rest)) (notExit : text ≠ exitCommand)
    (notDump : text ≠ dumppageCommand) :
    ∃ log' ops', log = .command text :: log' ∧
      ops = puts (prompted fg text) ++ responseOps fg text ++ ops' ∧
      Session fg held command address junk rest log' ops' why := by
  cases h with
  | waits line =>
      rw [hd] at line
      cases line
  | exits line => exact absurd (read_unique hd line).1 notExit
  | asks line _ | dumps line _ _ => exact absurd (read_unique hd line).1 notDump
  | runs line _ _ more =>
      obtain ⟨rfl, rfl⟩ := read_unique line hd
      exact ⟨_, _, rfl, rfl, more⟩

end Inversion

/-- A session through the two buffers of the source. -/
abbrev bufferedSession (fg : UInt32) (held : List UInt8) :=
  Session fg held (readLine 256) (readLine 16)

/-- A session over the lines as they are typed. -/
abbrev wholeSession (fg : UInt32) (held : List UInt8) := Session fg held cutLine cutLine

theorem whole_of_fits {fg : UInt32} {held : List UInt8} {junk : Nat → UInt64} {d : List UInt8}
    (hd : Fits d) {log : List Handled} {ops : List ScreenOp} {why : Halt}
    (h : bufferedSession fg held junk d log ops why) :
    wholeSession fg held junk d log ops why := by
  induction hd generalizing junk log ops with
  | waits line short =>
      obtain ⟨rfl, rfl, rfl⟩ := h.of_none (readLine_of_short line (by omega))
      exact .waits line
  | exits line =>
      obtain ⟨rfl, rfl, rfl⟩ := h.of_exit (readLine_of_cut line (by decide))
      exact .exits line
  | asks line next short =>
      have hnext := readLine_of_short next (show _ < 16 by omega)
      obtain ⟨-, rfl, rfl, rfl⟩ | ⟨_, _, _, _, hread, -⟩ :=
        h.of_dump (readLine_of_cut line (by decide))
      · exact .asks line next
      · rw [hnext] at hread
        cases hread
  | dumps line next short more ih =>
      have hnext := readLine_of_cut next (show _ < 16 by omega)
      obtain ⟨hread, -⟩ | ⟨number, rest', log', ops', hread, rfl, rfl, hmore⟩ :=
        h.of_dump (readLine_of_cut line (by decide))
      · rw [hnext] at hread
        cases hread
      · obtain ⟨rfl, rfl⟩ := read_unique hnext hread
        exact .dumps line next (ih hmore)
  | runs line notExit notDump short more ih =>
      obtain ⟨log', ops', rfl, rfl, hmore⟩ :=
        h.of_run (readLine_of_cut line (by omega)) notExit notDump
      exact .runs line notExit notDump (ih hmore)

/-- A NUL that is left over makes one command more than the lines have. -/
theorem leftover_nul {fg fg' : UInt32} {held held' : List UInt8} {junk junk' : Nat → UInt64}
    {d : List UInt8} {log : List Handled} {ops ops' : List ScreenOp} {why why' : Halt}
    (h : wholeSession fg held junk d log ops why)
    (k : bufferedSession fg' held' junk' (0 :: d) log ops' why') : False := by
  -- The extra command is empty, so the first line is empty too, and both go on alike.
  induction h generalizing ops' with
  | waits line =>
      obtain ⟨_, _, hlog, -⟩ := k.of_run rfl (by decide) (by decide)
      cases hlog
  | exits line | asks line next | dumps line next more _ =>
      obtain ⟨_, _, hlog, -⟩ := k.of_run rfl (by decide) (by decide)
      exact absurd (List.cons.inj hlog).1 (by decide)
  | runs line notExit notDump more ih =>
      obtain ⟨_, _, hlog, -, hmore⟩ := k.of_run rfl (by decide) (by decide)
      cases hlog
      obtain ⟨rfl, -⟩ := cutLine_eq_some line
      exact ih hmore

/-- Only a line that fits is its own first `n` characters with no more to come. -/
theorem drop_of_take {n : Nat} {text : List UInt8} (h : text.take n = text) :
    text.drop n = [] :=
  List.drop_eq_nil_of_le (by rw [← h]; exact List.length_take_le n text)

theorem long_ne {long command : List UInt8} (h : command.length < long.length) :
    long ≠ command :=
  ne_of_apply_ne List.length (Nat.ne_of_gt h)

/-- A log that is right says that every line fitted. -/
theorem fits_of_whole {fg fg' : UInt32} {held held' : List UInt8}
    {junk junk' : Nat → UInt64} {d : List UInt8} {log : List Handled} {ops ops' : List ScreenOp}
    {why why' : Halt} (h : wholeSession fg held junk d log ops why)
    (k : bufferedSession fg' held' junk' d log ops' why') : Fits d := by
  induction h generalizing junk' ops' with
  | waits line =>
      refine .waits line ?_
      by_contra hlong
      cases k with
      | waits line' =>
          rw [readLine_of_long_tail line (by omega)] at line'
          cases line'
  | exits line => exact .exits line
  | asks line next =>
      refine .asks line next ?_
      by_contra hlong
      obtain ⟨hread, -⟩ | ⟨_, _, _, _, -, hlog, -⟩ :=
        k.of_dump (readLine_of_cut line (by decide))
      · rw [readLine_of_long_tail next (by omega)] at hread
        cases hread
      · cases hlog
  | @dumps _ d rest number rest' log ops why line next more ih =>
      obtain ⟨-, hlog, -⟩ | ⟨_, _, _, _, hread, hlog, -, hmore⟩ :=
        k.of_dump (readLine_of_cut line (by decide))
      · cases hlog
      · cases hlog
        by_cases hshort : number.length ≤ 15
        · obtain ⟨-, rfl⟩ := read_unique hread (readLine_of_cut next (by omega))
          exact .dumps line next hshort (ih hmore)
        · obtain ⟨hcut, rfl⟩ := read_unique hread (readLine_of_long next (by omega))
          rw [drop_of_take hcut.symm] at hmore
          exact (leftover_nul more hmore).elim
  | @runs _ d text rest log ops why line notExit notDump more ih =>
      by_cases hshort : text.length ≤ 255
      · obtain ⟨_, _, hlog, -, hmore⟩ :=
          k.of_run (readLine_of_cut line (by omega)) notExit notDump
        cases hlog
        exact .runs line notExit notDump hshort (ih hmore)
      · have hcut := readLine_of_long line (show 256 ≤ text.length by omega)
        have hlen : (text.take 256).length = 256 := List.length_take_of_le (by omega)
        have notExit' : text.take 256 ≠ exitCommand := long_ne (by rw [hlen]; decide)
        have notDump' : text.take 256 ≠ dumppageCommand := long_ne (by rw [hlen]; decide)
        obtain ⟨_, _, hlog, -, hmore⟩ := k.of_run hcut notExit' notDump'
        obtain ⟨hhead, rfl⟩ := List.cons.inj hlog
        rw [drop_of_take (Handled.command.inj hhead).symm] at hmore
        exact (leftover_nul more hmore).elim

end BenchOS
