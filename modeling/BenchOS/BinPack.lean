import BenchOS.Library.Lines

/-!
`tools/binpack.py`: a binary file as the header of a C program. The header is read back as a
compiler reads it: an initializer is its constants between commas, blanks count for nothing,
and a constant that begins with 0 is octal. The array is right. The length that stands behind
it is not that of the array: the script has bound `data` to the text of the initializer by
then.
-/
namespace BenchOS

/-- `str(x)` -/
def str (n : Nat) : List Char := Nat.toDigits 10 n

/-- `", ".join([str(x) for x in data])` -/
def joined (data : List UInt8) : List Char :=
  ", ".toList.intercalate (data.map fun x => str x.toNat)

/-- The text of the header that `bin_pack` writes for a file. -/
def binPack (file : List UInt8) : List Char :=
  let data := joined file
  ("// Generated by /tools/binpack.py\n#pragma once\n".toList ++
    "static const unsigned char data[] = \x7b".toList ++ data ++ "\x7d;\n".toList) ++
    ("static const unsigned int data_len = ".toList ++ str data.length ++ ";\n".toList)

/-- The value of a constant of C. -/
def constantValue (text : List Char) : Nat :=
  Nat.ofDigitChars (if text.head? = some '0' then 8 else 10) text 0

def unblank (text : List Char) : List Char := text.filter (· ≠ ' ')

/-- The array of `unsigned char` that a header declares. -/
def declaredData (header : List Char) : List UInt8 :=
  ((unblank (Lines.upTo '\x7d' (Lines.past '\x7b' header))).splitOn ',').map fun text =>
    UInt8.ofNat (constantValue text)

/-- The `unsigned int` that it declares after the array. -/
def declaredLength (header : List Char) : UInt32 :=
  UInt32.ofNat (constantValue
    (unblank (Lines.upTo ';' (Lines.past '=' (Lines.past '\x7d' header)))))

theorem str_digit {n : Nat} {c : Char} (h : c ∈ str n) : c.isDigit :=
  Nat.isDigit_of_mem_toDigits (by omega) (by omega) h

theorem not_mem_str {c : Char} (hc : c.isDigit = false) (n : Nat) : c ∉ str n := fun h => by
  rw [str_digit h] at hc
  cases hc

theorem unblank_str (n : Nat) : unblank (str n) = str n := by
  refine List.filter_eq_self.mpr fun c hc => ?_
  have hblank : ' ' ∉ str n := not_mem_str (by decide) n
  simpa using ne_of_mem_of_not_mem hc hblank

/-- Only the text of 0 begins with a 0. -/
theorem str_lead (n : Nat) (h : (str n).head? = some '0') : n = 0 := by
  induction n using Nat.strongRecOn with
  | ind n ih =>
      by_cases hn : n < 10
      · have all : ∀ n < 10, n.digitChar = '0' → n = 0 := by decide
        rw [str, Nat.toDigits_of_lt_base hn] at h
        exact all n hn (Option.some.inj h)
      · have hlead : (str (n / 10)).head? = some '0' := by
          rw [str, Nat.toDigits_of_base_le (by omega) (by omega),
            List.head?_append_of_ne_nil _ Nat.toDigits_ne_nil] at h
          exact h
        have hzero := ih (n / 10) (by omega) hlead
        omega

theorem constantValue_str (n : Nat) : constantValue (str n) = n := by
  rw [constantValue]
  split
  · rename_i hlead
    rw [str_lead n hlead]
    rfl
  · exact Nat.ofDigitChars_ten_toDigits

theorem not_mem_joined {c : Char} (hc : c.isDigit = false) (hsep : c ∉ ", ".toList)
    (data : List UInt8) : c ∉ joined data :=
  Lines.not_mem_intercalate hsep fun field hfield => by
    obtain ⟨x, -, rfl⟩ := List.mem_map.mp hfield
    exact not_mem_str hc x.toNat

theorem unblank_joined (data : List UInt8) :
    unblank (joined data) = [','].intercalate (data.map fun x => str x.toNat) := by
  have hsep : unblank ", ".toList = [','] := by decide
  have hfields : (data.map fun x => str x.toNat).map unblank = data.map fun x => str x.toNat := by
    rw [List.map_map]
    exact List.map_congr_left fun x _ => unblank_str x.toNat
  calc
    unblank (joined data) =
        (unblank ", ".toList).intercalate ((data.map fun x => str x.toNat).map unblank) :=
      Lines.filter_intercalate _ _ _
    _ = [','].intercalate (data.map fun x => str x.toNat) := by rw [hsep, hfields]

theorem splitOn_joined {data : List UInt8} (h : data ≠ []) :
    (unblank (joined data)).splitOn ',' = data.map fun x => str x.toNat := by
  rw [unblank_joined]
  refine List.splitOn_intercalate ',' (fun field hfield => ?_) (by simpa using h)
  obtain ⟨x, -, rfl⟩ := List.mem_map.mp hfield
  exact not_mem_str (by decide) x.toNat

/-- The header, cut at its four delimiters. -/
theorem binPack_fields (data : List UInt8) :
    binPack data =
      ("// Generated by /tools/binpack.py\n#pragma once\n".toList ++
          "static const unsigned char data[] = ".toList) ++ '\x7b' ::
        (joined data ++ '\x7d' ::
          (";\nstatic const unsigned int data_len ".toList ++ '=' ::
            (' ' :: str (joined data).length ++ ';' :: ['\n']))) := by
  -- The literals are variables here: `rw` would compare them with each other.
  have hgroup {notice array opened lines count between ends : List Char}
      (hopen : opened = array ++ ['\x7b'])
      (hclose : lines ++ count = '\x7d' :: (between ++ ['=', ' '])) (hend : ends = [';', '\n']) :
      (notice ++ opened ++ joined data ++ lines) ++
          (count ++ str (joined data).length ++ ends) =
        (notice ++ array) ++ '\x7b' :: (joined data ++ '\x7d' ::
          (between ++ '=' :: (' ' :: str (joined data).length ++ ';' :: ['\n']))) := by
    calc
      (notice ++ opened ++ joined data ++ lines) ++
          (count ++ str (joined data).length ++ ends) =
          notice ++ opened ++ joined data ++ (lines ++ count) ++ str (joined data).length ++
            ends := by
        simp only [List.append_assoc]
      _ = _ := by
        rw [hopen, hclose, hend]
        simp only [List.append_assoc, List.cons_append, List.nil_append]
  exact hgroup (by simp) (by simp) (by simp)

theorem str_length_pos (n : Nat) : 0 < (str n).length :=
  List.length_pos_of_ne_nil Nat.toDigits_ne_nil

theorem str_length_eq_one (n : Nat) : (str n).length = 1 ↔ n < 10 := by
  constructor
  · intro h
    by_contra hn
    have hdigits := str_length_pos (n / 10)
    rw [str, Nat.toDigits_of_base_le (by omega) (by omega), List.length_append,
      List.length_singleton] at h
    rw [str] at hdigits
    omega
  · intro hn
    rw [str, Nat.toDigits_of_lt_base hn, List.length_singleton]

theorem joined_cons_cons (x y : UInt8) (data : List UInt8) :
    joined (x :: y :: data) = str x.toNat ++ ", ".toList ++ joined (y :: data) :=
  List.intercalate_cons_cons

/-- Every byte has a digit, and there are two characters between two bytes. -/
theorem length_lt_joined (x y : UInt8) (data : List UInt8) :
    (x :: y :: data).length < (joined (x :: y :: data)).length := by
  have hsep : ", ".toList.length = 2 := rfl
  induction data generalizing x y with
  | nil =>
      have hx := str_length_pos x.toNat
      rw [joined_cons_cons, List.length_append, List.length_append, hsep]
      simp only [List.length_cons, List.length_nil]
      omega
  | cons z data ih =>
      have hrest := ih y z
      rw [joined_cons_cons, List.length_append, List.length_append, hsep, List.length_cons]
      omega

theorem joined_singleton (x : UInt8) : joined [x] = str x.toNat :=
  List.intercalate_singleton

/-- The text has as many characters as the file has bytes only for a single digit. -/
theorem length_joined_iff {data : List UInt8} (h : data ≠ []) :
    (joined data).length = data.length ↔ ∃ x : UInt8, x < 10 ∧ data = [x] := by
  match data with
  | [] => exact absurd rfl h
  | [x] =>
      have hlow : x.toNat < 10 ↔ x < 10 := by
        rw [UInt8.lt_iff_toNat_lt]
        rfl
      rw [joined_singleton, List.length_singleton, str_length_eq_one, hlow]
      simp
  | x :: y :: data =>
      have hlt := length_lt_joined x y data
      exact iff_of_false (by omega) (by simp)

/-- The header of a file that is not empty reads back as its bytes. The length that it
declares is that of the text of the array, and so it is wrong but for a single byte below
ten. -/
theorem binPack_reads_back {data : List UInt8} (h : data ≠ []) :
    declaredData (binPack data) = data ∧
      declaredLength (binPack data) = UInt32.ofNat (joined data).length ∧
      ((joined data).length = data.length ↔ ∃ x : UInt8, x < 10 ∧ data = [x]) := by
  have hopen : '\x7b' ∉ "// Generated by /tools/binpack.py\n#pragma once\n".toList ++
      "static const unsigned char data[] = ".toList := by decide
  have hclose : '\x7d' ∉ joined data := not_mem_joined (by decide) (by decide) data
  refine ⟨?_, ?_, length_joined_iff h⟩
  · rw [declaredData, binPack_fields, Lines.past_field hopen, Lines.upTo_field hclose,
      splitOn_joined h, List.map_map]
    conv_rhs => rw [← List.map_id data]
    refine List.map_congr_left fun x _ => ?_
    rw [Function.comp_apply, constantValue_str]
    exact UInt8.ofNat_toNat
  · have hequals : '=' ∉ ";\nstatic const unsigned int data_len ".toList := by decide
    have hcut : '\x7d' ∉ ("// Generated by /tools/binpack.py\n#pragma once\n".toList ++
        "static const unsigned char data[] = ".toList) ++ '\x7b' :: joined data := by
      have hnotice : '\x7d' ∉ "// Generated by /tools/binpack.py\n#pragma once\n".toList ++
          "static const unsigned char data[] = ".toList := by decide
      rw [List.mem_append, List.mem_cons]
      rintro (hmem | hmem | hmem)
      · exact hnotice hmem
      · cases hmem
      · exact hclose hmem
    have hlength : ';' ∉ ' ' :: str (joined data).length := by
      simpa using not_mem_str (by decide) (joined data).length
    have hblank : unblank (' ' :: str (joined data).length) = str (joined data).length :=
      unblank_str (joined data).length
    rw [declaredLength, binPack_fields, ← List.cons_append, ← List.append_assoc,
      Lines.past_field hcut, Lines.past_field hequals, Lines.upTo_field hlength, hblank,
      constantValue_str]

/-- Two bytes, whose text has six characters. -/
theorem binPack_reads_back_two :
    declaredData (binPack [0, 255]) = [0, 255] ∧ declaredLength (binPack [0, 255]) = 6 ∧
      (joined [0, 255]).length ≠ 2 := by
  obtain ⟨hdata, hlength, hsame⟩ := binPack_reads_back (show [(0 : UInt8), 255] ≠ [] by decide)
  have htext : (joined [0, 255]).length = 6 := by decide
  rw [htext] at hlength
  exact ⟨hdata, hlength, by omega⟩

end BenchOS
