import BenchOS.Library.SparseTable
import BenchOS.Renderer

/-!
The character table of a font as a format. A table is a run of records and gaps, and a gap
may be written in three forms. Whatever forms were chosen, the renderer's walk finds in a
table that reaches to the last code point what was written. A table of records sorted by
code point can be written so, its gaps cut into few entries.
-/
namespace BenchOS
namespace Renderer
open SparseTable

/-- A record of the table: the metrics of a character and the descriptors of its
fragments. -/
structure CharRecord where
  type : UInt8
  n : UInt8
  w : UInt8
  h : UInt8
  x : UInt8
  y : UInt8
  descriptors : List UInt8
  notGap : type &&& 0x80 = 0
  size : descriptors.length = n.toNat * descriptorSize type

def CharRecord.code (r : CharRecord) : List UInt8 :=
  [r.type, r.n, r.w, r.h, r.x, r.y] ++ r.descriptors

/-- The bytes that an item may be written in. A long gap may be as small as a short one. -/
inductive ItemText : Item CharRecord → List UInt8 → Prop where
  | page : ItemText (.gap 65536) [0xFF]
  | short {n : Nat} (below : n < 64) : ItemText (.gap (n + 1)) [0x80 ||| UInt8.ofNat n]
  | long {n : Nat} (below : n < 63) (low : UInt8) :
      ItemText (.gap (n * 256 + low.toNat + 1)) [0xC0 ||| UInt8.ofNat n, low]
  | record (r : CharRecord) : ItemText (.record r) r.code

/-- A table is written item by item. -/
inductive TableText : List (Item CharRecord) → List UInt8 → Prop where
  | nil : TableText [] []
  | cons {item : Item CharRecord} {items : List (Item CharRecord)} {code text : List UInt8}
      (first : ItemText item code) (more : TableText items text) :
      TableText (item :: items) (code ++ text)

/-- The record for a code point in a table; there is none beyond the last of Unicode. -/
def entryFor (items : List (Item CharRecord)) (unicode : UInt32) : Option CharRecord :=
  if unicode.toNat < 0x110000 then seek unicode.toNat items 0 else none

/-- The distances that one entry can skip. -/
def GapFits (n : Nat) : Prop := n = 65536 ∨ 1 ≤ n ∧ n ≤ 16128

def gapCode (n : Nat) : List UInt8 :=
  if n = 65536 then [0xFF]
  else if n ≤ 64 then [0x80 ||| UInt8.ofNat (n - 1)]
  else [0xC0 ||| UInt8.ofNat ((n - 1) / 256), UInt8.ofNat (n - 1)]

def itemCode : Item CharRecord → List UInt8
  | .gap n => gapCode n
  | .record r => r.code

/-- A distance in the fewest entries. -/
def splitGap (n : Nat) : List Nat :=
  if n = 0 then []
  else if 65536 ≤ n then 65536 :: splitGap (n - 65536)
  else if 16128 < n then 16128 :: splitGap (n - 16128)
  else [n]
termination_by n

structure CharTable where
  entries : List (Nat × CharRecord)
  sorted : entries.Pairwise fun a b => a.1 < b.1
  below : ∀ e ∈ entries, e.1 < 0x110000

def CharTable.encode (t : CharTable) : List UInt8 :=
  (pack splitGap 0x110000 0 t.entries).flatMap itemCode

theorem splitGap_sum (n : Nat) : (splitGap n).sum = n := by
  induction n using splitGap.induct with
  | case1 => simp [splitGap]
  | case2 n hpos hbig ih =>
      rw [splitGap, if_neg hpos, if_pos hbig, List.sum_cons, ih]
      omega
  | case3 n hpos hbig hmid ih =>
      rw [splitGap, if_neg hpos, if_neg hbig, if_pos hmid, List.sum_cons, ih]
      omega
  | case4 n hpos hbig hmid => simp [splitGap, hpos, hbig, hmid]

theorem splitGap_fits (n : Nat) : ∀ g ∈ splitGap n, GapFits g := by
  induction n using splitGap.induct with
  | case1 => simp [splitGap]
  | case2 n hpos hbig ih =>
      rw [splitGap, if_neg hpos, if_pos hbig]
      exact List.forall_mem_cons.mpr ⟨.inl rfl, ih⟩
  | case3 n hpos hbig hmid ih =>
      rw [splitGap, if_neg hpos, if_neg hbig, if_pos hmid]
      exact List.forall_mem_cons.mpr ⟨.inr (by omega), ih⟩
  | case4 n hpos hbig hmid =>
      rw [splitGap, if_neg hpos, if_neg hbig, if_neg hmid]
      exact List.forall_mem_singleton.mpr (.inr (by omega))

theorem pack_fits {limit next : Nat} {t : List (Nat × CharRecord)} {g : Nat}
    (h : Item.gap g ∈ pack splitGap limit next t) : GapFits g := by
  induction t generalizing next with
  | nil =>
      obtain ⟨n, hn, heq⟩ := List.mem_map.mp h
      cases heq
      exact splitGap_fits _ g hn
  | cons e t ih =>
      rw [pack, List.mem_append, List.mem_cons] at h
      obtain hgap | hrecord | hrest := h
      · obtain ⟨n, hn, heq⟩ := List.mem_map.mp hgap
        cases heq
        exact splitGap_fits _ g hn
      · cases hrecord
      · exact ih hrest

theorem gapCode_text {n : Nat} (fits : GapFits n) : ItemText (.gap n) (gapCode n) := by
  by_cases hpage : n = 65536
  · subst hpage
    exact .page
  obtain ⟨hpos, hmax⟩ := fits.resolve_left hpage
  obtain ⟨m, rfl⟩ : ∃ m, n = m + 1 := ⟨n - 1, by omega⟩
  rw [gapCode, if_neg hpage, Nat.add_sub_cancel]
  by_cases hshort : m + 1 ≤ 64
  · rw [if_pos hshort]
    exact .short hshort
  · rw [if_neg hshort]
    have hsplit : m = m / 256 * 256 + (UInt8.ofNat m).toNat := by
      rw [UInt8.toNat_ofNat']
      omega
    have hlong := ItemText.long (n := m / 256) (by omega) (UInt8.ofNat m)
    rwa [← hsplit] at hlong

theorem tableText_itemCode {items : List (Item CharRecord)}
    (fits : ∀ g, Item.gap g ∈ items → GapFits g) : TableText items (items.flatMap itemCode) := by
  induction items with
  | nil => exact .nil
  | cons item items ih =>
      refine .cons ?_ (ih fun g hg => fits g (List.mem_cons_of_mem _ hg))
      cases item with
      | gap n => exact gapCode_text (fits n List.mem_cons_self)
      | record r => exact .record r

theorem CharTable.encode_text (t : CharTable) :
    TableText (pack splitGap 0x110000 0 t.entries) t.encode :=
  tableText_itemCode fun _ hg => pack_fits hg

theorem CharTable.encode_span (t : CharTable) :
    span (pack splitGap 0x110000 0 t.entries) = 0x110000 := by
  have hspan := span_pack splitGap_sum t.sorted (fun _ _ => Nat.zero_le _) t.below
    (Nat.zero_le _)
  rwa [Nat.zero_add] at hspan

theorem CharTable.entryFor_encode (t : CharTable) (unicode : UInt32) :
    entryFor (pack splitGap 0x110000 0 t.entries) unicode = t.entries.lookup unicode.toNat := by
  rw [entryFor, seek_pack splitGap_sum t.sorted fun _ _ => Nat.zero_le _]
  split
  · rfl
  · rename_i hbeyond
    refine (List.lookup_eq_none_iff.mpr fun e he => ?_).symm
    have hbelow := t.below e he
    simp only [bne_iff_ne, ne_eq]
    omega

section Walk
variable {font : Font} {ptr : Nat} {bs rest : List UInt8}

theorem byte_of_drop (h : font.drop ptr = bs ++ rest) {k : Nat} (hk : k < bs.length) :
    byte font (ptr + k) = some bs[k] := by
  rw [byte, ← List.getElem?_drop, h, List.getElem?_append_left hk, List.getElem?_eq_getElem hk]

theorem drop_past (h : font.drop ptr = bs ++ rest) : font.drop (ptr + bs.length) = rest := by
  rw [← List.drop_drop, h, List.drop_left]

theorem short_gap {n : Nat} (h : n < 64) :
    0x80 ||| UInt8.ofNat n ≠ 0xFF ∧ (0x80 ||| UInt8.ofNat n) &&& 0xC0 = 0x80 ∧
      ((0x80 ||| UInt8.ofNat n) &&& 0x3F).toNat = n := by
  have all : ∀ n < 64, 0x80 ||| UInt8.ofNat n ≠ 0xFF ∧
      (0x80 ||| UInt8.ofNat n) &&& 0xC0 = 0x80 ∧
      ((0x80 ||| UInt8.ofNat n) &&& 0x3F).toNat = n := by decide
  exact all n h

theorem long_gap {n : Nat} (h : n < 63) :
    0xC0 ||| UInt8.ofNat n ≠ 0xFF ∧ (0xC0 ||| UInt8.ofNat n) &&& 0xC0 = 0xC0 ∧
      ((0xC0 ||| UInt8.ofNat n) &&& 0x3F).toNat = n := by
  have all : ∀ n < 63, 0xC0 ||| UInt8.ofNat n ≠ 0xFF ∧
      (0xC0 ||| UInt8.ofNat n) &&& 0xC0 = 0xC0 ∧
      ((0xC0 ||| UInt8.ofNat n) &&& 0x3F).toNat = n := by decide
  exact all n h

/-- A record is none of the three forms of a gap. -/
theorem record_type {b : UInt8} (h : b &&& 0x80 = 0) :
    b ≠ 0xFF ∧ b &&& 0xC0 ≠ 0xC0 ∧ b &&& 0xC0 ≠ 0x80 := by
  have hmask : ∀ c : UInt8, b &&& 0xC0 = c → c &&& 0x80 = 0 := by
    rintro c rfl
    rw [UInt8.and_assoc]
    exact h
  refine ⟨?_, fun hc => absurd (hmask _ hc) (by decide), fun hc => absurd (hmask _ hc) (by decide)⟩
  rintro rfl
  exact absurd h (by decide)

variable (unicode : UInt32) {i : Nat}

/-- A gap in any of its forms is skipped. -/
theorem findCharacter_gap {n : Nat} {code : List UInt8} (text : ItemText (.gap n) code)
    (h : font.drop ptr = code ++ rest) (hi : i < 0x110000) :
    findCharacter font unicode ptr i =
      findCharacter font unicode (ptr + code.length) (i + n) := by
  rw [findCharacter, dif_pos hi]
  cases text with
  | page =>
      have hb : byte font ptr = some 0xFF := byte_of_drop (k := 0) h (by simp)
      rw [hb, Option.bind_eq_bind, Option.bind_some, if_pos rfl]
      rfl
  | @short n below =>
      have hb : byte font ptr = some (0x80 ||| UInt8.ofNat n) :=
        byte_of_drop (k := 0) h (by simp)
      obtain ⟨hff, hkind, hval⟩ := short_gap below
      have hnotLong : (0x80 ||| UInt8.ofNat n) &&& 0xC0 ≠ 0xC0 := by
        rw [hkind]
        decide
      rw [hb, Option.bind_eq_bind, Option.bind_some, if_neg hff, if_neg hnotLong, if_pos hkind,
        hval]
      rfl
  | @long n below low =>
      have hb : byte font ptr = some (0xC0 ||| UInt8.ofNat n) :=
        byte_of_drop (k := 0) h (by simp)
      have hlow : byte font (ptr + 1) = some low := byte_of_drop (k := 1) h (by simp)
      obtain ⟨hff, hkind, hval⟩ := long_gap below
      have hsum : n <<< 8 ||| low.toNat = n * 256 + low.toNat := by
        rw [← Nat.shiftLeft_add_eq_or_of_lt (UInt8.toNat_lt _), Nat.shiftLeft_eq]
      rw [hb, Option.bind_eq_bind, Option.bind_some, if_neg hff, if_pos hkind, hlow,
        Option.bind_some, hval, hsum]
      rfl

theorem findCharacter_record {r : CharRecord} (h : font.drop ptr = r.code ++ rest)
    (hi : i < 0x110000) :
    findCharacter font unicode ptr i =
      if i = unicode.toNat then some (some ptr)
      else findCharacter font unicode (ptr + r.code.length) (i + 1) := by
  have htype : byte font ptr = some r.type := byte_of_drop (k := 0) h (by simp [CharRecord.code])
  have hn : byte font (ptr + 1) = some r.n := byte_of_drop (k := 1) h (by simp [CharRecord.code])
  obtain ⟨hff, hlong, hshort⟩ := record_type r.notGap
  have hlen : r.code.length = 6 + r.n.toNat * descriptorSize r.type := by
    rw [CharRecord.code, List.length_append, r.size]
    rfl
  rw [findCharacter, dif_pos hi, htype, Option.bind_eq_bind, Option.bind_some, if_neg hff,
    if_neg hlong, if_neg hshort, hn, hlen, ← Nat.add_assoc]
  rfl

/-- The character table from `ptr` on has the record of `r` where the walk ended. -/
abbrev Found (font : Font) : Option Nat → Option CharRecord → Prop :=
  Option.Rel fun chr r => r.code <+: font.drop chr

/-- Beyond the last code point the walk is over. -/
theorem findCharacter_end (hi : ¬ i < 0x110000) (items : List (Item CharRecord)) :
    findCharacter font unicode ptr i = some none ∧
      Found font none (if unicode.toNat < 0x110000 then seek unicode.toNat items i else none) := by
  refine ⟨by rw [findCharacter, dif_neg hi], ?_⟩
  split
  · rename_i hbelow
    rw [seek_past (by omega)]
    exact .none
  · exact .none

/-- The walk over a run of items that reaches the last code point. Where it ends is the same
whatever stands before and after the run. -/
theorem findCharacter_items {items : List (Item CharRecord)} {text : List UInt8}
    (written : TableText items text) (ptr : Nat) (hspan : 0x110000 ≤ i + span items) :
    ∃ chr, ∀ font rest, font.drop ptr = text ++ rest →
      findCharacter font unicode ptr i = some chr ∧
        Found font chr (if unicode.toNat < 0x110000 then seek unicode.toNat items i else none) := by
  by_cases hi : i < 0x110000
  · induction written generalizing ptr i with
    | nil =>
        rw [show span ([] : List (Item CharRecord)) = 0 from rfl] at hspan
        omega
    | @cons item items code text first more ih =>
        have hsize : span (item :: items) = item.size + span items := rfl
        have hrest : ∃ chr, ∀ font rest, font.drop (ptr + code.length) = text ++ rest →
            findCharacter font unicode (ptr + code.length) (i + item.size) = some chr ∧
              Found font chr (if unicode.toNat < 0x110000 then
                seek unicode.toNat items (i + item.size) else none) := by
          by_cases hnext : i + item.size < 0x110000
          · exact ih (ptr + code.length) (by omega) hnext
          · exact ⟨none, fun font rest _ => findCharacter_end unicode hnext items⟩
        obtain ⟨chr, hrest⟩ := hrest
        cases item with
        | gap n =>
            refine ⟨chr, fun font rest h => ?_⟩
            rw [List.append_assoc] at h
            rw [findCharacter_gap unicode first h hi, seek]
            exact hrest font rest (drop_past h)
        | record r =>
            cases first
            by_cases hhere : i = unicode.toNat
            · refine ⟨some ptr, fun font rest h => ?_⟩
              rw [List.append_assoc] at h
              rw [findCharacter_record unicode h hi, seek, if_pos hhere, if_pos hhere,
                if_pos (hhere ▸ hi)]
              exact ⟨rfl, .some ⟨_, h.symm⟩⟩
            · refine ⟨chr, fun font rest h => ?_⟩
              rw [List.append_assoc] at h
              rw [findCharacter_record unicode h hi, seek, if_neg hhere, if_neg hhere]
              exact hrest font rest (drop_past h)
  · exact ⟨none, fun font rest _ => findCharacter_end unicode hi items⟩

end Walk

/-- In a table written by the rules of the format that reaches the last code point, wherever
it stands in the font, the walk finds for every code point the record that was written for
it, and nothing for the others. It looks at nothing behind the table. -/
theorem findCharacter_table (pre : List UInt8) {items : List (Item CharRecord)}
    {text : List UInt8} (written : TableText items text) (hspan : 0x110000 ≤ span items)
    (unicode : UInt32) :
    ∃ chr, ∀ rest,
      findCharacter (pre ++ (text ++ rest)) unicode pre.length 0 = some chr ∧
        Found (pre ++ (text ++ rest)) chr (entryFor items unicode) := by
  rw [← Nat.zero_add (span items)] at hspan
  obtain ⟨chr, hwalk⟩ := findCharacter_items unicode written pre.length hspan
  exact ⟨chr, fun rest => hwalk _ rest List.drop_left⟩

theorem tableText_pages (n : Nat) :
    TableText (List.replicate n (.gap 65536)) (List.replicate n 0xFF) := by
  induction n with
  | zero => exact .nil
  | succ n ih => exact .cons .page ih

/-- A character without fragments. -/
def blankRecord : CharRecord := ⟨0, 0, 8, 0, 8, 0, [], rfl, rfl⟩

/-- The blank stands for `A`, behind 64 code points and one more in a long gap. The table ends
beyond the last code point. -/
def blankItems : List (Item CharRecord) :=
  .gap 64 :: .gap 1 :: .record blankRecord :: List.replicate 17 (.gap 65536)

def blankText : List UInt8 :=
  [0xBF] ++ ([0xC0, 0] ++ (blankRecord.code ++ List.replicate 17 0xFF))

theorem findCharacter_table_blank :
    (∃ chr, findCharacter blankText 65 0 0 = some (some chr) ∧
      blankRecord.code <+: blankText.drop chr) ∧
    findCharacter blankText 66 0 0 = some none := by
  have written : TableText blankItems blankText :=
    .cons (.short (n := 63) (by decide)) (.cons (.long (n := 0) (by decide) 0)
      (.cons (.record blankRecord) (tableText_pages 17)))
  have hspan : 0x110000 ≤ span blankItems := by decide
  obtain ⟨chr, hfound⟩ := findCharacter_table [] written hspan 65
  obtain ⟨chr', hnone⟩ := findCharacter_table [] written hspan 66
  obtain ⟨hwalk, hrecord⟩ := hfound []
  obtain ⟨hwalk', hnothing⟩ := hnone []
  have hentry : entryFor blankItems 65 = some blankRecord := rfl
  have hmissing : entryFor blankItems 66 = none := by
    rw [entryFor, if_pos (by decide)]
    rfl
  rw [List.nil_append, List.append_nil] at hwalk hrecord hwalk' hnothing
  rw [hentry] at hrecord
  rw [hmissing] at hnothing
  refine ⟨?_, ?_⟩
  · cases hrecord with
    | some hcode => exact ⟨_, hwalk, hcode⟩
  · cases hnothing
    exact hwalk'

end Renderer
end BenchOS
