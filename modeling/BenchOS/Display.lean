import BenchOS.Drawing
import BenchOS.FontTable

/-!
The renderer refines the page. As long as the screen holds two lines, a run of any
characters has no undefined step, keeps the pen where its `int`s hold it, changes no byte
outside the framebuffer, and leaves in it the picture of the page.
-/
namespace BenchOS
namespace Renderer

/-- The bytes of the font mean the face. -/
structure Readable (font : Font) (face : Face) : Prop where
  magic : font.take 4 = bytes "SFN2"
  lineHeight : ∃ b, byte font 11 = some b ∧ face.lineHeight = b.toNat
  table : ∃ offs, word32 font 16 = some offs ∧ ∀ unicode, ∃ chr,
    findCharacter font unicode offs 0 = some chr ∧
      Option.Rel (ShapeAt font) chr (face.shape unicode)

/-- A font is readable when its table is written by the rules of the format and the shapes of
its records are those of the face. -/
theorem readable_table {font : Font} {face : Face}
    {items : List (SparseTable.Item CharRecord)} {text rest : List UInt8} {offs : Nat}
    (magic : font.take 4 = bytes "SFN2")
    (lineHeight : ∃ b, byte font 11 = some b ∧ face.lineHeight = b.toNat)
    (hoffs : word32 font 16 = some offs) (written : TableText items text)
    (hspan : 0x110000 ≤ SparseTable.span items) (htable : font.drop offs = text ++ rest)
    (shapes : ∀ unicode : UInt32,
      Option.Rel (fun r sh => ∀ chr, r.code <+: font.drop chr → ShapeAt font chr sh)
        (entryFor items unicode) (face.shape unicode)) :
    Readable font face := by
  refine ⟨magic, lineHeight, offs, hoffs, ?_⟩
  intro unicode
  rw [← Nat.zero_add (SparseTable.span items)] at hspan
  obtain ⟨chr, hwalk⟩ := findCharacter_items unicode written offs hspan
  obtain ⟨hfind, hfound⟩ := hwalk font rest htable
  rw [← entryFor] at hfound
  refine ⟨chr, hfind, ?_⟩
  have hshape := shapes unicode
  generalize entryFor items unicode = entry at hfound hshape
  generalize face.shape unicode = sh at hshape ⊢
  cases hfound with
  | none =>
      cases hshape
      exact .none
  | some hcode =>
      cases hshape with
      | some hat => exact .some (hat _ hcode)

/-- The same for a table that was written from records in order. -/
theorem readable_encode {font : Font} {face : Face} {t : CharTable} {offs : Nat}
    {rest : List UInt8} (magic : font.take 4 = bytes "SFN2")
    (lineHeight : ∃ b, byte font 11 = some b ∧ face.lineHeight = b.toNat)
    (hoffs : word32 font 16 = some offs) (htable : font.drop offs = t.encode ++ rest)
    (shapes : ∀ unicode : UInt32,
      Option.Rel (fun r sh => ∀ chr, r.code <+: font.drop chr → ShapeAt font chr sh)
        (t.entries.lookup unicode.toNat) (face.shape unicode)) :
    Readable font face := by
  refine readable_table magic lineHeight hoffs t.encode_text (Nat.le_of_eq t.encode_span.symm)
    htable fun unicode => ?_
  rw [t.entryFor_encode]
  exact shapes unicode

/-- The canvas has the pen and the background of the page. -/
structure Tracks (dst : SsfnBuf) (sc : Screen) (pg : Page) : Prop where
  on : DrawsOn dst sc
  pen : PenAt dst pg.x pg.y
  bg : dst.bg = pg.bg

/-- The canvas shows the page; outside the framebuffer its memory is `m₀`. -/
structure Presents (sc : Screen) (m₀ : Mem Object) (c : Canvas) (pg : Page) : Prop where
  tracks : Tracks c.dst sc pg
  painted : Painted sc m₀ c.mem pg.pic

/-- How far the pen gets: an advance past the right edge, or past the last line. -/
structure Near (face : Face) (sc : Screen) (pg : Page) : Prop where
  x : pg.x ≤ max sc.w 255
  y : pg.y ≤ face.lastLine sc.h + 255

section Pen
variable {dst : SsfnBuf} {sc : Screen} {pg : Page}

theorem DrawsOn.moved (on : DrawsOn dst sc) (x y : Int32) :
    DrawsOn { dst with x := x, y := y } sc :=
  ⟨on.ptr, on.width, on.height, on.pitch, on.solid⟩

/-- The pen can be put anywhere that an `int` holds. -/
theorem Tracks.moved (h : Tracks dst sc pg) {pg' : Page} {x y : Int32}
    (hx : x.toInt = pg'.x) (hy : y.toInt = pg'.y) (hbg : pg'.bg = pg.bg) :
    Tracks { dst with x := x, y := y } sc pg' :=
  ⟨h.on.moved x y, ⟨hx, hy⟩, hbg ▸ h.bg⟩

theorem int_nat {n : Nat} (h : n < 2 ^ 31) : int (n : Int) = some (Int32.ofInt n) :=
  (int_eq (by omega) (by omega)).1

theorem toInt_ofNat {n : Nat} (h : n < 2 ^ 31) : (Int32.ofInt n).toInt = n :=
  (int_eq (by omega) (by omega)).2

theorem Screen.narrow (sc : Screen) : sc.w < 2 ^ 14 := by
  have hpitch := sc.pitch
  have hholds := sc.rowHolds
  omega

theorem Screen.low (sc : Screen) : sc.h < 2 ^ 29 := by
  have hwide := sc.wide
  have hholds := sc.rowHolds
  have hsize := sc.size
  have hfour : 4 * sc.h ≤ sc.p * sc.h := Nat.mul_le_mul_right _ (by omega)
  omega

theorem tabStop_eq (h : Tracks dst sc pg) {unicode : UInt32} {advance : UInt8}
    (htab : unicode = 0x09 → 0 < advance.toNat) (hx : pg.x < 2 ^ 31) :
    ∃ x, tabStop unicode advance dst = some x ∧
      x.toInt = (pg.stop (unicode = 0x09) advance.toNat : Int) := by
  simp only [tabStop, Page.stop, decide_eq_true_eq]
  by_cases hc : unicode = 0x09
  · have hpos : advance ≠ 0 := by
      intro hzero
      have hlt := htab hc
      rw [hzero] at hlt
      exact absurd hlt (by decide)
    have hle := Nat.mod_le pg.x advance.toNat
    have hsub : dst.x.toInt - dst.x.toInt.tmod advance.toNat =
        ((pg.x - pg.x % advance.toNat : Nat) : Int) := by
      rw [h.pen.x, ← Int.ofNat_tmod]
      omega
    rw [if_pos hc, if_neg hpos, if_pos hc, hsub]
    exact ⟨_, int_nat (by omega), toInt_ofNat (by omega)⟩
  · rw [if_neg hc, if_neg hc]
    exact ⟨dst.x, rfl, h.pen.x⟩

theorem wrapPen_tracks (h : Tracks dst sc pg) {unicode : UInt32} {advance height : UInt8}
    (htab : unicode = 0x09 → 0 < advance.toNat) (hx : pg.x < 2 ^ 31) (hy : pg.y < 2 ^ 30) :
    ∃ dst', wrapPen unicode advance height dst = some dst' ∧ dst'.fg = dst.fg ∧
      Tracks dst' sc (pg.fit sc.w height.toNat (unicode = 0x09) advance.toNat) := by
  have hheight := height.toNat_lt
  obtain ⟨x, hstop, hval⟩ := tabStop_eq h htab hx
  have hsum : dst.y.toInt + height.toNat = ((pg.y + height.toNat : Nat) : Int) := by
    rw [h.pen.y]
    omega
  rw [wrapPen, hstop, Option.bind_eq_bind, Option.bind_some, hsum, h.on.width, hval, Page.fit]
  by_cases hwrap : sc.w < pg.stop (unicode = 0x09) advance.toNat + advance.toNat
  · rw [if_pos (by omega), if_pos hwrap, int_nat (by omega)]
    exact ⟨_, rfl, rfl, h.moved rfl (toInt_ofNat (by omega)) rfl⟩
  · rw [if_neg (by omega), if_neg hwrap]
    exact ⟨_, rfl, rfl, h.moved hval h.pen.y rfl⟩

theorem lineFeed_tracks (h : Tracks dst sc pg) (unicode : UInt32) {height : UInt8}
    (hy : pg.y < 2 ^ 30) :
    ∃ dst', lineFeed unicode height dst = some dst' ∧ dst'.fg = dst.fg ∧
      Tracks dst' sc (pg.newline height.toNat unicode) := by
  have hheight := height.toNat_lt
  have hsum : dst.y.toInt + height.toNat = ((pg.y + height.toNat : Nat) : Int) := by
    rw [h.pen.y]
    omega
  rw [lineFeed, Page.newline]
  by_cases hc : unicode = 0x0A
  · rw [if_pos hc, if_pos hc, hsum, int_nat (by omega)]
    exact ⟨_, rfl, rfl, h.moved h.pen.x (toInt_ofNat (by omega)) rfl⟩
  · rw [if_neg hc, if_neg hc]
    exact ⟨dst, rfl, rfl, h⟩

end Pen

section Step
variable {font : Font} {face : Face} {sc : Screen} {m₀ : Mem Object} {c : Canvas} {pg : Page}

theorem lastLine_bounds (tall : 2 * face.lineHeight ≤ sc.h) :
    0 < face.lastLine sc.h ∧ face.lastLine sc.h + face.lineHeight ≤ sc.h := by
  have hmod := Nat.mod_lt sc.h face.linePos
  rw [Face.lastLine]
  omega

theorem scroll_presents (h : Presents sc m₀ c pg) {height : UInt8}
    (hline : face.lineHeight = height.toNat) (tall : 2 * face.lineHeight ≤ sc.h) :
    ∃ c', scroll height c = some c' ∧ c'.dst.fg = c.dst.fg ∧
      Presents sc m₀ c' (pg.scroll face.lineHeight (face.lastLine sc.h)) := by
  have hlow := sc.low
  have hsize := sc.size
  obtain ⟨hpos, hwithin⟩ := lastLine_bounds tall
  have hheight : height ≠ 0 := by
    intro hzero
    have hline' := face.linePos
    rw [hline, hzero] at hline'
    exact absurd hline' (by decide)
  have hj : c.dst.h.toInt - height.toNat - c.dst.h.toInt.tmod height.toNat =
      (face.lastLine sc.h : Int) := by
    rw [h.tracks.on.height, ← Int.ofNat_tmod, Face.lastLine, ← hline]
    have hmod := Nat.mod_lt sc.h face.linePos
    omega
  have hval := toInt_ofNat (n := face.lastLine sc.h) (by omega)
  rw [scroll, if_neg hheight, hj, int_nat (by omega), Option.bind_eq_bind, Option.bind_some, hval,
    h.tracks.pen.y, Page.scroll]
  by_cases hbelow : face.lastLine sc.h < pg.y
  · have hbytes : (face.lastLine sc.h + face.lineHeight) * sc.p ≤ sc.p * sc.h := by
      rw [Nat.mul_comm sc.p]
      exact Nat.mul_le_mul_right _ hwithin
    have hlast : ((face.lastLine sc.h : Int) + height.toNat) * c.dst.p.toNat - 1 =
        (((face.lastLine sc.h + face.lineHeight) * sc.p : Nat) : Int) - 1 := by
      rw [h.tracks.on.pitch, hline, Int.natCast_mul, Int.natCast_add]
    have hindex := (int_eq (i := (((face.lastLine sc.h + face.lineHeight) * sc.p : Nat) : Int) - 1)
      (by omega) (by omega)).1
    rw [if_pos ⟨by omega, by omega⟩, if_pos hbelow, hlast, hindex, Option.bind_some]
    refine ⟨_, rfl, rfl, h.tracks.moved h.tracks.pen.x hval rfl, ?_⟩
    rw [Int.toNat_natCast, h.tracks.on.ptr, h.tracks.on.pitch, ← hline]
    exact h.painted.copyRows hwithin
  · rw [if_neg (by omega), if_neg hbelow]
    exact ⟨c, rfl, rfl, h⟩

theorem fitPen_tracks {dst : SsfnBuf} (h : Tracks dst sc pg) (near : Near face sc pg)
    {unicode : UInt32} {height : UInt8} (hline : face.lineHeight = height.toNat)
    {chr : Option Nat} (hshape : Option.Rel (ShapeAt font) chr (face.shape unicode)) :
    ∃ dst', fitPen font unicode height dst chr = some dst' ∧ dst'.fg = dst.fg ∧
      Tracks dst' sc (pg.fitTo sc.w face.lineHeight (unicode = 0x09) (face.shape unicode)) := by
  have hnarrow := sc.narrow
  have hlow := sc.low
  have hx := near.x
  have hy := near.y
  have hlast : face.lastLine sc.h ≤ sc.h := by
    rw [Face.lastLine]
    omega
  cases hface : face.shape unicode with
  | none =>
      rw [hface] at hshape
      cases hshape
      exact ⟨dst, rfl, rfl, h⟩
  | some sh =>
      rw [hface] at hshape
      cases hshape with
      | some hat =>
          obtain ⟨advance, hbyte, hadvance⟩ := hat.advanceX
          have htab : unicode = 0x09 → 0 < advance.toNat := by
            rintro rfl
            exact hadvance ▸ face.tabPos sh hface
          have hwide : dst.lineWidth ≠ 0 := by
            intro hzero
            have hwidth := h.on.width
            have hpos := sc.wide
            rw [hzero, Int32.toInt_zero] at hwidth
            omega
          rw [fitPen, if_neg hwide, hbyte, Page.fitTo, hline, hadvance]
          exact wrapPen_tracks h htab (by omega) (by omega)

theorem control_presents (h : Presents sc m₀ c pg) (near : Near face sc pg)
    (tall : 2 * face.lineHeight ≤ sc.h) {unicode : UInt32} {height : UInt8}
    (hheight : byte font 11 = some height) (hline : face.lineHeight = height.toNat)
    {chr : Option Nat} (hshape : Option.Rel (ShapeAt font) chr (face.shape unicode)) :
    ∃ c', control font unicode chr c = some c' ∧ c'.dst.fg = c.dst.fg ∧
      Presents sc m₀ c' (pg.settle face sc.w sc.h unicode) := by
  have hlow := sc.low
  have hy := near.y
  obtain ⟨-, hwithin⟩ := lastLine_bounds tall
  obtain ⟨dst₁, hfit, hfg₁, htracks₁⟩ := fitPen_tracks h.tracks near hline hshape
  have hy₁ := pg.fitTo_y sc.w face.lineHeight (unicode = 0x09) (face.shape unicode)
  obtain ⟨dst₂, hfeed, hfg₂, htracks₂⟩ := lineFeed_tracks htracks₁ unicode
    (by omega)
  rw [← hline] at htracks₂
  have hpresents : Presents sc m₀ { c with dst := dst₂ } _ := ⟨htracks₂, by simpa using h.painted⟩
  obtain ⟨c', hscroll, hfg₃, hpresents'⟩ := scroll_presents hpresents hline tall
  refine ⟨c', ?_, hfg₃.trans (hfg₂.trans hfg₁), hpresents'⟩
  simp only [control, hheight, hfit, hfeed, hscroll, Option.bind_eq_bind, Option.bind_some]

/-- The advances of a character are bytes, so the pen stays near. -/
theorem put_near (near : Near face sc pg) {unicode : UInt32} {fg : Colour}
    (hbyte : ∀ sh, face.shape unicode = some sh → sh.advanceX < 256 ∧ sh.advanceY < 256) :
    Near face sc (pg.put face sc.w sc.h unicode fg) := by
  have hx := (pg.settle_x_le face sc.w sc.h unicode).trans near.x
  have hy := pg.settle_y face sc.w sc.h unicode
  rw [Page.put]
  by_cases hreturn : unicode = 0x0D ∨ unicode = 0x0A
  · rw [if_pos hreturn]
    exact ⟨Nat.zero_le _, hy.trans (Nat.le_add_right _ _)⟩
  rw [if_neg hreturn]
  cases hface : face.shape unicode with
  | none => exact ⟨hx, hy.trans (Nat.le_add_right _ _)⟩
  | some sh =>
      obtain ⟨hadvanceX, hadvanceY⟩ := hbyte sh hface
      have hroom := pg.settle_x face sc.w sc.h unicode hface
      constructor
      · show (pg.settle face sc.w sc.h unicode).x + sh.advanceX ≤ max sc.w 255
        omega
      · exact Nat.add_le_add hy (Nat.le_of_lt_succ hadvanceY)

theorem advance_bytes {chr : Option Nat} {unicode : UInt32}
    (hshape : Option.Rel (ShapeAt font) chr (face.shape unicode)) (sh : Shape)
    (hface : face.shape unicode = some sh) : sh.advanceX < 256 ∧ sh.advanceY < 256 := by
  rw [hface] at hshape
  cases hshape with
  | some hat =>
      obtain ⟨advanceX, -, hadvanceX⟩ := hat.advanceX
      obtain ⟨advanceY, -, hadvanceY⟩ := hat.advanceY
      exact ⟨hadvanceX ▸ advanceX.toNat_lt, hadvanceY ▸ advanceY.toNat_lt⟩

/-- After the control part the character is drawn and the pen advances. -/
theorem drawn_presents (near : Near face sc pg) (tall : 2 * face.lineHeight ≤ sc.h)
    {chr : Nat} {sh : Shape} (hat : ShapeAt font chr sh) (h : Presents sc m₀ c pg)
    (hlast : pg.y ≤ face.lastLine sc.h) :
    ∃ m' x y advanceX advanceY, drawCharacter font chr c = some m' ∧
      byte font (chr + 4) = some advanceX ∧ byte font (chr + 5) = some advanceY ∧
      int (c.dst.x.toInt + advanceX.toNat) = some x ∧
      int (c.dst.y.toInt + advanceY.toNat) = some y ∧
      Presents sc m₀ { dst := { c.dst with x := x, y := y }, mem := m' }
        { pg with
          pic := pg.pic.stamp pg.x pg.y (sh.cells c.dst.fg pg.bg)
          x := pg.x + sh.advanceX
          y := pg.y + sh.advanceY } := by
  have hlow := sc.low
  have hnarrow := sc.narrow
  have hx := near.x
  have hpos := face.linePos
  obtain ⟨-, hwithin⟩ := lastLine_bounds tall
  obtain ⟨advanceX, hbyteX, hadvanceX⟩ := hat.advanceX
  obtain ⟨advanceY, hbyteY, hadvanceY⟩ := hat.advanceY
  have hltX := advanceX.toNat_lt
  have hltY := advanceY.toNat_lt
  obtain ⟨m', hdrawn, hpainted⟩ :=
    drawCharacter_painted h.tracks.on h.tracks.pen (by omega) hat h.painted
  have hsumX : c.dst.x.toInt + advanceX.toNat = ((pg.x + sh.advanceX : Nat) : Int) := by
    rw [h.tracks.pen.x, hadvanceX]
    omega
  have hsumY : c.dst.y.toInt + advanceY.toNat = ((pg.y + sh.advanceY : Nat) : Int) := by
    rw [h.tracks.pen.y, hadvanceY]
    omega
  rw [h.tracks.bg] at hpainted
  refine ⟨m', _, _, advanceX, advanceY, hdrawn, hbyteX, hbyteY, ?_, ?_,
    h.tracks.moved (toInt_ofNat ?_) (toInt_ofNat ?_) rfl, hpainted⟩
  · rw [hsumX, int_nat (by omega)]
  · rw [hsumY, int_nat (by omega)]
  · show pg.x + sh.advanceX < 2 ^ 31
    omega
  · show pg.y + sh.advanceY < 2 ^ 31
    omega

theorem inputs_ok (readable : Readable font face) (h : Presents sc m₀ c pg) :
    ¬ (font.take 4 ≠ bytes "SFN2" ∨ c.dst.ptr = 0 ∨ c.dst.p = 0) := by
  rintro (hmagic | hptr | hpitch)
  · exact hmagic readable.magic
  · exact sc.base_ne (h.tracks.on.ptr ▸ hptr)
  · have hzero := h.tracks.on.pitch
    have hhold := sc.rowHolds
    have hwide := sc.wide
    rw [hpitch, show (0 : UInt16).toNat = 0 from rfl] at hzero
    omega

/-- One character: the renderer does what the page does. -/
theorem ssfnPutc_presents (readable : Readable font face) (tall : 2 * face.lineHeight ≤ sc.h)
    (near : Near face sc pg) (h : Presents sc m₀ c pg) (unicode : UInt32) :
    ∃ code c', ssfnPutc (some font) unicode c = some (code, c') ∧ c'.dst.fg = c.dst.fg ∧
      Presents sc m₀ c' (pg.put face sc.w sc.h unicode c.dst.fg) ∧
      Near face sc (pg.put face sc.w sc.h unicode c.dst.fg) := by
  obtain ⟨height, hheight, hline⟩ := readable.lineHeight
  obtain ⟨offs, hoffs, htable⟩ := readable.table
  obtain ⟨chr, hfind, hshape⟩ := htable unicode
  obtain ⟨c₁, hcontrol, hfg, hsettled⟩ := control_presents h near tall hheight hline hshape
  have hy := pg.settle_y face sc.w sc.h unicode
  have hx := (pg.settle_x_le face sc.w sc.h unicode).trans near.x
  simp only [ssfnPutc, if_neg (inputs_ok readable h), hoffs, hfind, hcontrol,
    Option.bind_eq_bind, Option.bind_some]
  have hnear : Near face sc (pg.put face sc.w sc.h unicode c.dst.fg) :=
    put_near near (advance_bytes hshape)
  rw [Page.put] at hnear ⊢
  by_cases hreturn : unicode = 0x0D ∨ unicode = 0x0A
  · rw [if_pos hreturn] at hnear ⊢
    rw [if_pos hreturn]
    exact ⟨_, _, rfl, hfg,
      ⟨hsettled.tracks.moved rfl hsettled.tracks.pen.y rfl, hsettled.painted⟩, hnear⟩
  rw [if_neg hreturn] at hnear ⊢
  rw [if_neg hreturn]
  cases hface : face.shape unicode with
  | none =>
      rw [hface] at hshape hnear
      cases hshape
      exact ⟨_, _, rfl, hfg, hsettled, hnear⟩
  | some sh =>
      rw [hface] at hshape hnear
      cases hshape with
      | some hat =>
          have hnear₁ : Near face sc (pg.settle face sc.w sc.h unicode) :=
            ⟨hx, hy.trans (Nat.le_add_right _ _)⟩
          obtain ⟨m', x, y, advanceX, advanceY, hdrawn, hbyteX, hbyteY, hintX, hintY, hdone⟩ :=
            drawn_presents hnear₁ tall hat hsettled hy
          rw [hfg] at hdone
          refine ⟨ok, ⟨{ c₁.dst with x := x, y := y }, m'⟩, ?_, hfg, hdone, hnear⟩
          simp only [hdrawn, hbyteX, hbyteY, hintX, hintY, Option.bind_some]

end Step

end Renderer
end BenchOS
