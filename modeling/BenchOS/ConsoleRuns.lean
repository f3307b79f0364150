import BenchOS.Display

/-!
The console over whole runs, with everything that is drawn. A run is any sequence of
characters and of calls of `consoleClear`, from the state that `consoleInit` leaves on.
-/
namespace BenchOS
open Renderer

def Machine.canvas (s : Machine) : Canvas := ⟨s.ssfnDst, s.mem⟩

def Machine.withCanvas (s : Machine) (c : Canvas) : Machine :=
  { s with ssfnDst := c.dst, mem := c.mem }

/-- One operation; a character is drawn. -/
inductive ScreenStep (font : Font) : Machine → ScreenOp → Machine → Prop where
  | put {s : Machine} {g : Glyph} {c : Canvas}
      (drawn : showGlyph (some font) s.canvas g = some c) :
      ScreenStep font s (.put g) (s.withCanvas c)
  | clear {s s' : Machine} {color : UInt32} (cleared : (consoleClear color).Returns s () s') :
      ScreenStep font s (.clear color) s'

inductive ScreenRun (font : Font) : Machine → List ScreenOp → Machine → Prop where
  | nil (s : Machine) : ScreenRun font s [] s
  | cons {s s₁ s' : Machine} {op : ScreenOp} {ops : List ScreenOp}
      (step : ScreenStep font s op s₁) (rest : ScreenRun font s₁ ops s') :
      ScreenRun font s (op :: ops) s'

def Page.op (face : Face) (w h : Nat) (pg : Page) : ScreenOp → Page
  | .put g => pg.put face w h (unicodeOf g.char) g.fg
  | .clear color => Page.blank color

def Page.run (face : Face) (w h : Nat) (pg : Page) (ops : List ScreenOp) : Page :=
  ops.foldl (Page.op face w h) pg

/-- The framebuffer is this screen. -/
structure Backs (fb : LimineFramebuffer) (sc : Screen) : Prop where
  base : fb.address = sc.base
  width : fb.width.toNat = sc.w
  height : fb.height.toNat = sc.h
  pitch : fb.pitch.toNat = sc.p

section Init
variable {fb : LimineFramebuffer} {sc : Screen}

theorem Backs.rowsHold (h : Backs fb sc) : fb.RowsHold := by
  have hsize := sc.size
  constructor
  · rw [h.width, h.pitch]
    exact sc.rowHolds
  · rw [h.pitch, h.height]
    omega

theorem Backs.drawsOn (h : Backs fb sc) (s : Machine) : DrawsOn (s.drawingOn fb).ssfnDst sc := by
  have hnarrow := sc.narrow
  have hlow := sc.low
  have hpitch := sc.pitch
  have hwidth := toInt_int32 (n := fb.width) (by rw [h.width]; omega)
  have hheight := toInt_int32 (n := fb.height) (by rw [h.height]; omega)
  have hpos : ¬ fb.width.toUInt32.toInt32 < 0 := by
    rw [Int32.lt_iff_toInt_lt, hwidth, Int32.toInt_zero]
    omega
  have hsolid : (0xff000000 : UInt32) ≠ 0 := by decide
  refine ⟨h.base, ?_, ?_, ?_, hsolid⟩
  · show (if fb.width.toUInt32.toInt32 < 0 then _ else fb.width.toUInt32.toInt32).toInt = _
    rw [if_neg hpos, hwidth, h.width]
  · rw [← h.height]
    exact hheight
  · show fb.pitch.toUInt16.toNat = sc.p
    rw [UInt64.toNat_toUInt16, h.pitch]
    exact Nat.mod_eq_of_lt hpitch

/-- The picture that a memory depicts. -/
def pictureOf (sc : Screen) (m : Mem Object) : Picture Colour := fun x y =>
  UInt32.ofNat (m.number (sc.place x y) 4)

theorem block_number (m : Mem Object) (l : Location) :
    m.Block l (bytes32 (UInt32.ofNat (m.number l 4))) := by
  have h₀ := (m l).toNat_lt
  have h₁ := (m (l.add 1)).toNat_lt
  have h₂ := (m (l.add 2)).toNat_lt
  have h₃ := (m (l.add 3)).toNat_lt
  simp only [bytes32, Mem.block_cons, Loc.add_add, Mem.number, ← UInt8.toNat_inj]
  refine ⟨?_, ?_, ?_, ?_, Mem.block_nil⟩ <;> simp [Nat.shiftRight_eq_div_pow] <;> omega

/-- Right after `consoleInit` the screen shows whatever the memory holds. -/
theorem consoleInit_presents (h : Backs fb sc) (s : Machine) :
    Presents sc s.mem (s.drawingOn fb).canvas ⟨pictureOf sc s.mem, 0, 0, 0xff000000⟩ where
  tracks := ⟨h.drawsOn s, ⟨rfl, rfl⟩, rfl⟩
  painted := ⟨fun _ _ _ _ => block_number _ _, fun _ _ => rfl⟩

end Init

section Clear
variable {sc : Screen} {m₀ : Mem Object} {s : Machine} {pg : Page}

theorem place_mem_places {fb : LimineFramebuffer} (h : Backs fb sc) {x y : Nat} (hx : x < sc.w)
    (hy : y < sc.h) : sc.place x y ∈ fb.places fb.height.toNat := by
  rw [h.rowsHold.places_aligned (h.pitch ▸ sc.aligned), List.mem_map]
  refine ⟨(y, x), Raster.mem_cells.mpr ⟨h.height ▸ hy, h.width ▸ hx⟩, ?_⟩
  rw [Screen.place, Screen.start, LimineFramebuffer.base, h.base, h.pitch]

/-- `consoleClear` leaves a blank page, whatever was on the screen. -/
theorem consoleClear_presents (h : Backs s.globalFramebuffer sc) (color : UInt32)
    (hpg : Presents sc m₀ s.canvas pg) :
    ∃ s', (consoleClear color).Returns s () s' ∧
      Presents sc m₀ s'.canvas (Page.blank color) ∧
      s'.globalFramebuffer = s.globalFramebuffer := by
  have hhigh := sc.high
  have hpen : s.ssfnDst.afterRows s.globalFramebuffer.height.toNat =
      { s.ssfnDst with x := 0, y := 0 } := if_neg (by rw [h.height]; omega)
  have hreturns := consoleClear_returns color s
  rw [hpen] at hreturns
  refine ⟨_, hreturns, ⟨⟨?_, ⟨rfl, rfl⟩, rfl⟩, ?_, ?_⟩, rfl⟩
  · have hon := hpg.tracks.on
    have hsolid : 0xff000000 ||| color ≠ 0 := by simp
    exact ⟨hon.ptr, hon.width, hon.height, hon.pitch, hsolid⟩
  · intro x y hx hy
    exact storing32_block s color h.rowsHold.places_apart (place_mem_places h hx hy)
  · intro b hb
    refine (storing32_outside s color fun l hl hc => hb ?_).trans (hpg.painted.outside b hb)
    have hwithin := h.rowsHold.places_within hl hc
    rwa [LimineFramebuffer.base, h.base, h.pitch, h.height] at hwithin

end Clear

section Runs
variable {font : Font} {face : Face} {sc : Screen} {m₀ : Mem Object}

/-- The machine draws on the screen and shows the page. -/
structure Live (face : Face) (sc : Screen) (m₀ : Mem Object) (s : Machine) (pg : Page) :
    Prop where
  backs : Backs s.globalFramebuffer sc
  presents : Presents sc m₀ s.canvas pg
  near : Near face sc pg

theorem showGlyph_presents (readable : Readable font face) (tall : 2 * face.lineHeight ≤ sc.h)
    {c : Canvas} {pg : Page} (h : Presents sc m₀ c pg) (near : Near face sc pg) (g : Glyph) :
    ∃ c', showGlyph (some font) c g = some c' ∧
      Presents sc m₀ c' (pg.put face sc.w sc.h (unicodeOf g.char) g.fg) ∧
      Near face sc (pg.put face sc.w sc.h (unicodeOf g.char) g.fg) := by
  have hcoloured : Presents sc m₀ { c with dst := { c.dst with fg := g.fg } } pg :=
    ⟨⟨⟨h.tracks.on.ptr, h.tracks.on.width, h.tracks.on.height, h.tracks.on.pitch,
      h.tracks.on.solid⟩, ⟨h.tracks.pen.x, h.tracks.pen.y⟩, h.tracks.bg⟩, h.painted⟩
  obtain ⟨code, c', hputc, -, hdone⟩ :=
    ssfnPutc_presents readable tall near hcoloured (unicodeOf g.char)
  refine ⟨c', ?_, hdone⟩
  rw [showGlyph, hputc]
  rfl

theorem near_blank (color : Colour) : Near face sc (Page.blank color) :=
  ⟨Nat.zero_le _, Nat.zero_le _⟩

theorem screenStep_live (readable : Readable font face) (tall : 2 * face.lineHeight ≤ sc.h)
    {s : Machine} {pg : Page} (h : Live face sc m₀ s pg) (op : ScreenOp) :
    ∃ s', ScreenStep font s op s' ∧ Live face sc m₀ s' (pg.op face sc.w sc.h op) := by
  cases op with
  | put g =>
      obtain ⟨c, hdrawn, hpresents, hnear⟩ := showGlyph_presents readable tall h.presents h.near g
      exact ⟨_, .put hdrawn, h.backs, hpresents, hnear⟩
  | clear color =>
      obtain ⟨s', hcleared, hpresents, hsame⟩ := consoleClear_presents h.backs color h.presents
      exact ⟨s', .clear hcleared, hsame ▸ h.backs, hpresents, near_blank color⟩

theorem screenStep_unique {s s₁ s₂ : Machine} {op : ScreenOp} (h : ScreenStep font s op s₁)
    (k : ScreenStep font s op s₂) : s₁ = s₂ := by
  cases h with
  | put hdrawn =>
      cases k with
      | put kdrawn => rw [Option.some.inj (hdrawn.symm.trans kdrawn)]
  | clear hcleared =>
      cases k with
      | clear kcleared => exact congrArg Outcome.state (hcleared.unique kcleared)

/-- A live machine runs on over any operations and shows what the page does. -/
theorem screenRun_live (readable : Readable font face) (tall : 2 * face.lineHeight ≤ sc.h)
    (ops : List ScreenOp) {s : Machine} {pg : Page} (h : Live face sc m₀ s pg) :
    (∃ s', ScreenRun font s ops s') ∧
      ∀ s', ScreenRun font s ops s' → Live face sc m₀ s' (pg.run face sc.w sc.h ops) := by
  induction ops generalizing s pg with
  | nil =>
      refine ⟨⟨s, .nil s⟩, ?_⟩
      intro s' hrun
      cases hrun
      exact h
  | cons op ops ih =>
      obtain ⟨s₁, hstep, hlive⟩ := screenStep_live readable tall h op
      obtain ⟨⟨s', hrest⟩, hall⟩ := ih hlive
      refine ⟨⟨s', .cons hstep hrest⟩, ?_⟩
      intro s'' hrun
      cases hrun with
      | cons kstep krest =>
          cases screenStep_unique hstep kstep
          exact hall s'' krest

end Runs

/-- From `consoleInit` on every sequence of characters and clears has a run, no step of it is
undefined, and what the screen shows in the end is the page that the same sequence makes of
the first picture; no byte outside the framebuffer has changed. -/
theorem console_shows_page {font : Font} {face : Face} (readable : Readable font face)
    {fb : LimineFramebuffer} {sc : Screen} (backs : Backs fb sc)
    (tall : 2 * face.lineHeight ≤ sc.h) (s : Machine) (ops : List ScreenOp) :
    ∃ s₀ s', (consoleInit fb).Returns s () s₀ ∧ ScreenRun font s₀ ops s' ∧
      ∀ s'', ScreenRun font s₀ ops s'' →
        Presents sc s.mem s''.canvas
          (Page.run face sc.w sc.h ⟨pictureOf sc s.mem, 0, 0, 0xff000000⟩ ops) := by
  have hlive : Live face sc s.mem (s.drawingOn fb) ⟨pictureOf sc s.mem, 0, 0, 0xff000000⟩ :=
    ⟨backs, consoleInit_presents backs s, Nat.zero_le _, Nat.zero_le _⟩
  obtain ⟨⟨s', hrun⟩, hall⟩ := screenRun_live readable tall ops hlive
  exact ⟨_, s', consoleInit_returns fb s, hrun, fun s'' h => (hall s'' h).presents⟩

/-- A record of one letter: a row of eight pixels, whose fragment stands at 32. -/
def letterRecord : CharRecord where
  type := 0
  n := 1
  w := 8
  h := 1
  x := 8
  y := 0
  descriptors := [0, 0, 32, 0, 0]
  notGap := by decide
  size := by decide

def letterTable : CharTable where
  entries := [(65, letterRecord)]
  sorted := by simp
  below := by simp

/-- The smallest font of the format that has an `A`. -/
def letterFont : Font :=
  bytes "SFN2" ++ List.replicate 7 0 ++ [1] ++ List.replicate 4 0 ++ [35, 0, 0, 0] ++
    List.replicate 12 0 ++ [0x80, 0, 0x18] ++ (letterTable.encode ++ [])

def letterShape : Shape := ⟨8, 1, 8, 0, [⟨0, [byteBits 0x18]⟩]⟩

def letterFace : Face where
  lineHeight := 1
  shape := fun unicode => if unicode = 65 then some letterShape else none
  linePos := by decide
  tabPos := by
    intro sh hsh
    rw [if_neg (by decide)] at hsh
    cases hsh

/-- The font in which each character of the table has that fragment. -/
def cellFont (t : CharTable) : Font :=
  bytes "SFN2" ++ List.replicate 7 0 ++ [1] ++ List.replicate 4 0 ++ [35, 0, 0, 0] ++
    List.replicate 12 0 ++ [0x80, 0, 0x18] ++ (t.encode ++ [])

def cellFace (t : CharTable) : Face where
  lineHeight := 1
  shape := fun unicode => (t.entries.lookup unicode.toNat).map fun _ => letterShape
  linePos := by decide
  tabPos := by
    intro sh hsh
    obtain ⟨_, -, rfl⟩ := Option.map_eq_some_iff.mp hsh
    decide

theorem cell_shapeAt {t : CharTable} {chr : Nat} (h : letterRecord.code <+: (cellFont t).drop chr) :
    ShapeAt (cellFont t) chr letterShape := by
  obtain ⟨rest, hcode⟩ := h
  have hbyte : ∀ k (hk : k < letterRecord.code.length),
      byte (cellFont t) (chr + k) = some letterRecord.code[k] :=
    fun k hk => byte_of_drop hcode.symm hk
  have hfragment : fragmentOffset (cellFont t) 0 (chr + 6) = some 32 := by
    have h₂ : byte (cellFont t) (chr + 6 + 2) = some 32 := hbyte 8 (by decide)
    have h₃ : byte (cellFont t) (chr + 6 + 3) = some 0 := hbyte 9 (by decide)
    have h₄ : byte (cellFont t) (chr + 6 + 4) = some 0 := hbyte 10 (by decide)
    rw [fragmentOffset, h₂, h₃, h₄]
    rfl
  have hstrip : StripAt (cellFont t) 32 [byteBits 0x18] := by
    refine ⟨⟨0x80, rfl, by decide, by decide⟩, ⟨0, rfl, rfl⟩, ?_⟩
    rw [bitsFrom_cons (b := 0x18) rfl, List.flatten_singleton]
    exact List.prefix_append _ _
  exact ⟨⟨8, hbyte 2 (by decide), rfl⟩, ⟨1, hbyte 3 (by decide), rfl⟩,
    ⟨8, hbyte 4 (by decide), rfl⟩, ⟨0, hbyte 5 (by decide), rfl⟩,
    0, 1, hbyte 0 (by decide), hbyte 1 (by decide),
    .strip (hbyte 6 (by decide)) (hbyte 7 (by decide)) (by decide) hfragment hstrip (.done _)⟩

theorem cellFont_readable {t : CharTable} (h : ∀ e ∈ t.entries, e.2 = letterRecord) :
    Readable (cellFont t) (cellFace t) := by
  have htable : (cellFont t).drop 35 = t.encode ++ [] := rfl
  refine readable_encode rfl ⟨1, rfl, rfl⟩ rfl htable ?_
  intro unicode
  cases hlookup : t.entries.lookup unicode.toNat with
  | none =>
      have hface : (cellFace t).shape unicode = none :=
        congrArg (Option.map fun _ => letterShape) hlookup
      rw [hface]
      exact .none
  | some r =>
      obtain ⟨before, behind, hentries, -⟩ := List.lookup_eq_some_iff.mp hlookup
      obtain rfl : r = letterRecord := h (unicode.toNat, r) (by simp [hentries])
      have hface : (cellFace t).shape unicode = some letterShape :=
        congrArg (Option.map fun _ => letterShape) hlookup
      rw [hface]
      exact .some fun chr => cell_shapeAt

theorem letterFont_readable : Readable letterFont letterFace := by
  have hoffs : word32 letterFont 16 = some 35 := rfl
  have htable : letterFont.drop 35 = letterTable.encode ++ [] := rfl
  refine readable_encode rfl ⟨1, rfl, rfl⟩ hoffs htable ?_
  intro unicode
  by_cases hletter : unicode = 65
  · subst hletter
    exact .some fun chr => cell_shapeAt (t := letterTable)
  · have hnat : (unicode.toNat == 65) = false := by
      rw [beq_eq_false_iff_ne]
      exact fun h => hletter (UInt32.toNat.inj h)
    have hlookup : letterTable.entries.lookup unicode.toNat = none := by
      rw [letterTable, List.lookup_cons, hnat]
      rfl
    have hface : letterFace.shape unicode = none := if_neg hletter
    rw [hlookup, hface]
    exact .none

/-- Two cells of eight pixels in each of four rows. -/
def cardScreen : Screen where
  base := 0x1000
  w := 16
  h := 4
  p := 64
  base_ne := by decide
  wide := by decide
  high := by decide
  aligned := by decide
  rowHolds := by decide
  pitch := by decide
  size := by decide

def cardFramebuffer : LimineFramebuffer := ⟨0x1000, 16, 4, 64⟩

theorem cardScreen_backs : Backs cardFramebuffer cardScreen := ⟨rfl, rfl, rfl, rfl⟩

theorem console_shows_page_letter :
    ∃ s₀ s', (consoleInit cardFramebuffer).Returns Machine.reset () s₀ ∧
      ScreenRun letterFont s₀ [.put ⟨65, 0xff⟩, .clear 7] s' ∧
      ∀ s'', ScreenRun letterFont s₀ [.put ⟨65, 0xff⟩, .clear 7] s'' →
        Presents cardScreen Machine.reset.mem s''.canvas
          (Page.run letterFace 16 4 ⟨pictureOf cardScreen Machine.reset.mem, 0, 0, 0xff000000⟩
            [.put ⟨65, 0xff⟩, .clear 7]) :=
  console_shows_page letterFont_readable cardScreen_backs (by decide) Machine.reset _

end BenchOS
