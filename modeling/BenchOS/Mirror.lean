import BenchOS.Commands
import BenchOS.ConsoleRuns
import BenchOS.Parametric

/-!
The kernel that draws beside the kernel that records. The two machines hold the same except
for the framebuffer, the pen, the record and the trace; and what the one has drawn is the
page that the characters of the other make.
-/
namespace BenchOS
open Prog Renderer

/-- `ssfn_putc` with the font, on a `char`. -/
def drawPutc (font : Font) (char : UInt8) : Kernel Unit := fun _ s =>
  match Renderer.ssfnPutc (some font) (unicodeOf char) s.canvas with
  | some (_, c) => some (.returned () (s.withCanvas c))
  | none => some (.stopped .undefined s)

/-- The machine with another canvas, record and trace. -/
def Machine.showing (s : Machine) (c : Canvas) (screen : List Glyph) (bus : List BusEvent) :
    Machine :=
  { s with mem := c.mem, ssfnDst := c.dst, screen := screen, bus := bus }

/-- The canvas shows the page and otherwise agrees with the machine; what is in `ram` apart
from the framebuffer is that of `base`. -/
structure Mirror (face : Face) (sc : Screen) (base : Mem Object) (pg : Page) (s : Machine)
    (c : Canvas) : Prop where
  backs : Backs s.globalFramebuffer sc
  presents : Presents sc c.mem c pg
  near : Near face sc pg
  fg : c.dst.fg = s.ssfnDst.fg
  mem : ∀ l : Location, l.obj ≠ .ram → c.mem l = s.mem l
  ram : ∀ l : Location, l.obj = .ram → ¬ sc.start.Covers (sc.p * sc.h) l → c.mem l = base l

/-- `t` is `s` with the page drawn. -/
def Mirrors (face : Face) (sc : Screen) (base : Mem Object) (pg : Page) (s t : Machine) : Prop :=
  ∃ c screen bus, t = s.showing c screen bus ∧ Mirror face sc base pg s c

/-- `t` is `s` with the page drawn that `pg` has become since `screen` had been sent. -/
def Since (face : Face) (sc : Screen) (base : Mem Object) (screen : List Glyph) (pg : Page)
    (s t : Machine) : Prop :=
  ∃ out, s.screen = screen ++ out ∧ Mirrors face sc base (pg.run face sc.w sc.h (puts out)) s t

theorem Page.run_append (face : Face) (w h : Nat) (pg : Page) (a b : List ScreenOp) :
    pg.run face w h (a ++ b) = (pg.run face w h a).run face w h b :=
  List.foldl_append

theorem Page.run_clear (face : Face) (w h : Nat) (pg : Page) (color : UInt32)
    (ops : List ScreenOp) :
    pg.run face w h (.clear color :: ops) = (Page.blank color).run face w h ops :=
  rfl

section Canvas
variable {sc : Screen} {m₀ m : Mem Object} {c : Canvas} {pg : Page}

theorem Renderer.Presents.here (h : Presents sc m₀ c pg) : Presents sc c.mem c pg :=
  ⟨h.tracks, h.painted.depicts, fun _ _ => rfl⟩

theorem Renderer.Presents.recolour (h : Presents sc m₀ c pg) (fg : UInt32) :
    Presents sc m₀ { c with dst := { c.dst with fg := fg } } pg :=
  ⟨⟨⟨h.tracks.on.ptr, h.tracks.on.width, h.tracks.on.height, h.tracks.on.pitch,
    h.tracks.on.solid⟩, ⟨h.tracks.pen.x, h.tracks.pen.y⟩, h.tracks.bg⟩, h.painted⟩

/-- What is outside `ram` is not on the screen. -/
theorem Renderer.Presents.elsewhere (h : Presents sc m₀ c pg)
    (same : ∀ l : Location, l.obj = .ram → m l = c.mem l) :
    Presents sc m { c with mem := m } pg := by
  refine ⟨h.tracks, fun x y hx hy i hi => ?_, fun _ _ => rfl⟩
  exact (same _ rfl).trans (h.painted.depicts x y hx hy i hi)

end Canvas

section Keeps
variable {font : Font} {face : Face} {sc : Screen} {base : Mem Object} {pg : Page}
  {s : Machine} {c : Canvas}

/-- Nothing in a mirror but the framebuffer, the colour and the memory is looked at. -/
theorem Mirror.congr (h : Mirror face sc base pg s c) {s' : Machine}
    (hfb : s'.globalFramebuffer = s.globalFramebuffer) (hfg : s'.ssfnDst.fg = s.ssfnDst.fg)
    (hmem : s'.mem = s.mem) : Mirror face sc base pg s' c where
  backs := hfb ▸ h.backs
  presents := h.presents
  near := h.near
  fg := h.fg.trans hfg.symm
  mem := hmem ▸ h.mem
  ram := h.ram

theorem Mirror.read (h : Mirror face sc base pg s c) {p : Pointer} (hp : p.Outside .ram) :
    c.mem.read p = s.mem.read p := by
  cases p with
  | loc l => exact congrArg some (h.mem l hp)
  | lit text i => rfl

theorem Mirror.store (h : Mirror face sc base pg s c) {l : Location} (hl : l.obj ≠ .ram)
    (v : UInt8) :
    Mirror face sc base pg { s with mem := Function.update s.mem l v }
      { c with mem := Function.update c.mem l v } := by
  have hother : ∀ l' : Location, l'.obj = .ram → Function.update c.mem l v l' = c.mem l' := by
    rintro l' hl'
    exact Function.update_of_ne (ne_of_apply_ne Loc.obj (hl' ▸ hl.symm)) _ _
  refine ⟨h.backs, h.presents.elsewhere hother, h.near, h.fg, ?_, ?_⟩
  · intro l' hl'
    show Function.update c.mem l v l' = Function.update s.mem l v l'
    by_cases hsame : l' = l
    · rw [hsame, Function.update_self, Function.update_self]
    · rw [Function.update_of_ne hsame, Function.update_of_ne hsame]
      exact h.mem l' hl'
  · intro l' hl' hout
    exact (hother l' hl').trans (h.ram l' hl' hout)

theorem Mirror.setFg (h : Mirror face sc base pg s c) (fg : UInt32) :
    Mirror face sc base pg { s with ssfnDst := { s.ssfnDst with fg := fg } }
      { c with dst := { c.dst with fg := fg } } :=
  ⟨h.backs, h.presents.recolour fg, h.near, rfl, h.mem, h.ram⟩

/-- A character is drawn where it is recorded. -/
theorem Mirror.put (readable : Readable font face) (tall : 2 * face.lineHeight ≤ sc.h)
    (h : Mirror face sc base pg s c) (char : UInt8) :
    ∃ code c', Renderer.ssfnPutc (some font) (unicodeOf char) c = some (code, c') ∧
      Mirror face sc base (pg.put face sc.w sc.h (unicodeOf char) s.ssfnDst.fg) s c' := by
  obtain ⟨code, c', hputc, hfg, hpresents, hnear⟩ :=
    ssfnPutc_presents readable tall h.near h.presents (unicodeOf char)
  rw [h.fg] at hpresents hnear
  refine ⟨code, c', hputc, h.backs, hpresents.here, hnear, hfg.trans h.fg, ?_, ?_⟩
  · intro l hl
    have hout : ¬ sc.start.Covers (sc.p * sc.h) l := fun hc => hl hc.1
    exact (hpresents.painted.outside l hout).trans (h.mem l hl)
  · intro l hl hout
    exact (hpresents.painted.outside l hout).trans (h.ram l hl hout)

end Keeps

section Clear
variable {face : Face} {sc : Screen} {base : Mem Object} {pg : Page} {s t : Machine}

theorem afterRows_fg (dst : SsfnBuf) (n : Nat) : (dst.afterRows n).fg = dst.fg := by
  rw [SsfnBuf.afterRows]
  split <;> rfl

/-- A clear leaves both machines with a blank page. -/
theorem Mirrors.clears (h : Mirrors face sc base pg s t) (color : UInt32) :
    ∃ s' t', (consoleClear color).Returns s () s' ∧ (consoleClear color).Returns t () t' ∧
      Paints s s' ∧ Mirrors face sc base (Page.blank color) s' t' := by
  obtain ⟨c, screen, bus, rfl, hmirror⟩ := h
  obtain ⟨t', hclear, hpresents, -⟩ :=
    consoleClear_presents (s := s.showing c screen bus) hmirror.backs color hmirror.presents
  obtain ⟨_, hclear₂, hdrawn⟩ := consoleClear_paints color (s.showing c screen bus)
  cases hclear.unique hclear₂
  obtain ⟨s', hclear', hpaints⟩ := consoleClear_paints color s
  refine ⟨s', t', hclear', hclear, hpaints, ?_⟩
  have hmem : ∀ l : Location, l.obj ≠ .ram → t'.mem l = s'.mem l := fun l hl =>
    (hdrawn.mem_eq hl).trans ((hmirror.mem l hl).trans (hpaints.mem_eq hl).symm)
  cases (consoleClear_returns color s).unique hclear'
  cases (consoleClear_returns color (s.showing c screen bus)).unique hclear
  refine ⟨_, screen, _, rfl, hmirror.backs, hpresents.here, near_blank color, ?_, hmem, ?_⟩
  · show (SsfnBuf.afterRows _ _).fg = (SsfnBuf.afterRows _ _).fg
    rw [afterRows_fg, afterRows_fg]
    exact hmirror.fg
  · intro l hl hout
    exact (hpresents.painted.outside l hout).trans (hmirror.ram l hl hout)

end Clear

section Run
variable {font : Font} {face : Face} {sc : Screen} {base : Mem Object} {screen : List Glyph}
  {pg : Page} (readable : Readable font face) (tall : 2 * face.lineHeight ≤ sc.h)
include readable tall

/-- The kernel that draws simulates the one that records. -/
theorem since_simulates :
    Simulates (fun _ => False) (Since face sc base screen pg) ssfnPutc (drawPutc font) where
  putc := by
    rintro char n s _ o ⟨out, hscreen, c, record, bus, rfl, hmirror⟩ ho _
    cases ho
    obtain ⟨code, c', hputc, hmirror'⟩ := hmirror.put readable tall char
    refine ⟨.returned () (s.showing c' record bus), .of_forall fun _ => ?_, .returned trivial ?_⟩
    · have hcanvas : (s.showing c record bus).canvas = c := rfl
      simp only [drawPutc, hcanvas, hputc]
      rfl
    · refine ⟨out ++ [⟨char, s.ssfnDst.fg⟩], ?_, c', record, bus, rfl, ?_⟩
      · simp [hscreen]
      · rw [puts_append, Page.run_append]
        exact hmirror'.congr rfl rfl rfl
  setFg := fun fg => follows_modify <| by
    rintro s _ ⟨out, hscreen, c, record, bus, rfl, hmirror⟩
    exact ⟨out, hscreen, _, record, bus, rfl, hmirror.setFg fg⟩
  load := by
    intro p hp
    refine follows_load ?_ ?_
    · rintro s _ ⟨out, hscreen, c, record, bus, rfl, hmirror⟩
      exact hmirror.read hp
    · rintro s _ ⟨out, hscreen, c, record, bus, rfl, hmirror⟩
      exact ⟨out, hscreen, c, record, _, rfl, hmirror.congr rfl rfl rfl⟩
  store := fun l v hl => follows_modify <| by
    rintro s _ ⟨out, hscreen, c, record, bus, rfl, hmirror⟩
    exact ⟨out, hscreen, _, record, _, rfl, (hmirror.store hl v).congr rfl rfl rfl⟩
  indeterminate := by
    rintro n s _ o ⟨out, hscreen, c, record, bus, rfl, hmirror⟩ ho _
    cases ho
    refine ⟨_, .of_forall fun _ => rfl, .returned trivial ?_⟩
    exact ⟨out, hscreen, c, record, bus, rfl, hmirror.congr rfl rfl rfl⟩
  portRead := by
    rintro port n s _ o ⟨out, hscreen, c, record, bus, rfl, hmirror⟩ ho _
    have hsame : (s.showing c record bus).samples = s.samples := rfl
    rw [portRead] at ho
    cases hs : s.samples port with
    | nil =>
        rw [hs] at ho
        cases ho
        refine ⟨_, .of_forall fun _ => by simp only [portRead, hsame, hs]; rfl, .stopped ?_⟩
        exact ⟨out, hscreen, c, record, bus, rfl, hmirror⟩
    | cons v rest =>
        rw [hs] at ho
        cases ho
        refine ⟨_, .of_forall fun _ => by simp only [portRead, hsame, hs]; rfl,
          .returned trivial ?_⟩
        exact ⟨out, hscreen, c, record, _, rfl, hmirror.congr rfl rfl rfl⟩
  note := fun how => follows_modify <| by
    rintro s _ ⟨out, hscreen, c, record, bus, rfl, hmirror⟩
    have htext : c.mem.textOf input 257 = s.mem.textOf input 257 := by
      simp only [Mem.textOf, hmirror.mem (input.add _) input_notRam]
    refine ⟨out, hscreen, c, record, bus, ?_, hmirror.congr rfl rfl rfl⟩
    show { s.showing c record bus with handled := s.handled ++ [how (c.mem.textOf input 257)] } = _
    rw [htext]
    rfl
  globalFg := by
    rintro s _ ⟨out, hscreen, c, record, bus, rfl, hmirror⟩
    rfl

variable {s s' t : Machine} {α : Type} {c d : Kernel α}

/-- What the one kernel prints and returns with, the other draws and returns with. -/
theorem Mirrors.returns (h : Mirrors face sc base pg s t)
    (hcd : Simulates (fun _ => False) (Since face sc base s.screen pg) ssfnPutc (drawPutc font) →
      Mimics (fun _ => False) (Since face sc base s.screen pg) c d) {a : α} (hc : c.Returns s a s')
    {out : List Glyph} (hout : s'.screen = s.screen ++ out) :
    ∃ t', d.Returns t a t' ∧ Mirrors face sc base (pg.run face sc.w sc.h (puts out)) s' t' := by
  obtain ⟨t', hd, out', hscreen, hmirrors⟩ :=
    (hcd (since_simulates readable tall)).returns ⟨[], (List.append_nil _).symm, h⟩ hc
  obtain rfl : out = out' := List.append_cancel_left (hout.symm.trans hscreen)
  exact ⟨t', hd, hmirrors⟩

theorem Mirrors.stops (h : Mirrors face sc base pg s t)
    (hcd : Simulates (fun _ => False) (Since face sc base s.screen pg) ssfnPutc (drawPutc font) →
      Mimics (fun _ => False) (Since face sc base s.screen pg) c d) {e : Halt} (hc : c.Stops s e s')
    {out : List Glyph} (hout : s'.screen = s.screen ++ out) :
    ∃ t', d.Stops t e t' ∧ Mirrors face sc base (pg.run face sc.w sc.h (puts out)) s' t' := by
  obtain ⟨t', hd, out', hscreen, hmirrors⟩ :=
    (hcd (since_simulates readable tall)).stops ⟨[], (List.append_nil _).symm, h⟩ hc id
  obtain rfl : out = out' := List.append_cancel_left (hout.symm.trans hscreen)
  exact ⟨t', hd, hmirrors⟩

end Run
end BenchOS
