import LdbToolchain.Lib.Cells
import LdbToolchain.Tfg.Keyboard
import LdbToolchain.Tfg.Levels
import LdbToolchain.Tfg.Texts

/-!
# The flame-graph window on the screen

`draw` puts the texts of the frames on the window with `addstr`, which goes on in the next line when a
text is too long and ends in an error at the edge of the window. With a filler of one character no
text does that, and no two of them share a cell. So the screen shows the levels on display as they
are, and the line at the bottom stays. As in `Cells`, a character takes one cell: this is about names
without double-width characters, tabs and control characters.
-/

namespace LdbToolchain.Tfg

open LdbToolchain.Cells

/-- What a cell shows: a character, or a part of the line at the bottom. -/
inductive Glyph where
  | char (c : Char)
  | hline
  deriving DecidableEq

/-- A cell of the window, with the attributes of `Painted`. -/
structure Cell where
  glyph : Glyph
  (lighter standout : Bool)

namespace FlameGraphWindow

/-- The window after `clear` and `border`. -/
def border (win : FlameGraphWindow) : Grid Cell := fun row _ =>
  ⟨if row = win.height - 1 then .hline else .char ' ', false, false⟩

/-- The row of the screen on which a level is drawn. -/
def rowOfLevel (win : FlameGraphWindow) (k : Nat) : Int := win.height - 2 - (k - win.startLevel)

/-- The levels on display. -/
def Displays (win : FlameGraphWindow) (k : Nat) : Prop :=
  win.startLevel ≤ k ∧ (k : Int) ≤ win.topLevel

end FlameGraphWindow

/-- The argument of `addstr`. -/
def Painted.stamp (p : Painted) : Stamp Cell where
  y := p.y
  x := p.x
  text := p.text.map fun c => ⟨.char c, p.lighter, p.standout⟩

/-- `FlameGraphWindow.draw`; `none` when it ends in a `BrowserException`. -/
def FlameGraphWindow.drawOn (win : FlameGraphWindow) (tree : Rose VisualFrameNode)
    (currentVf : List Nat → Bool) : Option (Grid Cell) :=
  addstrs win.height win.width ((win.draw tree currentVf).map Painted.stamp) win.border

namespace TerminalBrowser

/-- The frame at this address of the current tree is the current one. -/
def isCurrent (b : TerminalBrowser) (address : List Nat) : Bool :=
  b.currentVf = .frame (b.vft.builds.length - 1) address

/-- The flame-graph window, drawn. -/
def screen (b : TerminalBrowser) : Option (Grid Cell) :=
  b.vft.current.bind fun tree => b.vfWin.drawOn tree b.isCurrent

end TerminalBrowser

/-! ## What is drawn -/

variable {tree : Rose VisualFrameNode} {win : FlameGraphWindow} {currentVf : List Nat → Bool}

/-- The frames drawn are those of the levels on display, each on the row of its level. -/
theorem mem_draw (hrows : RowsAreDepths tree) (hheight : 2 ≤ win.height)
    (hstart : 0 ≤ win.startLevel) {p : Painted} :
    p ∈ win.draw tree currentVf ↔ ∃ vf : Place, tree.subtree? vf.1 = some vf.2 ∧
      win.Displays vf.1.length ∧ vf.2.label.width ≠ 0 ∧
      p = drawFrame currentVf (win.rowOfLevel vf.1.length) vf := by
  obtain ⟨n, hlevels, hdepths⟩ := levelTraversal_eq hrows
  have hfirst : (win.firstLevel : Int) = win.startLevel := by
    rw [FlameGraphWindow.firstLevel]
    omega
  rw [draw_eq hrows hlevels hdepths, List.mem_flatMap]
  simp only [List.mem_filter, List.mem_range, decide_eq_true_eq, paintLevel, List.mem_map,
    mem_level, FlameGraphWindow.Displays, FlameGraphWindow.topLevel, FlameGraphWindow.rowOfLevel]
  constructor
  · rintro ⟨i, ⟨hi, hrow⟩, vf, ⟨⟨hs, hlength⟩, hwidth⟩, hp⟩
    refine ⟨vf, hs, ?_, hwidth, ?_⟩
    · omega
    · rw [← hp, hlength]
      congr 1
      omega
  · rintro ⟨vf, hs, hshown, hwidth, hp⟩
    have hle := (hdepths vf.1.length).mp ⟨vf.1, vf.2, hs, rfl⟩
    refine ⟨vf.1.length - win.firstLevel, ⟨by omega, by omega⟩, vf, ⟨⟨hs, by omega⟩, hwidth⟩, ?_⟩
    rw [hp]
    congr 1
    omega

/-- What the stamp of a frame has for a cell. -/
theorem at?_stamp_drawFrame (currentVf : List Nat → Bool) (y : Int) (vf : Place)
    (row column : Int) :
    (drawFrame currentVf y vf).stamp.at? row column
      = if row = y ∧ vf.2.label.x ≤ column then
          vf.2.label.text[(column - vf.2.label.x).toNat]?.map fun c =>
            ⟨.char c, vf.2.label.zoomed, currentVf vf.1⟩
        else none := by
  rw [Stamp.at?]
  show (if _ then (vf.2.label.text.map _)[_]? else none) = _
  rw [List.getElem?_map]
  rfl

/-- A picture that can be drawn: it is well laid out, and the texts have the widths of their
frames. -/
structure Drawable (canvas : Canvas) (tree : Rose VisualFrameNode) : Prop where
  laidOut : WellLaidOut canvas tree
  texts : tree.Everywhere TextFills

namespace Drawable

variable {canvas : Canvas} {p q : List Nat} {s u : Rose VisualFrameNode}

theorem length_text (h : Drawable canvas tree) (hs : tree.subtree? p = some s) :
    (s.label.text.length : Int) = s.label.width := (h.texts p s hs).1

/-- No frame leaves the columns of the canvas. -/
theorem columns (h : Drawable canvas tree) (hs : tree.subtree? p = some s) :
    canvas.x ≤ s.label.x ∧ s.label.x + s.label.width ≤ canvas.x + canvas.width := by
  obtain ⟨hx, hwidth⟩ := h.laidOut.root
  have hpos := h.laidOut.width_pos p s hs
  have hnested : tree.Everywhere fun a cs => ∀ c ∈ cs, c.label.span ⊆ a.span := by
    intro q u hu c hc x hx
    have hinside := h.laidOut.inside q u hu c hc
    exact ⟨hinside.1.trans hx.1, hx.2.trans_le hinside.2⟩
  have hsubset := Rose.region_subset hnested hs
  have hfirst := hsubset (show s.label.x ∈ s.label.span from ⟨le_rfl, by omega⟩)
  have hlast := hsubset
    (show s.label.x + s.label.width - 1 ∈ s.label.span from ⟨by omega, by omega⟩)
  have hfrom : tree.label.x ≤ s.label.x := hfirst.1
  have hto : s.label.x + s.label.width - 1 < tree.label.x + tree.label.width := hlast.2
  omega

/-- A frame covers a cell of its row exactly when the column is one of its own. -/
theorem covers_iff (h : Drawable canvas tree) (hs : tree.subtree? p = some s) (y row column : Int) :
    ((drawFrame currentVf y (p, s)).stamp.at? row column).isSome = true ↔
      row = y ∧ column ∈ s.label.span := by
  have hlength := h.length_text hs
  rw [Stamp.at?_isSome_iff]
  show row = y ∧ s.label.x ≤ column ∧ column < s.label.x + ((s.label.text.map _).length : Nat) ↔
    row = y ∧ s.label.x ≤ column ∧ column < s.label.x + s.label.width
  rw [List.length_map, hlength]

/-- Two frames that are drawn share no cell. -/
theorem eq_of_covers (h : Drawable canvas tree) (hs : tree.subtree? p = some s)
    (hu : tree.subtree? q = some u) {row column : Int}
    (hp : ((drawFrame currentVf (win.rowOfLevel p.length) (p, s)).stamp.at? row column).isSome = true)
    (hq : ((drawFrame currentVf (win.rowOfLevel q.length) (q, u)).stamp.at? row column).isSome
      = true) : p = q := by
  obtain ⟨hrow, hcolumn⟩ := (h.covers_iff hs _ _ _).mp hp
  obtain ⟨hrow', hcolumn'⟩ := (h.covers_iff hu _ _ _).mp hq
  by_contra hne
  have hlength : p.length = q.length := by
    rw [FlameGraphWindow.rowOfLevel] at hrow hrow'
    omega
  exact Set.disjoint_left.mp (h.laidOut.apart p q s u hs hu hlength hne) hcolumn hcolumn'

end Drawable

/-! ## The screen -/

/-- The window shows the levels on display of a picture, and nothing else above its last line. -/
structure ShowsPicture (win : FlameGraphWindow) (tree : Rose VisualFrameNode)
    (currentVf : List Nat → Bool) (screen : Grid Cell) : Prop where
  width : ∀ p s, tree.subtree? p = some s → (s.label.text.length : Int) = s.label.width
  text : ∀ p s, tree.subtree? p = some s → win.Displays p.length →
    ∀ (i : Nat) c, s.label.text[i]? = some c →
      screen (win.rowOfLevel p.length) (s.label.x + i)
        = ⟨.char c, s.label.zoomed, currentVf p⟩
  /-- The cells of no frame are as `border` left them. -/
  rest : ∀ row column, (∀ p s, tree.subtree? p = some s → win.Displays p.length →
      row = win.rowOfLevel p.length → column ∉ s.label.span) →
    screen row column = win.border row column

/-- **Drawing shows the picture**, without an error. -/
theorem drawOn_showsPicture {canvas : Canvas} (h : Drawable canvas tree)
    (hcanvas : canvas.x = 0 ∧ canvas.width = win.width) (hheight : 2 ≤ win.height)
    (hstart : 0 ≤ win.startLevel) (currentVf : List Nat → Bool) :
    ∃ screen, win.drawOn tree currentVf = some screen ∧
      ShowsPicture win tree currentVf screen := by
  obtain ⟨hx, hwidth⟩ := hcanvas
  have hmem : ∀ stamp, stamp ∈ (win.draw tree currentVf).map Painted.stamp ↔
      ∃ p s, tree.subtree? p = some s ∧ win.Displays p.length ∧
        stamp = (drawFrame currentVf (win.rowOfLevel p.length) (p, s)).stamp := by
    intro stamp
    rw [List.mem_map]
    constructor
    · rintro ⟨painted, hpainted, hstamp⟩
      obtain ⟨vf, hs, hshown, -, rfl⟩ := (mem_draw h.laidOut.depth hheight hstart).mp hpainted
      exact ⟨vf.1, vf.2, hs, hshown, hstamp.symm⟩
    · rintro ⟨p, s, hs, hshown, hstamp⟩
      have hpos := h.laidOut.width_pos p s hs
      exact ⟨_, (mem_draw h.laidOut.depth hheight hstart).mpr
        ⟨(p, s), hs, hshown, by simp only; omega, rfl⟩, hstamp.symm⟩
  have hfits : ∀ stamp ∈ (win.draw tree currentVf).map Painted.stamp,
      stamp.Fits win.height win.width := by
    intro stamp hstamp
    obtain ⟨p, s, hs, ⟨hlow, hhigh⟩, rfl⟩ := (hmem stamp).mp hstamp
    have hpos := h.laidOut.width_pos p s hs
    have hlength := h.length_text hs
    obtain ⟨hleft, hright⟩ := h.columns hs
    rw [FlameGraphWindow.topLevel] at hhigh
    constructor
    · show 0 ≤ win.rowOfLevel p.length
      rw [FlameGraphWindow.rowOfLevel]
      omega
    · show win.rowOfLevel p.length + 1 < win.height
      rw [FlameGraphWindow.rowOfLevel]
      omega
    · show 0 ≤ s.label.x ∧ s.label.x < win.width
      omega
    · show s.label.x + ((s.label.text.map _).length : Nat) ≤ win.width
      rw [List.length_map]
      omega
  have hagree : Agree ((win.draw tree currentVf).map Painted.stamp) := by
    intro stamp hstamp stamp' hstamp' row column a a' ha ha'
    obtain ⟨p, s, hs, -, rfl⟩ := (hmem stamp).mp hstamp
    obtain ⟨q, u, hu, -, rfl⟩ := (hmem stamp').mp hstamp'
    obtain rfl : p = q := h.eq_of_covers hs hu (by rw [ha]; rfl) (by rw [ha']; rfl)
    cases hs.symm.trans hu
    exact Option.some.inj (ha.symm.trans ha')
  obtain ⟨screen, hdraw, hshown, hrest⟩ := addstrs_spec hfits hagree win.border
  refine ⟨screen, hdraw, fun p s hs => h.length_text hs, ?_, ?_⟩
  · intro p s hs hdisplays i c hc
    apply hshown _ ((hmem _).mpr ⟨p, s, hs, hdisplays, rfl⟩)
    rw [at?_stamp_drawFrame, if_pos ⟨rfl, by simp⟩]
    simp [hc]
  · intro row column hnone
    apply hrest
    intro stamp hstamp
    obtain ⟨p, s, hs, hdisplays, rfl⟩ := (hmem stamp).mp hstamp
    rw [← Option.not_isSome_iff_eq_none, h.covers_iff hs]
    rintro ⟨hrow, hcolumn⟩
    exact hnone p s hs hdisplays hrow hcolumn

/-- A cell is highlighted when it shows the current frame. -/
theorem standout_iff {canvas : Canvas} (h : Drawable canvas tree) {screen : Grid Cell}
    (hshows : ShowsPicture win tree currentVf screen) :
    (∃ row column, (screen row column).standout = true) ↔
      ∃ p s, tree.subtree? p = some s ∧ win.Displays p.length ∧ currentVf p = true := by
  constructor
  · intro ⟨row, column, hstandout⟩
    by_contra hnone
    push Not at hnone
    by_cases hcovered : ∃ p s, tree.subtree? p = some s ∧ win.Displays p.length ∧
        row = win.rowOfLevel p.length ∧ column ∈ s.label.span
    · obtain ⟨p, s, hs, hdisplays, rfl, hleft, hright⟩ := hcovered
      have hlength := h.length_text hs
      have hindex : (column - s.label.x).toNat < s.label.text.length := by omega
      have hcell := hshows.text p s hs hdisplays _ _ (List.getElem?_eq_getElem hindex)
      rw [show s.label.x + ((column - s.label.x).toNat : Nat) = column by omega] at hcell
      rw [hcell] at hstandout
      exact hnone p s hs hdisplays hstandout
    · push Not at hcovered
      rw [hshows.rest row column hcovered] at hstandout
      cases hstandout
  · intro ⟨p, s, hs, hdisplays, hcurrent⟩
    have hlength := h.length_text hs
    have hpos := h.laidOut.width_pos p s hs
    have hindex : 0 < s.label.text.length := by omega
    refine ⟨win.rowOfLevel p.length, s.label.x + (0 : Nat), ?_⟩
    rw [hshows.text p s hs hdisplays 0 _ (List.getElem?_eq_getElem hindex)]
    exact hcurrent

namespace TerminalBrowser

open VisualFrameTree

variable {t : CallFrameTree} {b b' : TerminalBrowser}

theorem isCurrent_iff {address : List Nat} :
    b.isCurrent address = true ↔ b.currentVf = .frame (b.vft.builds.length - 1) address :=
  decide_eq_true_iff

/-- The current tree can be drawn, with a filler of one character. -/
theorem exists_drawable (hweighted : t.Weighted) (h : Coherent t b.vft) (hw : 1 ≤ b.vft.width)
    (hfiller : b.vft.wsFiller.length = 1) :
    ∃ tree, b.vft.current = some tree ∧ Drawable b.vft.toCanvas tree := by
  obtain ⟨before, cs, hcs, hadopt⟩ := h.zoomed
  have hcanvas : b.vft.toCanvas = before.toCanvas := by
    rw [hadopt]
    rfl
  have hgen := genealogical_zoomedTree before.toCanvas hcs
  rw [hcanvas] at hw hfiller ⊢
  refine ⟨zoomedTree t before.toCanvas cs, by rw [hadopt, current_adopt], ?_, ?_⟩
  · apply wellLaidOut_of_everywhere ?_ hgen.y hgen.sound
    · exact laidOut_zoomTree hweighted hw (headVf_shows t before.toCanvas) rfl rfl
        (stacked_zoomFrames before.toCanvas 1 cs) place_zoomFrames
    · rw [zoomedTree, label_zoomTree]
      exact ⟨rfl, rfl⟩
  · exact (textsFill_zoomTree_iff hweighted hw 0 0 cs).mpr (.inl hfiller)

/-- No key resizes the window or scrolls it below the head. -/
theorem vfWin_processInput {key : Key} (hinv : Inv t b) (h : b.processInput t key = some b') :
    b'.vfWin.height = b.vfWin.height ∧ b'.vfWin.width = b.vfWin.width ∧
      (0 ≤ b.vfWin.startLevel → 0 ≤ b'.vfWin.startLevel) := by
  obtain ⟨c, hstep, hinv', hfocus, helse⟩ := processInput_spec hinv key
  cases h.symm.trans hstep
  have hlevel := level_nonneg hinv'
  by_cases hw : b.winStack = [.status, .flameGraph]
  · have hmoves := hfocus hw
    cases key with
    | down =>
        obtain ⟨-, hwin⟩ := hmoves
        rw [hwin]
        refine ⟨rfl, rfl, fun hstart => ?_⟩
        dsimp only
        split <;> omega
    | up =>
        obtain ⟨-, hwin⟩ := hmoves
        rw [hwin]
        refine ⟨rfl, rfl, fun hstart => ?_⟩
        dsimp only
        split <;> omega
    | left | right =>
        obtain ⟨-, hwin, -⟩ := hmoves
        rw [hwin]
        exact ⟨rfl, rfl, id⟩
    | q | c | r | enter | other =>
        obtain ⟨-, hwin⟩ := hmoves
        rw [hwin]
        exact ⟨rfl, rfl, id⟩
  · rw [(helse hw).2]
    exact ⟨rfl, rfl, id⟩

theorem vfWin_run {keys : List Key} (hinv : Inv t b) (hrun : b.run t keys = some b') :
    b'.vfWin.height = b.vfWin.height ∧ b'.vfWin.width = b.vfWin.width ∧
      (0 ≤ b.vfWin.startLevel → 0 ≤ b'.vfWin.startLevel) := by
  induction keys generalizing b with
  | nil =>
      cases hrun
      exact ⟨rfl, rfl, id⟩
  | cons key keys ih =>
      rw [run, List.foldlM_cons, Option.bind_eq_bind, Option.bind_eq_some_iff] at hrun
      obtain ⟨c, hstep, hrun⟩ := hrun
      obtain ⟨hheight, hwidth, hstart⟩ := ih ((Leads.key hstep).inv hinv) hrun
      obtain ⟨hheight₁, hwidth₁, hstart₁⟩ := vfWin_processInput hinv hstep
      exact ⟨hheight.trans hheight₁, hwidth.trans hwidth₁, fun h => hstart (hstart₁ h)⟩

/-- The current frame is on display when its level is. -/
theorem onScreen_iff_displays (hinv : Inv t b) {tree : Rose VisualFrameNode}
    (htree : b.vft.current = some tree) :
    b.OnScreen ↔ ∃ p s, tree.subtree? p = some s ∧ b.vfWin.Displays p.length ∧
      b.isCurrent p = true := by
  obtain ⟨here, u, hat⟩ := hinv.current
  have hlevel : b.level = here.length := levelOf_at hinv.coherent hat
  obtain ⟨tree', htree', href, hu⟩ := hat
  cases htree.symm.trans htree'
  rw [OnScreen, hlevel]
  constructor
  · intro hon
    exact ⟨here, u, hu, hon, isCurrent_iff.mpr href⟩
  · rintro ⟨p, s, -, hdisplays, hcurrent⟩
    rw [isCurrent_iff, href, VfRef.frame.injEq] at hcurrent
    rw [hcurrent.2]
    exact hdisplays

/-- **What the screen shows.** For stacks with non-negative counts, names of one-cell characters, a
terminal of at least three lines and one column and a filler of one such character: in every state
that some keys lead to, drawing the flame-graph window ends in no error. The window shows the text
of every frame on display at its place, on its level's row and its own columns, blanks and the line
at the bottom elsewhere, and it highlights something exactly when the current frame is on display. -/
theorem screen_showsPicture {samples : List (List Str × Int)} (hnonneg : ∀ s ∈ samples, 0 ≤ s.2)
    {terminal : Terminal} (hlines : 3 ≤ terminal.lines) (hcols : 1 ≤ terminal.cols) (filler : Char)
    (keys : List Key) {b : TerminalBrowser}
    (hrun : (display (.ofSamples samples) terminal [filler]).bind
      (run (.ofSamples samples) · keys) = some b) :
    ∃ tree screen, b.vft.current = some tree ∧ b.screen = some screen ∧
      ShowsPicture b.vfWin tree b.isCurrent screen ∧
      ((∃ row column, (screen row column).standout = true) ↔ b.OnScreen) := by
  obtain ⟨hinv, hx, hwidth, hfiller⟩ := exists_area hrun
  have hwin : b.vfWin.height = terminal.lines - 1 ∧ b.vfWin.width = terminal.cols ∧
      0 ≤ b.vfWin.startLevel := by
    obtain ⟨start, hdisplay, hstart, -, hinit⟩ :=
      exists_display (.ofSamples samples) terminal [filler]
    rw [hdisplay, Option.bind_some] at hrun
    obtain ⟨hheight', hwidth', hstart'⟩ := vfWin_run hstart hrun
    rw [hinit] at hheight' hwidth' hstart'
    exact ⟨hheight', hwidth', hstart' le_rfl⟩
  obtain ⟨tree, htree, hdrawable⟩ := exists_drawable (ofSamples_weighted_of_nonneg hnonneg)
    hinv.coherent (by rw [hwidth]; exact hcols) (by rw [hfiller]; rfl)
  obtain ⟨screen, hdraw, hshows⟩ := drawOn_showsPicture hdrawable
    ⟨hx, hwidth.trans hwin.2.1.symm⟩ (by omega) hwin.2.2 b.isCurrent
  refine ⟨tree, screen, htree, ?_, hshows, ?_⟩
  · rw [TerminalBrowser.screen, htree]
    exact hdraw
  · rw [standout_iff hdrawable hshows, onScreen_iff_displays hinv htree]

theorem screen_showsPicture_threeStacks :
    ∃ b tree screen, display (.ofSamples threeStacks) ⟨10, 3⟩ [' '] = some b ∧
      b.vft.current = some tree ∧ b.screen = some screen ∧
      ShowsPicture b.vfWin tree b.isCurrent screen := by
  obtain ⟨b, hdisplay, -⟩ := exists_display (.ofSamples threeStacks) ⟨10, 3⟩ [' ']
  have hrun : (display (.ofSamples threeStacks) ⟨10, 3⟩ [' ']).bind
      (run (.ofSamples threeStacks) · []) = some b := by
    rw [hdisplay]
    rfl
  obtain ⟨tree, screen, htree, hscreen, hshows, -⟩ := screen_showsPicture
    (show ∀ s ∈ threeStacks, 0 ≤ s.2 by decide) (by decide) (by decide) ' ' [] hrun
  exact ⟨b, tree, screen, hdisplay, htree, hscreen, hshows⟩

end TerminalBrowser

end LdbToolchain.Tfg
