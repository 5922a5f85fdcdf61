import LdbToolchain.Lib.Cells
import LdbToolchain.Lib.PyStr
import LdbToolchain.Tfg.Consistent

/-!
# The menu of combined frames

The menu shows a slice of the combined frames and selects one of them. The keys for up and down move
the selection, and the slice when the selection leaves it; `Scrolled` is what they keep, so the
selected entry is always in the slice. `draw` makes a row for each entry of the slice and puts its
strings on the window, where each `addstr` may end in an error.
-/

namespace LdbToolchain.Tfg

open LdbToolchain.Cells

/-! ## Drawing -/

/-- A string put on the screen, in one of the styles of the menu. -/
structure Addstr where
  (y x : Int)
  text : Str

/-- The attributes of the strings: none, `palette.normal` and `A_STANDOUT`. -/
inductive Style where
  | plain
  | normal
  | standout
  deriving DecidableEq

/-- A cell of the menu's window. -/
structure MenuCell where
  char : Char
  style : Style

/-- The arguments of `addstr`. -/
def Addstr.stamp (s : Addstr) (style : Style) : Stamp MenuCell where
  y := s.y
  x := s.x
  text := s.text.map fun c => ⟨c, style⟩

/-- `'{:>{width}}'`, of a number. -/
def alignRight (n width : Int) : Str :=
  List.replicate (width - (Py.str n).length).toNat ' ' ++ Py.str n

/-- An index of a slice, from the end when it is negative. -/
def sliceIndex (length : Nat) (i : Int) : Nat := (if i < 0 then length + i else i).toNat

/-- `l[start:stop]`. -/
def slice {α : Type} (l : List α) (start stop : Int) : List α :=
  (l.take (sliceIndex l.length stop)).drop (sliceIndex l.length start)

/-- What `draw` puts on the screen for one of the combined frames. -/
structure MenuRow where
  vf : VisualFrame
  numberString : Str
  /-- The number and the name. -/
  name : Addstr
  /-- The part of the name that is coloured. -/
  colorName : Addstr
  /-- The number of the selected frame, in `A_STANDOUT`. -/
  highlight : Option Addstr

/-- The strings of a row, in the order `draw` puts them on the window. -/
def MenuRow.stamps (row : MenuRow) : List (Stamp MenuCell) :=
  row.name.stamp .plain :: row.colorName.stamp .normal ::
    (row.highlight.map (·.stamp .standout)).toList

namespace SelectVisualFrameWindow

/-- The body of the loop of `draw`, for a frame that shows the call frame `cf`. -/
def drawRow (t : CallFrameTree) (wsFiller : Str) (win : SelectVisualFrameWindow) (count y : Int)
    (vf : VisualFrame) (cf : Nat) : MenuRow :=
  let x := borderSize / 2
  let numberString := alignRight (y + win.displayFrom) win.numberSize ++ ['.']
  let name := numberString ++ [' '] ++ (t.node cf).name
  -- the part of the string to colour shows the impact
  let width := calculateWidth vf.count count (win.width - win.prefixSize - borderSize)
  let colorName := fitString (t.node cf).name width wsFiller
  { vf
    numberString
    name := ⟨y, x, fitString name (win.width - borderSize) [' ']⟩
    colorName := ⟨y, win.prefixSize + 1, colorName⟩
    highlight :=
      if (win.current : Int) = y + win.displayFrom - 1 then
        some ⟨y, 1, fitString numberString win.numberSize [' ']⟩
      else none }

/-- The loop of `draw`; `none` when a name is asked for that is not there. -/
def drawRows (t : CallFrameTree) (wsFiller : Str) (win : SelectVisualFrameWindow) (count : Int) :
    Int → List VisualFrame → Option (List MenuRow)
  | _, [] => some []
  | y, vf :: vfs => do
    let cf ← vf.cf
    let rows ← drawRows t wsFiller win count (y + 1) vfs
    return drawRow t wsFiller win count y vf cf :: rows

/-- All rows. -/
def rows (t : CallFrameTree) (vft : VisualFrameTree) (win : SelectVisualFrameWindow) :
    Option (List MenuRow) := do
  let vf ← vft.vf win.vf
  drawRows t vft.wsFiller win vf.count (borderSize / 2)
    (slice (vft.combinedFrames win.vf) win.displayFrom win.displayTo)

/-- `SelectVisualFrameWindow.draw`, on a window that shows `cells` after `box`; `none` when it ends in
an error, of a missing name or of an `addstr`. -/
def draw (t : CallFrameTree) (vft : VisualFrameTree) (win : SelectVisualFrameWindow)
    (cells : Grid MenuCell) : Option (Grid MenuCell) := do
  let rows ← win.rows t vft
  addstrs win.height win.width (rows.flatMap MenuRow.stamps) cells

/-! ## Scrolling -/

/-- The menu of `n` combined frames on a terminal: its size, and what scrolling keeps. -/
structure Scrolled (n : Nat) (terminal : Terminal) (win : SelectVisualFrameWindow) : Prop where
  height : win.height = min (n + borderSize) terminal.lines
  numberSize : win.numberSize = (toString win.height).length
  prefixSize : win.prefixSize = win.numberSize + 2
  /-- Wide enough for the longest name, if the terminal is. -/
  width : ∃ longest : Nat, win.width = min (longest + borderSize + win.prefixSize) terminal.cols
  from_nonneg : 0 ≤ win.displayFrom
  from_le : win.displayFrom ≤ win.current
  lt_to : (win.current : Int) < win.displayTo
  to_le : win.displayTo ≤ n
  /-- The slice fills the window. -/
  inner : win.displayTo - win.displayFrom = win.height - borderSize

variable {n : Nat} {terminal : Terminal} {win : SelectVisualFrameWindow}

/-- A new menu. -/
theorem scrolled_init {t : CallFrameTree} {vf : VfRef} {combinedFrames : List VisualFrame}
    (hlines : 3 ≤ terminal.lines) (hne : combinedFrames ≠ [])
    (h : init t terminal vf combinedFrames = some win) :
    Scrolled combinedFrames.length terminal win := by
  have hpos := List.length_pos_of_ne_nil hne
  simp only [init, Option.bind_eq_bind, Option.bind_eq_some_iff, Option.pure_def,
    Option.some.injEq] at h
  obtain ⟨names, -, longest, -, rfl⟩ := h
  have hborder : borderSize = 2 := rfl
  refine ⟨rfl, rfl, rfl, ⟨longest, rfl⟩, le_rfl, le_rfl, ?_, ?_, ?_⟩ <;> dsimp only <;> omega

/-- The selection goes down by one, unless it is on the last entry, and takes the slice along. -/
def down (n : Nat) (win : SelectVisualFrameWindow) : SelectVisualFrameWindow :=
  let current := if (win.current : Int) < n - 1 then win.current + 1 else win.current
  if (current : Int) ≥ win.displayTo then
    { win with current, displayFrom := win.displayFrom + 1, displayTo := win.displayTo + 1 }
  else { win with current }

/-- The selection goes up by one, unless it is on the first entry, and takes the slice along. -/
def up (win : SelectVisualFrameWindow) : SelectVisualFrameWindow :=
  let current := if win.current > 0 then win.current - 1 else win.current
  if (current : Int) < win.displayFrom then
    { win with current, displayFrom := win.displayFrom - 1, displayTo := win.displayTo - 1 }
  else { win with current }

/-- A move of the selection and the slice. -/
theorem Scrolled.move (h : Scrolled n terminal win) {current : Nat} {displayFrom displayTo : Int}
    (hfrom : 0 ≤ displayFrom) (hle : displayFrom ≤ current) (hlt : (current : Int) < displayTo)
    (hto : displayTo ≤ n)
    (hinner : displayTo - displayFrom = win.displayTo - win.displayFrom) :
    Scrolled n terminal { win with current, displayFrom, displayTo } where
  height := h.height
  numberSize := h.numberSize
  prefixSize := h.prefixSize
  width := h.width
  from_nonneg := hfrom
  from_le := hle
  lt_to := hlt
  to_le := hto
  inner := hinner.trans h.inner

theorem Scrolled.down (h : Scrolled n terminal win) : Scrolled n terminal (win.down n) := by
  have hle := h.from_le
  have hlt := h.lt_to
  have hto := h.to_le
  have hfrom := h.from_nonneg
  obtain ⟨current, hcurrent⟩ : ∃ current, current
      = if (win.current : Int) < n - 1 then win.current + 1 else win.current := ⟨_, rfl⟩
  have hbounds : win.current ≤ current ∧ current ≤ win.current + 1 ∧ (current : Int) < n := by
    rw [hcurrent]
    split <;> omega
  rw [SelectVisualFrameWindow.down, ← hcurrent]
  by_cases hleaves : (current : Int) ≥ win.displayTo
  · rw [if_pos hleaves]
    exact h.move (by omega) (by omega) (by omega) (by omega) (by omega)
  · rw [if_neg hleaves]
    exact h.move hfrom (by omega) (by omega) hto rfl

theorem vf_down (n : Nat) (win : SelectVisualFrameWindow) : (win.down n).vf = win.vf :=
  (apply_ite SelectVisualFrameWindow.vf _ _ _).trans (ite_self _)

theorem vf_up (win : SelectVisualFrameWindow) : win.up.vf = win.vf :=
  (apply_ite SelectVisualFrameWindow.vf _ _ _).trans (ite_self _)

theorem Scrolled.up (h : Scrolled n terminal win) : Scrolled n terminal win.up := by
  have hle := h.from_le
  have hlt := h.lt_to
  have hto := h.to_le
  have hfrom := h.from_nonneg
  obtain ⟨current, hcurrent⟩ : ∃ current, current
      = if win.current > 0 then win.current - 1 else win.current := ⟨_, rfl⟩
  have hbounds : current ≤ win.current ∧ win.current ≤ current + 1 := by
    rw [hcurrent]
    split <;> omega
  rw [SelectVisualFrameWindow.up, ← hcurrent]
  by_cases hleaves : (current : Int) < win.displayFrom
  · rw [if_pos hleaves]
    exact h.move (by omega) (by omega) (by omega) (by omega) (by omega)
  · rw [if_neg hleaves]
    exact h.move hfrom (by omega) (by omega) hto rfl

/-! ## What is on display -/

theorem slice_eq {α : Type} {l : List α} {start stop : Int} (hstart : 0 ≤ start)
    (hstop : 0 ≤ stop) : slice l start stop = (l.take stop.toNat).drop start.toNat := by
  rw [slice, sliceIndex, sliceIndex, if_neg (by omega), if_neg (by omega)]

/-- The rows made for a list of frames that have names. -/
theorem drawRows_spec (t : CallFrameTree) (wsFiller : Str) (win : SelectVisualFrameWindow)
    (count y : Int) {vfs : List VisualFrame} (hvfs : ∀ vf ∈ vfs, vf.cf.isSome = true) :
    ∃ rows, drawRows t wsFiller win count y vfs = some rows ∧ rows.length = vfs.length ∧
      ∀ (i : Nat) row, rows[i]? = some row → ∃ vf cf, vfs[i]? = some vf ∧ vf.cf = some cf ∧
        row = drawRow t wsFiller win count (y + i) vf cf := by
  induction vfs generalizing y with
  | nil => exact ⟨[], rfl, rfl, fun i row hrow => absurd hrow (by simp)⟩
  | cons vf vfs ih =>
      obtain ⟨hvf, hrest⟩ := List.forall_mem_cons.mp hvfs
      obtain ⟨cf, hcf⟩ := Option.isSome_iff_exists.mp hvf
      obtain ⟨rows, hrows, hlength, hspec⟩ := ih (y + 1) hrest
      refine ⟨drawRow t wsFiller win count y vf cf :: rows, ?_, congrArg Nat.succ hlength, ?_⟩
      · rw [drawRows, hcf, hrows]
        rfl
      · intro i row hrow
        cases i with
        | zero =>
            cases hrow
            exact ⟨vf, cf, rfl, hcf, by rw [Nat.cast_zero, Int.add_zero]⟩
        | succ i =>
            obtain ⟨vf', cf', hvf', hcf', rfl⟩ := hspec i row hrow
            refine ⟨vf', cf', hvf', hcf', ?_⟩
            rw [Int.add_assoc, Int.add_comm 1, Nat.cast_succ]

/-- **The rows of a menu**: the entries of its slice, one on each row. -/
theorem rows_spec {t : CallFrameTree} {vft : VisualFrameTree} {vf : VisualFrame}
    (h : Scrolled (vft.combinedFrames win.vf).length terminal win) (hvf : vft.vf win.vf = some vf)
    (hmembers : ∀ m ∈ vft.combinedFrames win.vf, m.cf.isSome = true) :
    ∃ rows, win.rows t vft = some rows ∧ (rows.length : Int) = win.height - borderSize ∧
      ∀ (i : Nat) row, rows[i]? = some row → ∃ m cf,
        (vft.combinedFrames win.vf)[win.displayFrom.toNat + i]? = some m ∧ m.cf = some cf ∧
        row = drawRow t vft.wsFiller win vf.count (1 + i) m cf := by
  have hfrom := h.from_nonneg
  have hle := h.from_le
  have hlt := h.lt_to
  have hto := h.to_le
  have hslice := slice_eq (l := vft.combinedFrames win.vf) hfrom (show 0 ≤ win.displayTo by omega)
  have hshown : ∀ m ∈ slice (vft.combinedFrames win.vf) win.displayFrom win.displayTo,
      m.cf.isSome = true := by
    rw [hslice]
    intro m hm
    exact hmembers m (List.mem_of_mem_take (List.mem_of_mem_drop hm))
  obtain ⟨rows, hrows, hlength, hspec⟩ := drawRows_spec t vft.wsFiller win vf.count
    (borderSize / 2) hshown
  refine ⟨rows, ?_, ?_, ?_⟩
  · rw [SelectVisualFrameWindow.rows, hvf]
    exact hrows
  · rw [hlength, hslice, List.length_drop, List.length_take, ← h.inner]
    omega
  · intro i row hrow
    obtain ⟨m, cf, hm, hcf, rfl⟩ := hspec i row hrow
    refine ⟨m, cf, ?_, hcf, rfl⟩
    rw [hslice, List.getElem?_drop, List.getElem?_take] at hm
    split at hm
    next => exact hm
    next => cases hm

end SelectVisualFrameWindow

namespace TerminalBrowser

open VisualFrameTree SelectVisualFrameWindow

variable {t : CallFrameTree} {b b' : TerminalBrowser} {win : SelectVisualFrameWindow}

/-! ## Keys -/

theorem processInput_down (hlast : b.winStack.getLast? = some (.select win)) :
    b.processInput t .down
      = some (b.update (win.down (b.vft.combinedFrames win.vf).length)) := by
  rw [processInput, hlast]
  exact (apply_ite (fun win => some (b.update win)) _ _ _).symm

theorem processInput_up (hlast : b.winStack.getLast? = some (.select win)) :
    b.processInput t .up = some (b.update win.up) := by
  rw [processInput, hlast]
  exact (apply_ite (fun win => some (b.update win)) _ _ _).symm

/-- An open menu is scrolled as it should be. -/
def MenuScrolled (b : TerminalBrowser) : Prop :=
  ∀ win, b.winStack.getLast? = some (.select win) →
    Scrolled (b.vft.combinedFrames win.vf).length b.terminal win

theorem menuScrolled_of_ne (h : ∀ win, b.winStack.getLast? ≠ some (.select win)) :
    MenuScrolled b := fun win hlast => absurd hlast (h win)

theorem getLast?_update (b : TerminalBrowser) (win : SelectVisualFrameWindow) :
    (b.update win).winStack.getLast? = some (.select win) := List.getLast?_concat ..

theorem menuScrolled_update {win' : SelectVisualFrameWindow} (hvf : win'.vf = win.vf)
    (h : Scrolled (b.vft.combinedFrames win.vf).length b.terminal win') :
    MenuScrolled (b.update win') := by
  intro win'' hlast
  rw [getLast?_update] at hlast
  cases hlast
  rw [← hvf] at h
  exact h

/-- Opening a menu. -/
theorem menuScrolled_open {combinedFrames : List VisualFrame} (hlines : 3 ≤ b.terminal.lines)
    (hcombined : b.vft.combinedFrames b.currentVf = combinedFrames) (hne : combinedFrames ≠ [])
    (hinit : SelectVisualFrameWindow.init t b.terminal b.currentVf combinedFrames = some win) :
    MenuScrolled { b with winStack := b.winStack ++ [.select win] } := by
  intro win' hlast
  rw [List.getLast?_concat] at hlast
  cases hlast
  have hvf : win.vf = b.currentVf := by
    simp only [SelectVisualFrameWindow.init, Option.bind_eq_bind, Option.bind_eq_some_iff,
      Option.pure_def, Option.some.injEq] at hinit
    obtain ⟨names, -, longest, -, rfl⟩ := hinit
    rfl
  show Scrolled (b.vft.combinedFrames win.vf).length b.terminal win
  rw [hvf, hcombined]
  exact scrolled_init hlines hne hinit

/-- A key for the flame-graph window opens a menu, or leaves no menu open. -/
theorem menuScrolled_flameGraph (hlines : 3 ≤ b.terminal.lines)
    (hwindows : b.winStack = [.status, .flameGraph]) {key : Key}
    (hstep : b.flameGraphInput t key = some b') :
    MenuScrolled b' ∧ b'.terminal = b.terminal := by
  have hnone : ∀ c : TerminalBrowser, c.winStack = b.winStack → MenuScrolled c := by
    intro c hc
    apply menuScrolled_of_ne
    intro win hlast
    rw [hc, hwindows] at hlast
    cases hlast
  rcases flameGraphInput_cases hstep with
    ⟨currentVf, vfWin, rfl⟩ | rfl | ⟨op, hrebuild, -⟩ | ⟨win, hne, hinit, rfl⟩
  · exact ⟨hnone _ rfl, rfl⟩
  · refine ⟨menuScrolled_of_ne ?_, rfl⟩
    intro win hlast
    rw [pop, hwindows] at hlast
    cases hlast
  · obtain ⟨vft, -, rfl⟩ := rebuild_eq_some.mp hrebuild
    exact ⟨hnone _ rfl, rfl⟩
  · exact ⟨menuScrolled_open hlines rfl hne hinit, rfl⟩

/-- A key for the menu scrolls it, or closes it. -/
theorem menuScrolled_select (h : MenuScrolled b)
    (hwindows : b.winStack = [.status, .flameGraph, .select win]) {key : Key}
    (hstep : b.selectInput t win key = some b') :
    MenuScrolled b' ∧ b'.terminal = b.terminal := by
  have hlast : b.winStack.getLast? = some (.select win) := by
    rw [hwindows]
    rfl
  have hscrolled := h win hlast
  have hclosed : ∀ c : TerminalBrowser, c.winStack = b.winStack → MenuScrolled c.pop := by
    intro c hc
    apply menuScrolled_of_ne
    intro win hlast
    rw [pop, hc, hwindows] at hlast
    cases hlast
  have hprocess : b.processInput t key = some b' := by
    rw [processInput, hlast]
    exact hstep
  cases key with
  | q =>
      cases hstep
      exact ⟨hclosed b rfl, rfl⟩
  | down =>
      rw [processInput_down hlast] at hprocess
      cases hprocess
      exact ⟨menuScrolled_update (vf_down _ win) hscrolled.down, rfl⟩
  | up =>
      rw [processInput_up hlast] at hprocess
      cases hprocess
      exact ⟨menuScrolled_update (vf_up win) hscrolled.up, rfl⟩
  | enter =>
      rcases selectInput_cases hstep with ⟨hkey, -⟩ | ⟨-, build, address, c, -, hrebuild, rfl⟩
      · exact absurd rfl hkey
      · obtain ⟨vft, -, rfl⟩ := rebuild_eq_some.mp hrebuild
        exact ⟨hclosed _ rfl, rfl⟩
  | c | r | left | right | other =>
      cases hstep
      exact ⟨h, rfl⟩

/-- **One key** keeps an open menu scrolled as it should be. -/
theorem menuScrolled_step (hinv : Inv t b) (h : MenuScrolled b) (hlines : 3 ≤ b.terminal.lines)
    {key : Key} (hstep : b.processInput t key = some b') :
    MenuScrolled b' ∧ b'.terminal = b.terminal := by
  rcases hinv.processInput_cases hstep with
    ⟨-, rfl⟩ | ⟨hw, rfl⟩ | ⟨hw, hstep⟩ | ⟨win, hw, -, hstep⟩
  · exact ⟨h, rfl⟩
  · refine ⟨menuScrolled_of_ne ?_, rfl⟩
    intro win hlast
    rw [pop, hw] at hlast
    cases hlast
  · exact menuScrolled_flameGraph hlines hw hstep
  · exact menuScrolled_select h hw hstep

/-- **Every run** does. -/
theorem menuScrolled_run (hinv : Inv t b) (h : MenuScrolled b) (hlines : 3 ≤ b.terminal.lines)
    {keys : List Key} (hrun : b.run t keys = some b') :
    Inv t b' ∧ MenuScrolled b' ∧ b'.terminal = b.terminal := by
  induction keys generalizing b with
  | nil =>
      cases hrun
      exact ⟨hinv, h, rfl⟩
  | cons key keys ih =>
      rw [run, List.foldlM_cons, Option.bind_eq_bind, Option.bind_eq_some_iff] at hrun
      obtain ⟨c, hstep, hrun⟩ := hrun
      obtain ⟨c', hstep', hinv', -⟩ := processInput_spec hinv key
      rw [hstep] at hstep'
      cases hstep'
      obtain ⟨hmenu, hterminal⟩ := menuScrolled_step hinv h hlines hstep
      obtain ⟨hinv', hmenu', hterminal'⟩ := ih hinv' hmenu (hterminal ▸ hlines) hrun
      exact ⟨hinv', hmenu', hterminal'.trans hterminal⟩

/-- In every reachable state an open menu is scrolled as it should be. -/
theorem exists_menu {terminal : Terminal} (hlines : 3 ≤ terminal.lines) {wsFiller : Str}
    {keys : List Key} (hrun : (display t terminal wsFiller).bind (run t · keys) = some b) :
    Inv t b ∧ MenuScrolled b ∧ b.terminal = terminal := by
  obtain ⟨start, hdisplay, hrun⟩ := Option.bind_eq_some_iff.mp hrun
  obtain ⟨start', hdisplay', hinv, -⟩ := exists_display t terminal wsFiller
  rw [hdisplay] at hdisplay'
  cases hdisplay'
  have hstart : start.winStack = [.status, .flameGraph] ∧ start.terminal = terminal := by
    simp only [display, Option.bind_eq_bind, Option.bind_eq_some_iff, Option.pure_def,
      Option.some.injEq] at hdisplay
    obtain ⟨vft, -, rfl⟩ := hdisplay
    exact ⟨rfl, rfl⟩
  have hclosed : MenuScrolled start := by
    apply menuScrolled_of_ne
    intro win hlast
    rw [hstart.1] at hlast
    cases hlast
  obtain ⟨hinv, hmenu, hterminal⟩ := menuScrolled_run hinv hclosed (hstart.2 ▸ hlines) hrun
  exact ⟨hinv, hmenu, hterminal.trans hstart.2⟩

/-! ## The selected entry -/

/-- What an open menu refers to. -/
theorem Inv.menu (h : Inv t b) (hopen : b.winStack.getLast? = some (.select win)) :
    b.winStack = [.status, .flameGraph, .select win] ∧ b.Menu win ∧
      ∃ address s, b.vft.At win.vf address s ∧
        ∀ m ∈ b.vft.combinedFrames win.vf, m.cf.isSome = true := by
  rcases h.windows with hw | hw | hw | ⟨win', hw, hmenu⟩ <;> rw [hw] at hopen <;> cases hopen
  obtain ⟨address, s, hat⟩ := h.current
  have hcombined := hat.combinedFrames
  refine ⟨hw, hmenu, address, s, by rw [hmenu.1]; exact hat, ?_⟩
  intro m hm
  rw [hmenu.1, hcombined] at hm
  obtain ⟨tree, htree, -, hs⟩ := hat
  obtain ⟨f, ⟨hf, -⟩, -⟩ := member_lineage (h.coherent.genealogical_current htree) hs hm
  rw [hf]
  rfl

/-- Enter zooms into the selected entry and closes the menu. -/
theorem enter_select (h : Inv t b) (hopen : b.winStack.getLast? = some (.select win))
    {m : VisualFrame} (hm : (b.vft.combinedFrames win.vf)[win.current]? = some m) :
    ∃ b', b.processInput t .enter = some b' ∧ b'.vft.cf b'.currentVf = m.cf ∧
      b'.winStack = [.status, .flameGraph] := by
  obtain ⟨hw, -, address, s, hat, hmembers⟩ := h.menu hopen
  obtain ⟨f, hf⟩ := Option.isSome_iff_exists.mp (hmembers m (List.mem_of_getElem? hm))
  rw [hat.combinedFrames] at hm
  obtain ⟨tree, htree, href, hs⟩ := hat
  have hcf : b.vft.cf (.member (b.vft.builds.length - 1) address win.current) = some f := by
    rcases List.eq_nil_or_concat' address with rfl | ⟨above, i, rfl⟩
    · -- the head combines no frames
      cases hs
      rw [(h.coherent.genealogical_current htree).plain] at hm
      cases hm
    · rw [VisualFrameTree.cf, vf_member (current_build htree) hs hm]
      exact hf
  obtain ⟨cs, -, hlast, hrun⟩ := rebuildTree_eq_adopt h.coherent.genealogical hcf
  refine ⟨{ b with
    vft := b.vft.adopt t cs
    currentVf := (b.vft.adopt t cs).startVf }.pop, ?_, ?_, ?_⟩
  · rw [processInput, hopen]
    simp only [selectInput, href, rebuild, VisualFrameTree.step, hrun, Option.bind_eq_bind,
      Option.bind_some]
    rfl
  · show (b.vft.adopt t cs).cf (b.vft.adopt t cs).startVf = m.cf
    rw [cf_startVf_adopt, hlast, hf]
  · show b.winStack.dropLast = _
    rw [hw]
    rfl

end TerminalBrowser

end LdbToolchain.Tfg
