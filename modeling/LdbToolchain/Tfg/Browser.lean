import LdbToolchain.Lib.Bfs
import LdbToolchain.Tfg.Zooming

/-!
# The terminal browser

Three windows share a context: the visual tree, the current frame and the stack of windows. A key goes
to the topmost window. `processInput` is one turn of the main loop, without the drawing; it is `none`
when the turn would end in an error, which can only be a missing call frame whose name is asked for,
the maximum of no numbers or an index out of range.
-/

namespace LdbToolchain.Tfg

/-! ## Neighbours of a frame -/

namespace VisualFrameTree

/-- The node at a reference to a frame of a tree. Members of combined frames hang nowhere. -/
def node? (vft : VisualFrameTree) : VfRef → Option (Rose VisualFrameNode)
  | .frame build address => vft.builds[build]?.bind (·.subtree? address)
  | .member .. => none

def combinedFrames (vft : VisualFrameTree) (ref : VfRef) : List VisualFrame :=
  ((vft.node? ref).map (·.label.combinedFrames)).getD []

/-- `parent_vf`. -/
def parentVf (_ : VisualFrameTree) : VfRef → Option VfRef
  | .frame build address => if address = [] then none else some (.frame build address.dropLast)
  | .member build address _ => some (.frame build address.dropLast)

/-- `left_vf`, as `link_frames` sets it: the next frame in breadth-first order. Every tree is linked
as soon as it is built. -/
def leftVf (vft : VisualFrameTree) : VfRef → Option VfRef
  | .frame build address => do
      let tree ← vft.builds[build]?
      let left ← (pairwise tree.bfsTraversal).lookup address
      return .frame build left
  | .member .. => none

/-- `right_vf`: the frame before in breadth-first order. -/
def rightVf (vft : VisualFrameTree) : VfRef → Option VfRef
  | .frame build address => do
      let tree ← vft.builds[build]?
      let right ← ((pairwise tree.bfsTraversal).map Prod.swap).lookup address
      return .frame build right
  | .member .. => none

/-- The first of the `frames` that has a width. -/
def firstVisible (vft : VisualFrameTree) : VfRef → Option VfRef
  | .frame build address => do
      let s ← vft.node? (.frame build address)
      let i ← s.children.findIdx? (·.label.width > 0)
      return .frame build (address ++ [i])
  | .member .. => none

end VisualFrameTree

/-! ## Windows -/

/-- `curses.LINES` and `curses.COLS`. -/
structure Terminal where
  (lines cols : Int)

structure FlameGraphWindow where
  (width height startLevel : Int)

def FlameGraphWindow.init (terminal : Terminal) : FlameGraphWindow where
  width := terminal.cols
  height := terminal.lines - 1
  startLevel := 0

/-- The levels `draw` displays. -/
def FlameGraphWindow.topLevel (win : FlameGraphWindow) : Int := win.startLevel + win.height - 2

structure SelectVisualFrameWindow where
  vf : VfRef
  (height numberSize prefixSize width : Int)
  /-- `_from` and `_to`: the combined frames in `[from, to)` are displayed. -/
  (displayFrom displayTo : Int)
  current : Nat

/-- `_BORDER_SIZE`. -/
def borderSize : Int := 2

/-- `SelectVisualFrameWindow`, opened on the combined frames of `vf`. -/
def SelectVisualFrameWindow.init (t : CallFrameTree) (terminal : Terminal) (vf : VfRef)
    (combinedFrames : List VisualFrame) : Option SelectVisualFrameWindow := do
  let names ← combinedFrames.mapM fun f => f.cf.map fun cf => (t.node cf).name
  let longest ← (names.map List.length).max?
  let height := min (combinedFrames.length + borderSize) terminal.lines
  let numberSize : Int := (toString height).length
  let prefixSize := numberSize + 2
  return {
    vf, height, numberSize, prefixSize
    width := min (longest + borderSize + prefixSize) terminal.cols
    displayFrom := 0
    displayTo := height - borderSize
    current := 0 }

inductive Window where
  | status
  | flameGraph
  | select (win : SelectVisualFrameWindow)

structure BrowserContext where
  vft : VisualFrameTree
  currentVf : VfRef
  /-- The topmost window is the last. -/
  winStack : List Window

structure TerminalBrowser extends BrowserContext where
  terminal : Terminal
  vfWin : FlameGraphWindow

/-- The keys that `process_input` tells apart. -/
inductive Key where
  | q | c | r | down | up | left | right | enter | other
  deriving DecidableEq

namespace TerminalBrowser

/-- `win_stack.pop()`. -/
def pop (b : TerminalBrowser) : TerminalBrowser := { b with winStack := b.winStack.dropLast }

/-- `current_vf = vft.rebuild_tree(…)`, and the links of the new tree. -/
def rebuild (t : CallFrameTree) (b : TerminalBrowser) (op : VisualFrameTree.Op) :
    Option TerminalBrowser := do
  let vft ← b.vft.step t op
  return { b with vft, currentVf := vft.startVf }

/-- `FlameGraphWindow.process_input`. -/
def flameGraphInput (t : CallFrameTree) (b : TerminalBrowser) : Key → Option TerminalBrowser
  | .q => some b.pop
  | .c => b.rebuild t .flip
  | .r => b.rebuild t .reset
  | .down => do
      let currentVf := (b.vft.parentVf b.currentVf).getD b.currentVf
      let vf ← b.vft.vf currentVf
      let start := b.vfWin.startLevel
      return { b with
        currentVf
        vfWin := { b.vfWin with startLevel := if vf.y < start then start - 1 else start } }
  | .up => do
      let currentVf := (b.vft.firstVisible b.currentVf).getD b.currentVf
      let vf ← b.vft.vf currentVf
      let start := b.vfWin.startLevel
      return { b with
        currentVf
        vfWin := { b.vfWin with
          startLevel := if vf.y > start + b.vfWin.height - 2 then start + 1 else start } }
  | .left => some { b with currentVf := (b.vft.leftVf b.currentVf).getD b.currentVf }
  | .right => some { b with currentVf := (b.vft.rightVf b.currentVf).getD b.currentVf }
  | .enter => do
      let vf ← b.vft.vf b.currentVf
      if vf.cf ≠ none then
        b.rebuild t (.zoom b.currentVf)
      else if b.vft.combinedFrames b.currentVf ≠ [] then
        let win ← SelectVisualFrameWindow.init t b.terminal b.currentVf
          (b.vft.combinedFrames b.currentVf)
        return { b with winStack := b.winStack ++ [.select win] }
      else
        return b
  | .other => some b

/-- The window on the stack, after a change to its fields. -/
def update (b : TerminalBrowser) (win : SelectVisualFrameWindow) : TerminalBrowser :=
  { b with winStack := b.winStack.dropLast ++ [.select win] }

/-- `SelectVisualFrameWindow.process_input`. -/
def selectInput (t : CallFrameTree) (b : TerminalBrowser) (win : SelectVisualFrameWindow) :
    Key → Option TerminalBrowser
  | .q => some b.pop
  | .down =>
      let current :=
        if (win.current : Int) < (b.vft.combinedFrames win.vf).length - 1 then win.current + 1
        else win.current
      if (current : Int) ≥ win.displayTo then
        some (b.update { win with
          current, displayFrom := win.displayFrom + 1, displayTo := win.displayTo + 1 })
      else some (b.update { win with current })
  | .up =>
      let current := if win.current > 0 then win.current - 1 else win.current
      if (current : Int) < win.displayFrom then
        some (b.update { win with
          current, displayFrom := win.displayFrom - 1, displayTo := win.displayTo - 1 })
      else some (b.update { win with current })
  | .enter => do
      -- `combined_frames[current]`
      let ref ← match win.vf with
        | .frame build address => some (.member build address win.current)
        | .member .. => none
      return (← b.rebuild t (.zoom ref)).pop
  | _ => some b

/-- One key, for the topmost window. -/
def processInput (t : CallFrameTree) (b : TerminalBrowser) (key : Key) : Option TerminalBrowser :=
  match b.winStack.getLast? with
  | none => some b
  -- the focus cannot be on the status window: it does not even read the key
  | some .status => some b.pop
  | some .flameGraph => b.flameGraphInput t key
  | some (.select win) => b.selectInput t win key

/-- `_display`, up to the main loop. -/
def display (t : CallFrameTree) (terminal : Terminal) (wsFiller : Str) :
    Option TerminalBrowser := do
  let vfWin := FlameGraphWindow.init terminal
  let vft ← VisualFrameTree.init t
    { x := 0, width := vfWin.width, wsFiller, withCombinedFrames := true }
  return { vft, currentVf := vft.head, winStack := [.status, .flameGraph], terminal, vfWin }

/-- The main loop, fed with these keys, less what `draw` does between two of them: a real run also
ends where a window cannot be drawn. -/
def run (t : CallFrameTree) (b : TerminalBrowser) (keys : List Key) : Option TerminalBrowser :=
  keys.foldlM (processInput t) b

/-! ## What a key does -/

variable {t : CallFrameTree} {b b' : TerminalBrowser} {key : Key}

/-- A rebuild leaves the windows and the terminal alone. -/
theorem rebuild_eq_some {op : VisualFrameTree.Op} :
    b.rebuild t op = some b' ↔
      ∃ vft, b.vft.step t op = some vft ∧ { b with vft, currentVf := vft.startVf } = b' := by
  simp only [rebuild, Option.bind_eq_bind, Option.bind_eq_some_iff, Option.pure_def,
    Option.some.injEq]

/-- A key for the flame-graph window moves to another frame, closes the window, rebuilds the tree or
opens a menu. -/
theorem flameGraphInput_cases (h : b.flameGraphInput t key = some b') :
    (∃ currentVf vfWin, b' = { b with currentVf, vfWin }) ∨
      b' = b.pop ∨
      (∃ op, b.rebuild t op = some b' ∧
        (op = .flip ∨ op = .reset ∨ op = .zoom b.currentVf ∧ (b.vft.cf b.currentVf).isSome)) ∨
      ∃ win, b.vft.combinedFrames b.currentVf ≠ [] ∧
        SelectVisualFrameWindow.init t b.terminal b.currentVf (b.vft.combinedFrames b.currentVf)
          = some win ∧ b' = { b with winStack := b.winStack ++ [.select win] } := by
  cases key with
  | q => exact .inr (.inl (Option.some.inj h).symm)
  | c => exact .inr (.inr (.inl ⟨.flip, h, .inl rfl⟩))
  | r => exact .inr (.inr (.inl ⟨.reset, h, .inr (.inl rfl)⟩))
  | down | up =>
      obtain ⟨vf, -, hb'⟩ := Option.bind_eq_some_iff.mp h
      exact .inl ⟨_, _, (Option.some.inj hb').symm⟩
  | left | right => exact .inl ⟨_, b.vfWin, (Option.some.inj h).symm⟩
  | other => exact .inl ⟨b.currentVf, b.vfWin, (Option.some.inj h).symm⟩
  | enter =>
      obtain ⟨vf, hvf, h⟩ := Option.bind_eq_some_iff.mp h
      by_cases hcf : vf.cf = none
      · rw [if_neg (not_not.mpr hcf)] at h
        by_cases hne : b.vft.combinedFrames b.currentVf = []
        · rw [if_neg (not_not.mpr hne)] at h
          exact .inl ⟨b.currentVf, b.vfWin, (Option.some.inj h).symm⟩
        · rw [if_pos hne] at h
          obtain ⟨win, hinit, hb'⟩ := Option.bind_eq_some_iff.mp h
          exact .inr (.inr (.inr ⟨win, hne, hinit, (Option.some.inj hb').symm⟩))
      · rw [if_pos hcf] at h
        refine .inr (.inr (.inl ⟨_, h, .inr (.inr ⟨rfl, ?_⟩)⟩))
        rw [VisualFrameTree.cf, hvf]
        exact Option.isSome_iff_ne_none.mpr hcf

/-- A key for the menu does nothing, scrolls or closes it, or zooms into the selected entry. -/
theorem selectInput_cases {win : SelectVisualFrameWindow} (h : b.selectInput t win key = some b') :
    key ≠ .enter ∧ (b' = b ∨ b' = b.pop ∨ ∃ win', b' = b.update win') ∨
      key = .enter ∧ ∃ build address rebuilt, win.vf = .frame build address ∧
        b.rebuild t (.zoom (.member build address win.current)) = some rebuilt ∧
        b' = rebuilt.pop := by
  cases key with
  | q => exact .inl ⟨by simp, .inr (.inl (Option.some.inj h).symm)⟩
  | down =>
      have hscroll := h.symm.trans (apply_ite (fun win => some (b.update win)) _ _ _).symm
      exact .inl ⟨by simp, .inr (.inr ⟨_, Option.some.inj hscroll⟩)⟩
  | up =>
      have hscroll := h.symm.trans (apply_ite (fun win => some (b.update win)) _ _ _).symm
      exact .inl ⟨by simp, .inr (.inr ⟨_, Option.some.inj hscroll⟩)⟩
  | enter =>
      refine .inr ⟨rfl, ?_⟩
      rw [selectInput] at h
      cases hvf : win.vf with
      | frame build address =>
          rw [hvf] at h
          replace h : (b.rebuild t (.zoom (.member build address win.current))).bind
            (fun rebuilt => some rebuilt.pop) = some b' := h
          obtain ⟨rebuilt, hrebuild, hb'⟩ := Option.bind_eq_some_iff.mp h
          exact ⟨build, address, rebuilt, rfl, hrebuild, (Option.some.inj hb').symm⟩
      | member build address index =>
          rw [hvf] at h
          cases h
  | c | r | left | right | other => exact .inl ⟨by simp, .inl (Option.some.inj h).symm⟩

end TerminalBrowser

end LdbToolchain.Tfg
