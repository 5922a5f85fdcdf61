import LdbToolchain.Tfg.Consistent

/-!
# Whether the current frame is on display

`draw` displays the levels from `_start_level` up to `topLevel`. Only the keys for up and down adjust
`_start_level`. The links for left and right follow the breadth-first order from one level to the
next, flipping goes to the zoomed frame and resetting to the head, wherever the window is. So the
current frame may leave the screen; `onScreen_iff` says exactly when it does not.
-/

namespace LdbToolchain.Tfg

namespace TerminalBrowser

open VisualFrameTree

variable {t : CallFrameTree} {b : TerminalBrowser}

/-- The current frame lies on one of the levels on display. -/
def OnScreen (b : TerminalBrowser) : Prop :=
  b.vfWin.startLevel ≤ b.level ∧ b.level ≤ b.vfWin.topLevel

/-- The key does not lead off the levels on display: not left from the topmost of them to the next
level, not right from the lowest to the level before, not by flipping while the zoomed frame is off
the screen, and not by resetting while the window is scrolled. -/
def StaysInSight (b : TerminalBrowser) (key : Key) : Prop :=
  b.winStack = [.status, .flameGraph] →
    match key with
    | .left => ¬ (b.level = b.vfWin.topLevel ∧ b.level < b.leftLevel)
    | .right => ¬ (b.level = b.vfWin.startLevel ∧ b.rightLevel < b.level)
    | .c => b.vfWin.startLevel ≤ b.levelOf b.vft.startVf ∧
        b.levelOf b.vft.startVf ≤ b.vfWin.topLevel
    | .r => b.vfWin.startLevel = 0
    | _ => True

/-- `P` holds now and after each of the keys. -/
def EveryState (t : CallFrameTree) (P : TerminalBrowser → Prop) : TerminalBrowser → List Key → Prop
  | b, [] => P b
  | b, key :: keys => P b ∧ ∀ b', b.processInput t key = some b' → EveryState t P b' keys

/-- `P` holds whenever one of the keys is read. -/
def EveryKey (t : CallFrameTree) (P : TerminalBrowser → Key → Prop) :
    TerminalBrowser → List Key → Prop
  | _, [] => True
  | b, key :: keys => P b key ∧ ∀ b', b.processInput t key = some b' → EveryKey t P b' keys

theorem EveryState.now {P : TerminalBrowser → Prop} {keys : List Key}
    (h : EveryState t P b keys) : P b := by
  cases keys with
  | nil => exact h
  | cons => exact h.1

/-- The rule for runs: `I` implies `P`, a key with `Q` preserves `I`, and `P` after a key implies `Q`
before it. -/
theorem everyState_iff {I P : TerminalBrowser → Prop} {Q : TerminalBrowser → Key → Prop}
    (hinv : ∀ {b}, I b → Inv t b) (hnow : ∀ {b}, I b → P b)
    (hstep : ∀ {b key b'}, I b → b.processInput t key = some b' → (Q b key → I b') ∧ (P b' → Q b key))
    (h : I b) (keys : List Key) : EveryState t P b keys ↔ EveryKey t Q b keys := by
  induction keys generalizing b with
  | nil => exact iff_of_true (hnow h) trivial
  | cons key keys ih =>
      rw [EveryState, EveryKey]
      constructor
      · rintro ⟨-, hrest⟩
        obtain ⟨b', hb', -⟩ := processInput_spec (hinv h) key
        have hkey := (hstep h hb').2 (hrest b' hb').now
        exact ⟨hkey, fun b₁ hb₁ => (ih ((hstep h hb₁).1 hkey)).mp (hrest b₁ hb₁)⟩
      · rintro ⟨hkey, hrest⟩
        exact ⟨hnow h, fun b₁ hb₁ => (ih ((hstep h hb₁).1 hkey)).mpr (hrest b₁ hb₁)⟩

theorem level_nonneg (h : Inv t b) : 0 ≤ b.level := by
  obtain ⟨address, s, hat⟩ := h.current
  rw [level, levelOf_at h.coherent hat]
  exact Int.natCast_nonneg _

/-- What holds as long as the current frame is on display: the window has at least two levels, the
lowest of which is not negative. -/
structure Displayed (t : CallFrameTree) (b : TerminalBrowser) : Prop where
  inv : Inv t b
  onScreen : b.OnScreen
  height : 2 ≤ b.vfWin.height
  start : 0 ≤ b.vfWin.startLevel

/-- **One key, exactly.** -/
theorem onScreen_step_iff (h : Displayed t b) {key : Key} {b' : TerminalBrowser}
    (hstep : b.processInput t key = some b') :
    (b'.OnScreen ↔ b.StaysInSight key) ∧ (b'.OnScreen → Displayed t b') := by
  obtain ⟨hlow, hhigh⟩ := h.onScreen
  have hheight := h.height
  have hstart := h.start
  have hnonneg := level_nonneg h.inv
  obtain ⟨b₁, hrun, hinv, hfocus, helse⟩ := processInput_spec h.inv key
  rw [hstep] at hrun
  cases hrun
  -- the rest is about numbers: what the key does to the level and to the window
  suffices hnumbers : (b'.OnScreen ↔ b.StaysInSight key) ∧
      (b'.OnScreen → 2 ≤ b'.vfWin.height ∧ 0 ≤ b'.vfWin.startLevel) by
    refine ⟨hnumbers.1, fun hon => ?_⟩
    obtain ⟨hheight', hstart'⟩ := hnumbers.2 hon
    exact ⟨hinv, hon, hheight', hstart'⟩
  have hnonneg' := level_nonneg hinv
  rw [OnScreen, FlameGraphWindow.topLevel] at *
  by_cases hw : b.winStack = [.status, .flameGraph]
  · have hmoves := hfocus hw
    cases key with
    | c =>
        obtain ⟨hlevel, hwin⟩ := hmoves
        simp only [StaysInSight, hw, forall_true_left, hwin, hlevel, FlameGraphWindow.topLevel]
        exact ⟨trivial, fun _ => ⟨hheight, hstart⟩⟩
    | r =>
        obtain ⟨hlevel, hwin⟩ := hmoves
        simp only [StaysInSight, hw, forall_true_left, hwin, hlevel]
        omega
    | down =>
        obtain ⟨hlevel, hwin⟩ := hmoves
        simp only [StaysInSight, hwin, implies_true, iff_true]
        split <;> omega
    | up =>
        obtain ⟨hlevel, hwin⟩ := hmoves
        by_cases habove : b'.level > b.vfWin.topLevel
        · rw [if_pos habove] at hwin
          rw [FlameGraphWindow.topLevel] at habove
          simp only [StaysInSight, hwin, implies_true, iff_true]
          omega
        · rw [if_neg habove] at hwin
          rw [FlameGraphWindow.topLevel] at habove
          simp only [StaysInSight, hwin, implies_true, iff_true]
          omega
    | left =>
        obtain ⟨hlevel, hwin, hleft⟩ := hmoves
        simp only [StaysInSight, hw, forall_true_left, hwin, hlevel, FlameGraphWindow.topLevel]
        omega
    | right =>
        obtain ⟨hlevel, hwin, hright⟩ := hmoves
        simp only [StaysInSight, hw, forall_true_left, hwin, hlevel]
        omega
    | q | enter | other =>
        obtain ⟨hlevel, hwin⟩ := hmoves
        simp only [StaysInSight, implies_true, iff_true, hwin, hlevel]
        omega
  · obtain ⟨hlevel, hwin⟩ := helse hw
    have hsight : b.StaysInSight key := fun hfocus => absurd hfocus hw
    simp only [hsight, iff_true, hwin, hlevel]
    omega

/-- Every run, from any state in which the current frame is on display. -/
theorem everyState_onScreen_iff (h : Displayed t b) (keys : List Key) :
    EveryState t OnScreen b keys ↔ EveryKey t StaysInSight b keys := by
  refine everyState_iff Displayed.inv Displayed.onScreen ?_ h keys
  intro b key b' h hstep
  obtain ⟨hiff, hnext⟩ := onScreen_step_iff h hstep
  exact ⟨fun hsight => hnext (hiff.mpr hsight), hiff.mp⟩

/-- **When the current frame stays on the screen.** For every call tree, flame-graph window of at
least three lines and sequence of keys: the current frame is on display from the start and after
each key exactly when each key, at the moment it is read, does not lead off the levels on display. -/
theorem onScreen_iff (t : CallFrameTree) (terminal : Terminal)
    (hheight : 3 ≤ (FlameGraphWindow.init terminal).height) (wsFiller : Str) (keys : List Key) :
    ∃ start, display t terminal wsFiller = some start ∧
      (EveryState t OnScreen start keys ↔ EveryKey t StaysInSight start keys) := by
  obtain ⟨start, hdisplay, hinv, hlevel, hwin⟩ := exists_display t terminal wsFiller
  refine ⟨start, hdisplay, everyState_onScreen_iff ⟨hinv, ?_, ?_, ?_⟩ keys⟩
  · rw [OnScreen, FlameGraphWindow.topLevel, hlevel, hwin]
    constructor
    · exact le_rfl
    · show 0 ≤ 0 + (FlameGraphWindow.init terminal).height - 2
      omega
  · rw [hwin]
    omega
  · rw [hwin]
    exact le_rfl

/-! ## A frame off the screen -/

/-- `a;b` once. -/
def oneStack : CallFrameTree := .ofSamples [([['a'], ['b']], 1)]

/-- Four lines, so that the flame-graph window has three. -/
def fourLines : Terminal := ⟨4, 1⟩

theorem onScreen_iff_fourLines :
    ∃ start, display oneStack fourLines [' '] = some start ∧
      EveryState oneStack OnScreen start [.up, .up, .down, .enter, .q, .q] := by
  obtain ⟨start, hdisplay, hiff⟩ := onScreen_iff oneStack fourLines (by decide) [' ']
    [.up, .up, .down, .enter, .q, .q]
  refine ⟨start, hdisplay, hiff.mpr ?_⟩
  simp [EveryKey, StaysInSight]

/-- An only child with the full width of its parent. -/
theorem createVfChildren_onlyChild (t : CallFrameTree) (canvas : Canvas) (vf : VisualFrame)
    (cf c : Nat) (hframes : t.frames cf = [c])
    (hwidth : calculateWidth (t.node c).count vf.count vf.width = vf.width) (hpos : 0 < vf.width) :
    createVfChildren t canvas vf cf
      = [expand t canvas (createVf t canvas (vf.x + vf.width) (vf.y + 1) vf c false)] := by
  have hcombined : hasCombined t canvas vf cf = false := by
    rw [hasCombined, vfWidths, hframes, List.map_singleton, hwidth]
    simp [hpos.ne']
  have hkeeps : keepsColumn t canvas vf cf = false := by
    rw [keepsColumn, hcombined, Bool.false_and]
  have hrow : childRow t canvas vf cf
      = [createVf t canvas (vf.x + vf.width) (vf.y + 1) vf c false] := by
    rw [childRow, CallFrameTree.sortedFrames, hframes, List.mergeSort_singleton, hkeeps]
    rfl
  have hvisible : (createVf t canvas (vf.x + vf.width) (vf.y + 1) vf c false).width > 0 := by
    show calculateWidth (t.node c).count vf.count vf.width > 0
    rw [hwidth]
    exact hpos
  rw [createVfChildren_eq t canvas vf cf (by simp [hframes]), hrow, hcombined, visible]
  simp [hvisible]

/-- One column. -/
def oneColumn : Canvas := ⟨0, 1, [' '], true⟩

/-- The picture of `oneStack` on one column: a tower of three frames. -/
theorem exists_tower :
    ∃ v₀ v₁ v₂, zoomedTree oneStack oneColumn [] = .node v₀ [.node v₁ [.node v₂ []]] := by
  let a := createVf oneStack oneColumn 1 1 (headVf oneStack oneColumn) 1 false
  let b := createVf oneStack oneColumn 1 2 a 2 false
  have hhead : createVfChildren oneStack oneColumn (headVf oneStack oneColumn) 0
      = [expand oneStack oneColumn a] :=
    createVfChildren_onlyChild _ _ _ 0 1 (by decide) (by decide) (by decide)
  have ha : createVfChildren oneStack oneColumn a 1 = [expand oneStack oneColumn b] :=
    createVfChildren_onlyChild _ _ _ 1 2 (by decide) (by decide) (by decide)
  have hb : createVfChildren oneStack oneColumn b 2 = [] := by
    rw [createVfChildren, if_pos (by decide)]
  refine ⟨(headVf oneStack oneColumn).single, a.single, b.single, ?_⟩
  show Rose.node _ (createVfChildren oneStack oneColumn (headVf oneStack oneColumn) 0) = _
  rw [hhead]
  show Rose.node _ [Rose.node _ (createVfChildren oneStack oneColumn a 1)] = _
  rw [ha]
  show Rose.node _ [Rose.node _ [Rose.node _ (createVfChildren oneStack oneColumn b 2)]] = _
  rw [hb]

/-- The keys for left lead up the tower, and past the two levels on display. -/
theorem off_screen :
    ∃ start b, display oneStack fourLines [' '] = some start ∧
      start.run oneStack [.left, .left] = some b ∧ start.vfWin.height = 3 ∧ ¬ b.OnScreen := by
  obtain ⟨v₀, v₁, v₂, htower⟩ := exists_tower
  let vft : VisualFrameTree :=
    { oneColumn with builds := [zoomedTree oneStack oneColumn []], startVf := .frame 0 [] }
  let start : TerminalBrowser :=
    ⟨⟨vft, .frame 0 [], [.status, .flameGraph]⟩, fourLines, FlameGraphWindow.init fourLines⟩
  have hdisplay : display oneStack fourLines [' '] = some start := rfl
  have hbfs : (zoomedTree oneStack oneColumn []).bfsTraversal = [[], [0], [0, 0]] := by
    rw [htower]
    simp [Rose.bfsTraversal, Rose.bfs_cons, Rose.bfs_nil, Rose.kids]
  have hleft : vft.leftVf (.frame 0 []) = some (.frame 0 [0]) := by
    show ((pairwise (zoomedTree oneStack oneColumn []).bfsTraversal).lookup []).bind _ = _
    rw [hbfs]
    rfl
  have hleft₁ : vft.leftVf (.frame 0 [0]) = some (.frame 0 [0, 0]) := by
    show ((pairwise (zoomedTree oneStack oneColumn []).bfsTraversal).lookup [0]).bind _ = _
    rw [hbfs]
    rfl
  let b : TerminalBrowser := start.goTo (.frame 0 [0, 0]) start.vfWin
  have hstep : ∀ ref next, vft.leftVf ref = some next →
      (start.goTo ref start.vfWin).processInput oneStack .left
        = some (start.goTo next start.vfWin) := by
    intro ref next h
    show some (start.goTo ((vft.leftVf ref).getD ref) start.vfWin) = _
    rw [h]
    rfl
  have hrun : start.run oneStack [.left, .left] = some b := by
    rw [run, List.foldlM_cons]
    show (processInput oneStack (start.goTo (.frame 0 []) start.vfWin) .left).bind _ = _
    rw [hstep _ _ hleft, Option.bind_some, List.foldlM_cons, hstep _ _ hleft₁]
    rfl
  have hcoherent : Coherent oneStack b.vft := coherent_init (init_eq_adopt oneStack oneColumn)
  have hat : b.vft.At b.currentVf [0, 0] (.node v₂ []) := by
    refine ⟨zoomedTree oneStack oneColumn [], rfl, rfl, ?_⟩
    rw [htower]
    rfl
  have hlevel : b.level = 2 := levelOf_at hcoherent hat
  refine ⟨start, b, hdisplay, hrun, rfl, ?_⟩
  rintro ⟨-, hhigh⟩
  rw [hlevel] at hhigh
  exact absurd hhigh (by decide)

end TerminalBrowser

end LdbToolchain.Tfg
