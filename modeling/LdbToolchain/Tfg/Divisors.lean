import LdbToolchain.Tfg.Collapser
import LdbToolchain.Tfg.OnScreen
import LdbToolchain.Tfg.Status

/-!
# The divisors of the status line

`StatusWindow.draw` divides by the count of the head and by the count of the current frame's parent,
without the check that `calculate_width` makes. Frames below a count of zero get no column, so they
are only come by through the menu of a '+' frame. `divisors_iff` says which files and which keys keep
the divisors from being zero.
-/

namespace LdbToolchain.Tfg

/-! ## Lines of measured frames -/

/-- The count that the shares in the parent are taken of is not zero. -/
def Measured (t : CallFrameTree) (cf : Nat) : Prop := (t.node (parentOr t cf)).count ≠ 0

/-- So it is for the call frame and for all above the head on the way to it. -/
def MeasuredLine (t : CallFrameTree) (cf : Nat) : Prop :=
  ∀ cs, t.Lineage t.head cs → CallFrameTree.lastOf t.head cs = cf → ∀ c ∈ cs, Measured t c

variable {t : CallFrameTree}

theorem measured_iff {a c : Nat} (hc : c ∈ t.frames a) :
    Measured t c ↔ (t.node a).count ≠ 0 := by
  rw [Measured, parentOr, CallFrameTree.parent_of_mem_frames hc, Option.getD_some]

namespace MeasuredLine

theorem head (t : CallFrameTree) : MeasuredLine t t.head := by
  intro cs hcs hlast c hc
  have hnil : cs = [] := CallFrameTree.lineage_inj hcs (show t.Lineage t.head [] from trivial) hlast
  rw [hnil] at hc
  cases hc

/-- A line goes on below a frame with a count. -/
theorem child {a c : Nat} (h : MeasuredLine t a) (hc : c ∈ t.frames a) (hmeasured : Measured t c) :
    MeasuredLine t c := by
  intro cs hcs hlast d hd
  rcases List.eq_nil_or_concat' cs with rfl | ⟨ds, e, rfl⟩
  · cases hd
  · obtain ⟨hds, he⟩ := CallFrameTree.lineage_concat.mp hcs
    rw [CallFrameTree.lastOf_concat] at hlast
    subst hlast
    have hsame : CallFrameTree.lastOf t.head ds = a := by
      have hparent := CallFrameTree.parent_of_mem_frames he
      rw [CallFrameTree.parent_of_mem_frames hc] at hparent
      exact (Option.some.inj hparent).symm
    rcases List.mem_append.mp hd with hd | hd
    · exact h ds hds hsame d hd
    · rw [List.mem_singleton.mp hd]
      exact hmeasured

theorem parent {a c : Nat} (h : MeasuredLine t c) (hc : c ∈ t.frames a) : MeasuredLine t a := by
  intro cs hcs hlast d hd
  apply h (cs ++ [c]) (CallFrameTree.lineage_concat.mpr ⟨hcs, hlast.symm ▸ hc⟩)
  · exact CallFrameTree.lastOf_concat _ _ _
  · exact List.mem_append_left _ hd

theorem of_lastOf {a : Nat} {cs : List Nat} (hcs : t.Lineage a cs)
    (h : MeasuredLine t (CallFrameTree.lastOf a cs)) : MeasuredLine t a := by
  induction cs generalizing a with
  | nil => exact h
  | cons c cs ih => exact (ih hcs.2 h).parent hcs.1

/-- The line of a frame in it is measured at the frame itself. -/
theorem measured {cs : List Nat} (hcs : t.Lineage t.head cs)
    (h : MeasuredLine t (CallFrameTree.lastOf t.head cs)) (hhead : Measured t t.head) :
    Measured t (CallFrameTree.lastOf t.head cs) := by
  rcases List.eq_nil_or_concat' cs with rfl | ⟨ds, d, rfl⟩
  · exact hhead
  · have hd := h _ hcs rfl d (by simp)
    rwa [CallFrameTree.lastOf_concat]

end MeasuredLine

/-! ## Visual trees -/

/-- Every frame shows a call frame at the end of a measured line, or none. -/
def MeasuredAt (t : CallFrameTree) (label : VisualFrameNode) (_ : List (Rose VisualFrameNode)) :
    Prop :=
  ∀ cf, label.cf = some cf → MeasuredLine t cf

/-- **A frame with a column is measured**: `calculate_width` gives none below a count of zero. -/
theorem measured_of_visible {canvas : Canvas} {vf v : VisualFrame} {cf c : Nat}
    (hshows : vf.Shows t cf) (hv : v ∈ visible (childRow t canvas vf cf)) (hc : c ∈ t.frames cf) :
    Measured t c := by
  obtain ⟨hmem, hpos⟩ := List.mem_filter.mp hv
  obtain ⟨d, -, -, -, hwidth⟩ := mem_rowFrames hmem
  rw [measured_iff hc, ← hshows.2]
  intro hzero
  rw [calculateWidth, if_neg (not_not.mpr hzero)] at hwidth
  rw [decide_eq_true_eq, hwidth] at hpos
  exact absurd hpos (lt_irrefl 0)

theorem measured_expand (canvas : Canvas) {vf : VisualFrame} {cf : Nat} (hshows : vf.Shows t cf)
    (hline : MeasuredLine t cf) : (expand t canvas vf).Everywhere (MeasuredAt t) := by
  have hall : ∀ g, vf.cf = some g → MeasuredLine t g := by
    intro g hg
    obtain rfl : g = cf := Option.some.inj (hg.symm.trans hshows.1)
    exact hline
  refine expand_induction canvas (motive := fun vf =>
    (∀ g, vf.cf = some g → MeasuredLine t g) → (expand t canvas vf).Everywhere (MeasuredAt t))
    ?_ cf vf hshows hall
  intro vf cf hshows ih hline
  unfold expand
  rw [hshows.1]
  refine (Rose.everywhere_node _ _).mpr ⟨hline, ?_⟩
  intro c hc
  rcases mem_createVfChildren hc with ⟨v, hv, rfl⟩ | ⟨x, rfl⟩
  · obtain ⟨f, hf, hshowsf, -⟩ := mem_childRow (List.mem_filter.mp hv).1
    apply ih v hv f hf hshowsf
    intro g hg
    obtain rfl : g = f := Option.some.inj (hg.symm.trans hshowsf.1)
    exact (hline cf hshows.1).child hf (measured_of_visible hshows hv hf)
  · refine (Rose.everywhere_node _ _).mpr ⟨?_, fun c hc => absurd hc List.not_mem_nil⟩
    intro f hf
    cases hf

theorem measured_zoomTree (canvas : Canvas) {a : Nat} {cs : List Nat} (hcs : t.Lineage a cs)
    (hline : MeasuredLine t (CallFrameTree.lastOf a cs)) (y : Int) :
    (zoomTree t canvas (zoomFrame t canvas y a) (zoomFrames t canvas (y + 1) cs)).Everywhere
      (MeasuredAt t) := by
  induction cs generalizing a y with
  | nil => exact measured_expand canvas (zoomFrame_shows t canvas y a) hline
  | cons c cs ih =>
      rw [zoomFrames, zoomTree_cons]
      refine (Rose.everywhere_node _ _).mpr ⟨?_, ?_⟩
      · intro f hf
        cases hf
        exact hline.of_lastOf hcs
      · intro d hd
        rw [List.mem_singleton.mp hd]
        exact ih hcs.2 hline (y + 1)

/-- Zooming into a frame at the end of a measured line. -/
theorem measured_rebuildTree {vft vft' : VisualFrameTree} {ref : VfRef} {cf : Nat}
    (hgen : ∀ tree ∈ vft.builds, Genealogical t tree) (hcf : vft.cf ref = some cf)
    (hline : MeasuredLine t cf) (hrun : vft.rebuildTree t (some ref) = some vft') :
    (∀ tree, vft'.current = some tree → tree.Everywhere (MeasuredAt t)) ∧
      vft'.cf vft'.startVf = some cf := by
  obtain ⟨cs, hcs, hlast, hadopt⟩ := VisualFrameTree.rebuildTree_eq_adopt hgen hcf
  rw [hrun] at hadopt
  cases hadopt
  constructor
  · intro tree htree
    rw [VisualFrameTree.current_adopt] at htree
    cases htree
    exact measured_zoomTree vft.toCanvas hcs (hlast.symm ▸ hline) 0
  · rw [VisualFrameTree.cf_startVf_adopt, hlast]

/-- A member of combined frames shows a child of what the frame below them shows. -/
theorem VisualFrameTree.At.member_below {vft : VisualFrameTree} {ref : VfRef} {address : List Nat}
    {s : Rose VisualFrameNode} (hat : vft.At ref address s) (h : vft.Coherent t) {index : Nat}
    {m : VisualFrame} (hm : s.label.combinedFrames[index]? = some m) :
    ∃ below above u a f, vft.parentVf ref = some below ∧ vft.At below above u ∧
      u.label.cf = some a ∧ u.label.count = (t.node a).count ∧ f ∈ t.frames a ∧
      vft.cf (.member (vft.builds.length - 1) address index) = some f := by
  obtain ⟨tree, htree, rfl, hs⟩ := hat
  have hgen := h.genealogical_current htree
  have hbuild := current_build htree
  have hmember := List.mem_of_getElem? hm
  rcases List.eq_nil_or_concat' address with rfl | ⟨above, i, rfl⟩
  · -- the head combines no frames
    cases hs
    rw [hgen.plain] at hmember
    cases hmember
  · have hcf := congrArg (Option.bind · (·.cf)) (vf_member hbuild hs hm)
    rw [Rose.subtree?_append, Option.bind_eq_some_iff] at hs
    obtain ⟨u, hu, hs⟩ := hs
    obtain ⟨c, hc, hs⟩ := Rose.subtree?_cons_eq_some.mp hs
    cases hs
    have hchild := List.mem_of_getElem? hc
    have hsound := hgen.sound above u hu
    obtain ⟨a, ha⟩ : ∃ a, u.label.cf = some a := by
      rw [← Option.ne_none_iff_exists']
      intro hnone
      rw [hsound.childless hnone] at hchild
      cases hchild
    obtain ⟨-, f, hf⟩ := hsound.members _ hchild m hmember
    refine ⟨.frame (vft.builds.length - 1) above, above, u, a, f, ?_, ⟨tree, htree, rfl, hu⟩, ha,
      hsound.count a ha, (hgen.lineal above u hu).member a ha _ hchild m hmember f hf.1,
      hcf.trans hf.1⟩
    rw [parentVf, if_neg (by simp), List.dropLast_concat]

namespace TerminalBrowser

open VisualFrameTree

variable {b b' : TerminalBrowser}

/-! ## The keys -/

/-- When the status window is drawn on a frame with a call frame, neither divisor is zero. -/
def DivisorsNonzero (t : CallFrameTree) (b : TerminalBrowser) : Prop :=
  .status ∈ b.winStack → ∀ cf, b.vft.cf b.currentVf = some cf →
    (t.node t.head).count ≠ 0 ∧ (t.node (parentOr t cf)).count ≠ 0

/-- The key is not Enter in a menu whose '+' frame stands on a frame with a count of zero. -/
def ChoosesAboveCount (b : TerminalBrowser) (key : Key) : Prop :=
  key = .enter → ∀ win, b.winStack.getLast? = some (.select win) →
    ∀ below vf, b.vft.parentVf win.vf = some below → b.vft.vf below = some vf → vf.count ≠ 0

/-- The tree is rebuilt around a frame of it. -/
def Rebuilt (t : CallFrameTree) (b b' : TerminalBrowser) : Prop :=
  ∃ ref address s cf flag, b.vft.At ref address s ∧ s.label.cf = some cf ∧
    (b.vft.setWithCombinedFrames flag).rebuildTree t (some ref) = some b'.vft

/-- The tree is rebuilt around a member of the frames combined at the current frame. -/
def Chosen (t : CallFrameTree) (b b' : TerminalBrowser) : Prop :=
  ∃ win address s m, b.winStack = [.status, .flameGraph, .select win] ∧
    b.vft.At win.vf address s ∧ s.label.combinedFrames[win.current]? = some m ∧
    b.vft.rebuildTree t (some (.member (b.vft.builds.length - 1) address win.current))
      = some b'.vft ∧
    b'.currentVf = b'.vft.startVf ∧ b'.winStack = [.status, .flameGraph]

theorem flameGraphInput_vft (h : Inv t b) {key : Key} (hstep : b.flameGraphInput t key = some b') :
    b'.vft = b.vft ∨ Rebuilt t b b' := by
  rcases flameGraphInput_cases hstep with
    ⟨currentVf, vfWin, rfl⟩ | rfl | ⟨op, hrebuild, hop⟩ | ⟨win, -, -, rfl⟩
  · exact .inl rfl
  · exact .inl rfl
  · obtain ⟨vft, hrun, rfl⟩ := rebuild_eq_some.mp hrebuild
    right
    rcases hop with rfl | rfl | ⟨rfl, hcf⟩
    · obtain ⟨address, s, hat, hcf⟩ := h.coherent.at_startVf
      obtain ⟨cf, hcf⟩ := Option.isSome_iff_exists.mp hcf
      exact ⟨_, address, s, cf, _, hat, hcf, hrun⟩
    · obtain ⟨s, hat, hcf⟩ := h.coherent.at_head
      exact ⟨_, [], s, t.head, b.vft.withCombinedFrames, hat, hcf, hrun⟩
    · obtain ⟨address, s, hat⟩ := h.current
      rw [hat.cf] at hcf
      obtain ⟨cf, hcf⟩ := Option.isSome_iff_exists.mp hcf
      exact ⟨_, address, s, cf, b.vft.withCombinedFrames, hat, hcf, hrun⟩
  · exact .inl rfl

theorem selectInput_vft (h : Inv t b) {win : SelectVisualFrameWindow}
    (hwindows : b.winStack = [.status, .flameGraph, .select win]) (hmenu : b.Menu win) {key : Key}
    (hstep : b.selectInput t win key = some b') :
    b'.vft = b.vft ∧ key ≠ .enter ∨ key = .enter ∧ Chosen t b b' := by
  rcases selectInput_cases hstep with ⟨hkey, hb'⟩ | ⟨hkey, build, address, rebuilt, href, hrebuild, rfl⟩
  · refine .inl ⟨?_, hkey⟩
    rcases hb' with rfl | rfl | ⟨win', rfl⟩
    · rfl
    · rfl
    · rfl
  · obtain ⟨vft, hrun, rfl⟩ := rebuild_eq_some.mp hrebuild
    obtain ⟨hvf, hcurrent⟩ := hmenu
    obtain ⟨address', s, hat⟩ := h.current
    have hsame : VfRef.frame build address = .frame (b.vft.builds.length - 1) address' := by
      obtain ⟨-, -, href', -⟩ := hat
      rw [← href, hvf, href']
    cases hsame
    rw [hat.combinedFrames] at hcurrent
    refine .inr ⟨hkey, win, address, s, _, hwindows, hvf ▸ hat, List.getElem?_eq_getElem hcurrent,
      hrun, rfl, ?_⟩
    rw [pop, hwindows]
    rfl

/-- **What a key does to the visual tree.** -/
theorem processInput_vft (h : Inv t b) {key : Key} (hstep : b.processInput t key = some b') :
    (b'.vft = b.vft ∨ Rebuilt t b b') ∧ b.ChoosesAboveCount key ∨ key = .enter ∧ Chosen t b b' := by
  have hmenuless : (∀ win, b.winStack.getLast? ≠ some (.select win)) → b.ChoosesAboveCount key :=
    fun hnone _ win hwin => absurd hwin (hnone win)
  rcases h.processInput_cases hstep with
    ⟨hw, rfl⟩ | ⟨hw, rfl⟩ | ⟨hw, hstep⟩ | ⟨win, hw, hmenu, hstep⟩
  · exact .inl ⟨.inl rfl, hmenuless (by simp [hw])⟩
  · exact .inl ⟨.inl rfl, hmenuless (by simp [hw])⟩
  · exact .inl ⟨flameGraphInput_vft h hstep, hmenuless (by simp [hw])⟩
  · rcases selectInput_vft h hw hmenu hstep with ⟨hvft, hkey⟩ | hchosen
    · exact .inl ⟨.inl hvft, fun henter => absurd henter hkey⟩
    · exact .inr hchosen

/-! ## Every run -/

/-- Every frame of the current tree is at the end of a measured line. -/
structure MeasuredInv (t : CallFrameTree) (b : TerminalBrowser) : Prop where
  inv : Inv t b
  tree : ∀ tree, b.vft.current = some tree → tree.Everywhere (MeasuredAt t)

theorem MeasuredInv.line (h : MeasuredInv t b) {ref : VfRef} {address : List Nat}
    {s : Rose VisualFrameNode} (hat : b.vft.At ref address s) {cf : Nat}
    (hcf : s.label.cf = some cf) : MeasuredLine t cf := by
  obtain ⟨tree, htree, -, hs⟩ := hat
  exact h.tree tree htree address s hs cf hcf

theorem MeasuredInv.divisorsNonzero (h : MeasuredInv t b) (hhead : Measured t t.head)
    (htotal : (t.node t.head).count ≠ 0) : b.DivisorsNonzero t := by
  intro _ cf hcf
  refine ⟨htotal, ?_⟩
  obtain ⟨address, s, hat⟩ := h.inv.current
  rw [hat.cf] at hcf
  have hline := h.line hat hcf
  obtain ⟨tree, htree, -, hs⟩ := hat
  have hgen := h.inv.coherent.genealogical_current htree
  obtain ⟨labels, hlabels, -⟩ := Rose.spine_of_subtree? hs
  obtain ⟨cs, -, hcs, hlast⟩ := lineage_spine hgen.sound hgen.lineal hgen.cf hs hcf hlabels
  rw [← hlast] at hline
  exact hlast ▸ hline.measured hcs hhead

/-- **One key.** Only a choice above a frame without a count leads to a divisor of zero. -/
theorem measured_step (h : MeasuredInv t b) {key : Key} (hstep : b.processInput t key = some b') :
    (b.ChoosesAboveCount key → MeasuredInv t b') ∧
      (b'.DivisorsNonzero t → b.ChoosesAboveCount key) := by
  have hinv' : Inv t b' := by
    obtain ⟨b₁, hrun, hinv, -⟩ := processInput_spec h.inv key
    rw [hstep] at hrun
    cases hrun
    exact hinv
  rcases processInput_vft h.inv hstep with ⟨hvft, hchooses⟩ | ⟨rfl, hchosen⟩
  · refine ⟨fun _ => ⟨hinv', ?_⟩, fun _ => hchooses⟩
    rcases hvft with hvft | ⟨ref, address, s, cf, flag, hat, hcf, hrun⟩
    · rw [hvft]
      exact h.tree
    · have hgen : ∀ tree ∈ (b.vft.setWithCombinedFrames flag).builds, Genealogical t tree :=
        h.inv.coherent.genealogical
      have href : (b.vft.setWithCombinedFrames flag).cf ref = some cf := hat.cf.trans hcf
      exact (measured_rebuildTree hgen href (h.line hat hcf) hrun).1
  · obtain ⟨win, address, s, m, hwindows, hat, hm, hrun, hcurrent, hstack⟩ := hchosen
    obtain ⟨below, above, u, a, f, hbelow, hatu, ha, hcount, hf, hcf⟩ :=
      hat.member_below h.inv.coherent hm
    have hchooses : b.ChoosesAboveCount .enter ↔ Measured t f := by
      rw [measured_iff hf, ← hcount]
      constructor
      · intro hall
        exact hall rfl win (by rw [hwindows]; rfl) below u.label.toVisualFrame hbelow hatu.vf
      · intro hne _ win' hwin' below' vf hbelow' hvf
        rw [hwindows] at hwin'
        cases hwin'
        rw [hbelow] at hbelow'
        cases hbelow'
        rw [hatu.vf] at hvf
        cases hvf
        exact hne
    rw [hchooses]
    have hline := (h.line hatu ha).child hf
    have hgen := h.inv.coherent.genealogical
    refine ⟨fun hmeasured => ⟨hinv', (measured_rebuildTree hgen hcf (hline hmeasured) hrun).1⟩, ?_⟩
    intro hsafe
    -- the frame that was chosen is the current one now
    obtain ⟨cs, -, hlast, hadopt⟩ := rebuildTree_eq_adopt hgen hcf
    rw [hrun] at hadopt
    have hnow : b'.vft.cf b'.currentVf = some f := by
      rw [hcurrent, Option.some.inj hadopt, cf_startVf_adopt, hlast]
    exact (hsafe (by rw [hstack]; exact List.mem_cons_self) f hnow).2

/-- Every run, from a state whose frames are measured. -/
theorem divisors_everyState_iff (h : MeasuredInv t b) (hhead : Measured t t.head)
    (htotal : (t.node t.head).count ≠ 0) (keys : List Key) :
    EveryState t (DivisorsNonzero t) b keys ↔ EveryKey t ChoosesAboveCount b keys :=
  everyState_iff MeasuredInv.inv (·.divisorsNonzero hhead htotal)
    (fun h hstep => measured_step h hstep) h keys

/-! ## Every file -/

theorem count_head (samples : List (List Str × Int)) :
    ((CallFrameTree.ofSamples samples).node 0).count = (samples.map (·.2)).sum := by
  obtain ⟨path, hp⟩ := ofSamples_profile samples
  obtain ⟨root, hroot, -⟩ := hp.wired.root
  have hall : samples.filter (fun s => path 0 <+: s.1) = samples := by
    rw [List.filter_eq_self, hp.wired.path_root]
    intro s _
    simp
  show (frameAt _ 0).count = _
  rw [frameAt_of_cell hroot, hp.count 0 root hroot, tally, hall]

/-- `process_args` without `--dump`: the call tree, and the browser before its main loop. -/
def processArgs (fileType : FileType) (text : Str) (terminal : Terminal) (wsFiller : Str) :
    Except PyError (CallFrameTree × Option TerminalBrowser) := do
  let samples ← fileType.parse text
  let callTree := CallFrameTree.ofSamples samples
  return (callTree, display callTree terminal wsFiller)

theorem exists_measured_display (samples : List (List Str × Int)) (terminal : Terminal)
    (wsFiller : Str) :
    ∃ start, display (.ofSamples samples) terminal wsFiller = some start ∧
      MeasuredInv (.ofSamples samples) start ∧ .status ∈ start.winStack ∧
      start.vft.cf start.currentVf = some 0 := by
  obtain ⟨start, hdisplay, hinv, -⟩ := exists_display (.ofSamples samples) terminal wsFiller
  have hstart := hdisplay
  rw [display, init_eq_adopt] at hstart
  cases hstart
  refine ⟨_, hdisplay, ⟨hinv, ?_⟩, List.mem_cons_self, ?_⟩
  · intro tree htree
    rw [current_adopt] at htree
    cases htree
    have hline : (CallFrameTree.ofSamples samples).Lineage 0 [] := trivial
    exact measured_zoomTree _ hline (MeasuredLine.head _) 0
  · exact cf_startVf_adopt _ _ []

/-- **When the status line never divides by zero.** The counts in the file must not cancel out, and
Enter must not be pressed in a menu that stands on a frame whose count is zero. -/
theorem divisors_iff {fileType : FileType} {text : Str} {samples : List (List Str × Int)}
    (hparse : fileType.parse text = .ok samples) (terminal : Terminal) (wsFiller : Str)
    (keys : List Key) :
    ∃ start, processArgs fileType text terminal wsFiller = .ok (.ofSamples samples, some start) ∧
      (EveryState (.ofSamples samples) (DivisorsNonzero (.ofSamples samples)) start keys ↔
        (samples.map (·.2)).sum ≠ 0 ∧
          EveryKey (.ofSamples samples) ChoosesAboveCount start keys) := by
  obtain ⟨start, hdisplay, hmeasured, hstatus, hcurrent⟩ :=
    exists_measured_display samples terminal wsFiller
  refine ⟨start, ?_, ?_⟩
  · rw [processArgs, hparse, ← hdisplay]
    rfl
  · rw [← count_head]
    by_cases htotal : ((CallFrameTree.ofSamples samples).node 0).count = 0
    · constructor
      · intro hevery
        exact absurd htotal (hevery.now hstatus 0 hcurrent).1
      · rintro ⟨hne, -⟩
        exact absurd htotal hne
    · have hhead : Measured (.ofSamples samples) 0 := by
        rw [Measured, parentOr_head]
        exact htotal
      rw [divisors_everyState_iff hmeasured hhead htotal]
      exact (and_iff_right htotal).symm

/-- A file with nothing in it is divided by at once. -/
theorem divisors_zero :
    FileType.none.parse [] = .ok [] ∧
      ∃ start, processArgs .none [] ⟨24, 80⟩ [' '] = .ok (.ofSamples [], some start) ∧
        ¬ EveryState (.ofSamples []) (DivisorsNonzero (.ofSamples [])) start [] := by
  obtain ⟨start, hdisplay, -, hstatus, hcurrent⟩ := exists_measured_display [] ⟨24, 80⟩ [' ']
  refine ⟨rfl, start, ?_, ?_⟩
  · rw [← hdisplay]
    rfl
  · intro hsafe
    exact (hsafe hstatus 0 hcurrent).1 (count_head [])

/-- `a;b` once, with the keys up, down and two times q. -/
theorem divisors_iff_oneStack :
    FileType.none.parse "a;b 1".toList = .ok [([['a'], ['b']], 1)] ∧
      ∃ start, processArgs .none "a;b 1".toList ⟨24, 80⟩ [' ']
          = .ok (.ofSamples [([['a'], ['b']], 1)], some start) ∧
        EveryState (.ofSamples [([['a'], ['b']], 1)])
          (DivisorsNonzero (.ofSamples [([['a'], ['b']], 1)])) start [.up, .down, .q, .q] := by
  have hparse : FileType.none.parse "a;b 1".toList = .ok [([['a'], ['b']], 1)] := by
    decide +kernel
  obtain ⟨start, hrun, hiff⟩ := divisors_iff hparse ⟨24, 80⟩ [' '] [.up, .down, .q, .q]
  refine ⟨hparse, start, hrun, hiff.mpr ⟨by decide, ?_⟩⟩
  simp [EveryKey, ChoosesAboveCount]

end TerminalBrowser

end LdbToolchain.Tfg
