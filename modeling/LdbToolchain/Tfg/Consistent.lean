import LdbToolchain.Tfg.Browser

/-!
# The shared state of the windows

Zooming, resetting and flipping throw the whole visual tree away while the current frame, the zoomed
frame and an open menu refer into it. `Consistent` is what every key keeps: current and zoomed frame
belong to the current tree, the windows are stacked in one of four ways, the menu lists the combined
frames of the current frame, and all frames above the current one have a call frame. No key ends in
an error, `run_consistent`.
-/

namespace LdbToolchain.Tfg

variable {t : CallFrameTree}

namespace VisualFrameTree

variable {vft : VisualFrameTree} {ref : VfRef} {address : List Nat} {s : Rose VisualFrameNode}

/-- The frame referred to hangs in the current tree, at an address. -/
def At (vft : VisualFrameTree) (ref : VfRef) (address : List Nat) (s : Rose VisualFrameNode) :
    Prop :=
  ∃ tree, vft.current = some tree ∧ ref = .frame (vft.builds.length - 1) address ∧
    tree.subtree? address = some s

/-- The frame referred to can be reached from the head. -/
def Reachable (vft : VisualFrameTree) (ref : VfRef) : Prop := ∃ address s, vft.At ref address s

theorem current_build {tree : Rose VisualFrameNode} (h : vft.current = some tree) :
    vft.builds[vft.builds.length - 1]? = some tree := by
  rw [← List.getLast?_eq_getElem?]
  exact h

theorem Coherent.current (h : Coherent t vft) :
    ∃ tree, vft.current = some tree ∧ Genealogical t tree := by
  obtain ⟨before, cs, hcs, rfl⟩ := h.zoomed
  exact ⟨_, current_adopt t before cs, genealogical_zoomedTree _ hcs⟩

theorem Coherent.genealogical_current (h : Coherent t vft) {tree : Rose VisualFrameNode}
    (htree : vft.current = some tree) : Genealogical t tree :=
  h.genealogical tree (List.mem_of_getElem? (current_build htree))

namespace At

theorem vf (h : vft.At ref address s) : vft.vf ref = some s.label.toVisualFrame := by
  obtain ⟨tree, htree, rfl, hs⟩ := h
  exact vf_frame (current_build htree) hs

theorem cf (h : vft.At ref address s) : vft.cf ref = s.label.cf := by
  rw [VisualFrameTree.cf, h.vf]
  rfl

theorem node (h : vft.At ref address s) : vft.node? ref = some s := by
  obtain ⟨tree, htree, rfl, hs⟩ := h
  rw [node?, current_build htree]
  exact hs

theorem combinedFrames (h : vft.At ref address s) :
    vft.combinedFrames ref = s.label.combinedFrames := by
  rw [VisualFrameTree.combinedFrames, h.node]
  rfl

theorem reachable (h : vft.At ref address s) : vft.Reachable ref := ⟨address, s, h⟩

/-- The depth of a frame is its row. -/
theorem y (h : vft.At ref address s) (hcoherent : Coherent t vft) :
    s.label.y = address.length := by
  obtain ⟨tree, htree, -, hs⟩ := h
  have hgen := hcoherent.genealogical_current htree
  exact hgen.sound.y_eq_depth hgen.y address s hs

/-- The parent of a frame hangs in the tree, one row below. -/
theorem parent (h : vft.At ref address s) {up : VfRef} (hup : vft.parentVf ref = some up) :
    ∃ above u, vft.At up above u ∧ above.length + 1 = address.length := by
  obtain ⟨tree, htree, rfl, hs⟩ := h
  rw [parentVf] at hup
  split at hup
  · cases hup
  · next hne =>
      cases hup
      rcases List.eq_nil_or_concat' address with rfl | ⟨above, i, rfl⟩
      · exact absurd rfl hne
      · rw [Rose.subtree?_append, Option.bind_eq_some_iff] at hs
        obtain ⟨u, hu, -⟩ := hs
        rw [List.dropLast_concat]
        refine ⟨above, u, ⟨tree, htree, rfl, hu⟩, ?_⟩
        rw [List.length_append]
        rfl

theorem down (h : vft.At ref address s) :
    ∃ below u, vft.At ((vft.parentVf ref).getD ref) below u ∧
      (below.length = address.length ∨ below.length + 1 = address.length) := by
  cases hparent : vft.parentVf ref with
  | none => exact ⟨address, s, h, .inl rfl⟩
  | some up =>
      obtain ⟨below, u, hbelow, hlength⟩ := h.parent hparent
      exact ⟨below, u, hbelow, .inr hlength⟩

/-- So does the first of its children with a width, one row above. -/
theorem child (h : vft.At ref address s) {up : VfRef} (hup : vft.firstVisible ref = some up) :
    ∃ above u, vft.At up above u ∧ above.length = address.length + 1 := by
  have hnode := h.node
  obtain ⟨tree, htree, rfl, hs⟩ := h
  simp only [firstVisible, hnode, Option.bind_eq_bind, Option.bind_some, Option.bind_eq_some_iff,
    Option.pure_def, Option.some.injEq] at hup
  obtain ⟨i, hi, rfl⟩ := hup
  obtain ⟨hlt, -⟩ := List.findIdx?_eq_some_iff_getElem.mp hi
  refine ⟨address ++ [i], s.children[i], ⟨tree, htree, rfl, ?_⟩, ?_⟩
  · rw [Rose.subtree?_append, hs]
    exact Rose.subtree?_child (List.getElem?_eq_getElem hlt)
  · rw [List.length_append]
    rfl

theorem up (h : vft.At ref address s) :
    ∃ above u, vft.At ((vft.firstVisible ref).getD ref) above u ∧
      (above.length = address.length ∨ above.length = address.length + 1) := by
  cases hchild : vft.firstVisible ref with
  | none => exact ⟨address, s, h, .inl rfl⟩
  | some child =>
      obtain ⟨above, u, habove, hlength⟩ := h.child hchild
      exact ⟨above, u, habove, .inr hlength⟩

/-- The links of `link_frames` stay in the tree, and lead to the same row or one above. -/
theorem left (h : vft.At ref address s) :
    ∃ next u, vft.At ((vft.leftVf ref).getD ref) next u ∧
      (next.length = address.length ∨ next.length = address.length + 1) := by
  cases hleft : vft.leftVf ref with
  | none => exact ⟨address, s, h, .inl rfl⟩
  | some l =>
      obtain ⟨tree, htree, rfl, -⟩ := h
      simp only [leftVf, current_build htree, Option.bind_eq_bind, Option.bind_some,
        Option.bind_eq_some_iff, Option.pure_def, Option.some.injEq] at hleft
      obtain ⟨next, hnext, rfl⟩ := hleft
      have hmem := mem_of_lookup hnext
      obtain ⟨u, hu⟩ := Rose.exists_subtree_of_mem_bfsTraversal (mem_of_mem_pairwise hmem).2
      exact ⟨next, u, ⟨tree, htree, rfl, hu⟩,
        rel_of_mem_pairwise (Rose.depth_bfsTraversal tree) hmem⟩

theorem right (h : vft.At ref address s) :
    ∃ before u, vft.At ((vft.rightVf ref).getD ref) before u ∧
      (address.length = before.length ∨ address.length = before.length + 1) := by
  cases hright : vft.rightVf ref with
  | none => exact ⟨address, s, h, .inl rfl⟩
  | some r =>
      obtain ⟨tree, htree, rfl, -⟩ := h
      simp only [rightVf, current_build htree, Option.bind_eq_bind, Option.bind_some,
        Option.bind_eq_some_iff, Option.pure_def, Option.some.injEq] at hright
      obtain ⟨before, hbefore, rfl⟩ := hright
      have hmem : (before, address) ∈ pairwise tree.bfsTraversal := by
        obtain ⟨x, hx, hswap⟩ := List.mem_map.mp (mem_of_lookup hbefore)
        rw [show (before, address) = x by rw [← Prod.swap_swap x, hswap]; rfl]
        exact hx
      obtain ⟨u, hu⟩ := Rose.exists_subtree_of_mem_bfsTraversal (mem_of_mem_pairwise hmem).1
      exact ⟨before, u, ⟨tree, htree, rfl, hu⟩,
        rel_of_mem_pairwise (Rose.depth_bfsTraversal tree) hmem⟩

/-- The frames above a frame have call frames. -/
theorem parents (h : vft.At ref address s) (hcoherent : Coherent t vft) :
    ∃ vf above, vft.parents ref = some (vf :: above) ∧ ∀ v ∈ above, v.cf.isSome = true := by
  obtain ⟨tree, htree, rfl, hs⟩ := h
  have hsound := (hcoherent.genealogical_current htree).sound
  obtain ⟨labels, hlabels, hlast⟩ := Rose.spine_of_subtree? hs
  obtain ⟨front, rfl⟩ := List.getLast?_eq_some_iff.mp hlast
  refine ⟨s.label.toVisualFrame, (front.map (·.toVisualFrame)).reverse, ?_, ?_⟩
  · simp [VisualFrameTree.parents, current_build htree, hlabels]
  · intro v hv
    obtain ⟨l, hl, rfl⟩ := List.mem_map.mp (List.mem_reverse.mp hv)
    exact cf_isSome_of_mem_spine hsound hlabels hl

end At

theorem Coherent.at_head (h : Coherent t vft) :
    ∃ s, vft.At vft.head [] s ∧ s.label.cf = some t.head := by
  obtain ⟨tree, htree, hgen⟩ := h.current
  exact ⟨tree, ⟨tree, htree, rfl, rfl⟩, hgen.cf⟩

theorem Coherent.at_startVf (h : Coherent t vft) :
    ∃ address s, vft.At vft.startVf address s ∧ s.label.cf.isSome = true := by
  obtain ⟨before, cs, -, rfl⟩ := h.zoomed
  refine ⟨List.replicate cs.length 0, _, ⟨_, current_adopt t before cs, ?_,
    subtree?_zoomedTree t before.toCanvas cs⟩, rfl⟩
  show VfRef.frame _ _ = VfRef.frame ((before.builds ++ [_]).length - 1) _
  rw [List.length_append]
  rfl

/-- **Zooming into a frame keeps its row.** -/
theorem rebuildTree_at (hgen : ∀ tree ∈ vft.builds, Genealogical t tree) {b : Nat}
    (hcf : vft.cf ref = some b) {depth : Nat}
    (hdepth : ∀ cs, t.Lineage t.head cs → CallFrameTree.lastOf t.head cs = b →
      cs.length = depth) :
    ∃ vft' address s, vft.rebuildTree t (some ref) = some vft' ∧ Coherent t vft' ∧
      vft'.At vft'.startVf address s ∧ address.length = depth := by
  obtain ⟨cs, hcs, hlast, hrun⟩ := rebuildTree_eq_adopt hgen hcf
  refine ⟨_, List.replicate cs.length 0, _, hrun, coherent_adopt hgen hcs,
    ⟨_, current_adopt t vft cs, ?_, subtree?_zoomedTree t vft.toCanvas cs⟩, ?_⟩
  · show VfRef.frame _ _ = VfRef.frame ((vft.builds ++ [_]).length - 1) _
    rw [List.length_append]
    rfl
  · rw [List.length_replicate, hdepth cs hcs hlast]

/-- The row of a call frame that the current tree shows. -/
theorem At.depth (h : vft.At ref address s) (hcoherent : Coherent t vft) {b : Nat}
    (hb : s.label.cf = some b) {cs : List Nat} (hcs : t.Lineage t.head cs)
    (hlast : CallFrameTree.lastOf t.head cs = b) : cs.length = address.length := by
  obtain ⟨tree, htree, -, hs⟩ := h
  exact length_lineage (hcoherent.genealogical_current htree) hs hb hcs hlast

/-- The members of combined frames can be zoomed into. -/
theorem At.member (h : vft.At ref address s) (hcoherent : Coherent t vft) {index : Nat}
    (hindex : index < s.label.combinedFrames.length) :
    ∃ f, vft.cf (.member (vft.builds.length - 1) address index) = some f ∧
      ∀ cs, t.Lineage t.head cs → CallFrameTree.lastOf t.head cs = f →
        cs.length = address.length := by
  obtain ⟨tree, htree, -, hs⟩ := h
  have hgen := hcoherent.genealogical_current htree
  have hm := List.getElem_mem hindex
  obtain ⟨f, ⟨hf, -⟩, hlength⟩ := member_lineage hgen hs hm
  refine ⟨f, ?_, hlength⟩
  rcases List.eq_nil_or_concat' address with rfl | ⟨above, i, rfl⟩
  · cases hs
    simp [hgen.plain] at hindex
  · rw [VisualFrameTree.cf, vf_member (current_build htree) hs (List.getElem?_eq_getElem hindex)]
    exact hf

end VisualFrameTree

namespace TerminalBrowser

open VisualFrameTree

variable {b : TerminalBrowser}

/-! ## The invariant -/

/-- The menu lists the combined frames of the current frame, one of which is selected. -/
def Menu (b : TerminalBrowser) (win : SelectVisualFrameWindow) : Prop :=
  win.vf = b.currentVf ∧ win.current < (b.vft.combinedFrames b.currentVf).length

/-- The four ways in which windows are stacked. -/
def WindowsStacked (b : TerminalBrowser) : Prop :=
  b.winStack = [] ∨ b.winStack = [.status] ∨ b.winStack = [.status, .flameGraph] ∨
    ∃ win, b.winStack = [.status, .flameGraph, .select win] ∧ b.Menu win

structure Inv (t : CallFrameTree) (b : TerminalBrowser) : Prop where
  coherent : Coherent t b.vft
  current : b.vft.Reachable b.currentVf
  windows : b.WindowsStacked

/-- The row of a frame. -/
def levelOf (b : TerminalBrowser) (ref : VfRef) : Int := ((b.vft.vf ref).map (·.y)).getD 0

/-- The level of the current frame. -/
def level (b : TerminalBrowser) : Int := b.levelOf b.currentVf

/-- Where the keys for left and right lead. -/
def leftLevel (b : TerminalBrowser) : Int :=
  b.levelOf ((b.vft.leftVf b.currentVf).getD b.currentVf)

def rightLevel (b : TerminalBrowser) : Int :=
  b.levelOf ((b.vft.rightVf b.currentVf).getD b.currentVf)

theorem levelOf_at (h : Coherent t b.vft) {ref : VfRef} {address : List Nat}
    {s : Rose VisualFrameNode} (hat : b.vft.At ref address s) :
    b.levelOf ref = address.length := by
  rw [levelOf, hat.vf, ← hat.y h]
  rfl

/-- What a key does to the level of the current frame and to the levels on display, when the
flame-graph window has the focus. -/
def Moves (b b' : TerminalBrowser) : Key → Prop
  | .c => b'.level = b.levelOf b.vft.startVf ∧ b'.vfWin = b.vfWin
  | .r => b'.level = 0 ∧ b'.vfWin = b.vfWin
  | .down => (b'.level = b.level ∨ b'.level = b.level - 1) ∧
      b'.vfWin = { b.vfWin with
        startLevel := if b'.level < b.vfWin.startLevel then b.vfWin.startLevel - 1
          else b.vfWin.startLevel }
  | .up => (b'.level = b.level ∨ b'.level = b.level + 1) ∧
      b'.vfWin = { b.vfWin with
        startLevel := if b'.level > b.vfWin.topLevel then b.vfWin.startLevel + 1
          else b.vfWin.startLevel }
  | .left => b'.level = b.leftLevel ∧ b'.vfWin = b.vfWin ∧
      (b.leftLevel = b.level ∨ b.leftLevel = b.level + 1)
  | .right => b'.level = b.rightLevel ∧ b'.vfWin = b.vfWin ∧
      (b.rightLevel = b.level ∨ b.rightLevel = b.level - 1)
  | _ => b'.level = b.level ∧ b'.vfWin = b.vfWin

/-! ## One key -/

def goTo (b : TerminalBrowser) (ref : VfRef) (vfWin : FlameGraphWindow) : TerminalBrowser :=
  { b with currentVf := ref, vfWin }

theorem level_goTo (b : TerminalBrowser) (ref : VfRef) (vfWin : FlameGraphWindow) :
    (b.goTo ref vfWin).level = b.levelOf ref := rfl

/-- Moving to another frame of the tree, with no menu open. -/
theorem Inv.goTo (h : Inv t b) (hwindows : b.winStack = [.status, .flameGraph]) {ref : VfRef}
    (href : b.vft.Reachable ref) (vfWin : FlameGraphWindow) : Inv t (b.goTo ref vfWin) where
  coherent := h.coherent
  current := href
  windows := .inr (.inr (.inl hwindows))

/-- Closing the topmost window. -/
theorem Inv.pop (h : Inv t b) : Inv t b.pop where
  coherent := h.coherent
  current := h.current
  windows := by
    rcases h.windows with hw | hw | hw | ⟨win, hw, -⟩
    · exact .inl (by rw [TerminalBrowser.pop, hw]; rfl)
    · exact .inl (by rw [TerminalBrowser.pop, hw]; rfl)
    · exact .inr (.inl (by rw [TerminalBrowser.pop, hw]; rfl))
    · exact .inr (.inr (.inl (by rw [TerminalBrowser.pop, hw]; rfl)))

/-- Rebuilding around a frame that shows a call frame: the new current frame shows it, in its row. -/
theorem exists_rebuild (op : Op) {vft : VisualFrameTree} {ref : VfRef} {f depth : Nat}
    (hop : b.vft.step t op = vft.rebuildTree t (some ref))
    (hgen : ∀ tree ∈ vft.builds, Genealogical t tree) (hcf : vft.cf ref = some f)
    (hdepth : ∀ cs, t.Lineage t.head cs → CallFrameTree.lastOf t.head cs = f →
      cs.length = depth) :
    ∃ b', b.rebuild t op = some b' ∧ Coherent t b'.vft ∧ b'.vft.Reachable b'.currentVf ∧
      b'.winStack = b.winStack ∧ b'.vfWin = b.vfWin ∧ b'.level = depth := by
  obtain ⟨vft', address, s, hrebuild, hcoherent, hat, hlength⟩ := rebuildTree_at hgen hcf hdepth
  refine ⟨{ b with vft := vft', currentVf := vft'.startVf }, ?_, hcoherent, hat.reachable, rfl, rfl,
    ?_⟩
  · rw [rebuild, hop, hrebuild]
    rfl
  · rw [← hlength]
    exact levelOf_at (b := { b with vft := vft', currentVf := vft'.startVf }) hcoherent hat

/-- The same for a frame of the current tree, with no menu open. -/
theorem Inv.exists_rebuild (h : Inv t b) (hwindows : b.winStack = [.status, .flameGraph]) (op : Op)
    {ref : VfRef} {address : List Nat} {s : Rose VisualFrameNode} {f : Nat} {combined : Bool}
    (hop : b.vft.step t op = (b.vft.setWithCombinedFrames combined).rebuildTree t (some ref))
    (hat : b.vft.At ref address s) (hcf : s.label.cf = some f) :
    ∃ b', b.rebuild t op = some b' ∧ Inv t b' ∧ b'.level = address.length ∧
      b'.vfWin = b.vfWin := by
  have hgen : ∀ tree ∈ (b.vft.setWithCombinedFrames combined).builds, Genealogical t tree :=
    h.coherent.genealogical
  obtain ⟨b', hrun, hcoherent, hreach, hstack, hwin, hlevel⟩ :=
    TerminalBrowser.exists_rebuild op hop hgen (hat.cf.trans hcf) fun cs hcs hlast =>
      hat.depth h.coherent hcf hcs hlast
  exact ⟨b', hrun, ⟨hcoherent, hreach, .inr (.inr (.inl (hstack.trans hwindows)))⟩, hlevel, hwin⟩

/-- A list is mapped when each of its elements is. -/
theorem exists_mapM {α β : Type} {f : α → Option β} {l : List α}
    (h : ∀ a ∈ l, ∃ b, f a = some b) : ∃ bs, l.mapM f = some bs ∧ bs.length = l.length := by
  induction l with
  | nil => exact ⟨[], rfl, rfl⟩
  | cons a l ih =>
      obtain ⟨b, hb⟩ := h a (List.mem_cons_self ..)
      obtain ⟨bs, hbs, hlen⟩ := ih fun c hc => h c (List.mem_cons_of_mem a hc)
      refine ⟨b :: bs, ?_, congrArg Nat.succ hlen⟩
      rw [List.mapM_cons, hb, hbs]
      rfl

/-- Opening the menu of a frame that combines frames. -/
theorem exists_select_init (terminal : Terminal) {vft : VisualFrameTree} (h : Coherent t vft)
    {ref : VfRef} {address : List Nat} {s : Rose VisualFrameNode} (hat : vft.At ref address s)
    (hne : s.label.combinedFrames ≠ []) :
    ∃ win, SelectVisualFrameWindow.init t terminal ref s.label.combinedFrames = some win ∧
      win.vf = ref ∧ win.current = 0 := by
  obtain ⟨tree, htree, -, hs⟩ := hat
  -- every member has a name
  obtain ⟨names, hnames, hlen⟩ := exists_mapM (l := s.label.combinedFrames)
    (f := fun f => f.cf.map fun cf => (t.node cf).name) (by
      intro m hm
      obtain ⟨f, ⟨hf, -⟩, -⟩ := member_lineage (h.genealogical_current htree) hs hm
      exact ⟨_, by rw [hf]; rfl⟩)
  have hnamesne : names ≠ [] := by
    intro hnil
    rw [hnil] at hlen
    exact hne (List.length_eq_zero_iff.mp hlen.symm)
  obtain ⟨longest, hlongest⟩ : ∃ longest, (names.map List.length).max? = some longest := by
    rw [← Option.isSome_iff_exists, List.isSome_max?_iff]
    simpa using hnamesne
  rw [SelectVisualFrameWindow.init, hnames]
  simp only [Option.bind_eq_bind, Option.bind_some, hlongest]
  exact ⟨_, rfl, rfl, rfl⟩

/-- The menu on the combined frames of the current frame. -/
theorem Inv.openMenu (h : Inv t b) (hwindows : b.winStack = [.status, .flameGraph])
    {win : SelectVisualFrameWindow} (hmenu : b.Menu win) :
    Inv t { b with winStack := b.winStack ++ [.select win] } where
  coherent := h.coherent
  current := h.current
  windows := by
    refine .inr (.inr (.inr ⟨win, ?_, hmenu⟩))
    rw [hwindows]
    rfl

/-- Enter zooms into the current frame, or opens the menu of the frames it combines. -/
theorem enter_spec (h : Inv t b) (hwindows : b.winStack = [.status, .flameGraph]) :
    ∃ b', b.flameGraphInput t .enter = some b' ∧ Inv t b' ∧ Moves b b' .enter := by
  obtain ⟨address, s, hat⟩ := h.current
  have hlevel : b.level = address.length := levelOf_at h.coherent hat
  rw [flameGraphInput]
  simp only [hat.vf, Option.bind_eq_bind, Option.bind_some, hat.combinedFrames]
  by_cases hcf : s.label.cf = none
  · rw [if_neg (not_not.mpr hcf)]
    by_cases hmembers : s.label.combinedFrames = []
    · rw [if_neg (not_not.mpr hmembers)]
      exact ⟨b, rfl, h, rfl, rfl⟩
    · rw [if_pos hmembers]
      obtain ⟨win, hwin, hvf, hcurrent⟩ := exists_select_init b.terminal h.coherent hat hmembers
      have hmenu : b.Menu win := by
        refine ⟨hvf, ?_⟩
        rw [hcurrent, hat.combinedFrames]
        exact List.length_pos_of_ne_nil hmembers
      rw [hwin]
      exact ⟨_, rfl, h.openMenu hwindows hmenu, rfl, rfl⟩
  · rw [if_pos hcf]
    obtain ⟨f, hf⟩ := Option.ne_none_iff_exists'.mp hcf
    obtain ⟨b', hrun, hinv, hlevel', hwin⟩ :=
      h.exists_rebuild hwindows (.zoom b.currentVf) rfl hat hf
    exact ⟨b', hrun, hinv, hlevel'.trans hlevel.symm, hwin⟩

/-- **A key for the flame-graph window.** -/
theorem flameGraphInput_spec (h : Inv t b) (hwindows : b.winStack = [.status, .flameGraph])
    (key : Key) :
    ∃ b', b.flameGraphInput t key = some b' ∧ Inv t b' ∧ Moves b b' key := by
  obtain ⟨address, s, hat⟩ := h.current
  have hlevel : b.level = address.length := levelOf_at h.coherent hat
  cases key with
  | q => exact ⟨b.pop, rfl, h.pop, rfl, rfl⟩
  | other => exact ⟨b, rfl, h, rfl, rfl⟩
  | c =>
      obtain ⟨start, u, hstart, hcf⟩ := h.coherent.at_startVf
      obtain ⟨f, hf⟩ := Option.isSome_iff_exists.mp hcf
      obtain ⟨b', hrun, hinv, hlevel', hwin⟩ := h.exists_rebuild hwindows .flip rfl hstart hf
      refine ⟨b', hrun, hinv, ?_, hwin⟩
      rw [hlevel', levelOf_at h.coherent hstart]
  | r =>
      obtain ⟨u, hhead, hcf⟩ := h.coherent.at_head
      obtain ⟨b', hrun, hinv, hlevel', hwin⟩ := h.exists_rebuild hwindows .reset rfl hhead hcf
      exact ⟨b', hrun, hinv, hlevel', hwin⟩
  | down =>
      obtain ⟨below, u, hbelow, hlength⟩ := hat.down
      have hbelowLevel := levelOf_at h.coherent hbelow
      have hy := hbelow.y h.coherent
      refine ⟨b.goTo ((b.vft.parentVf b.currentVf).getD b.currentVf)
        { b.vfWin with
          startLevel := if u.label.y < b.vfWin.startLevel then b.vfWin.startLevel - 1
            else b.vfWin.startLevel }, ?_, h.goTo hwindows hbelow.reachable _, ?_, ?_⟩
      · rw [flameGraphInput]
        simp only [hbelow.vf, Option.bind_eq_bind, Option.bind_some]
        rfl
      · rw [level_goTo, hbelowLevel, hlevel]
        omega
      · rw [level_goTo, hbelowLevel, ← hy]
        rfl
  | up =>
      obtain ⟨above, u, habove, hlength⟩ := hat.up
      have haboveLevel := levelOf_at h.coherent habove
      have hy := habove.y h.coherent
      refine ⟨b.goTo ((b.vft.firstVisible b.currentVf).getD b.currentVf)
        { b.vfWin with
          startLevel := if u.label.y > b.vfWin.topLevel then b.vfWin.startLevel + 1
            else b.vfWin.startLevel }, ?_, h.goTo hwindows habove.reachable _, ?_, ?_⟩
      · rw [flameGraphInput]
        simp only [habove.vf, Option.bind_eq_bind, Option.bind_some]
        rfl
      · rw [level_goTo, haboveLevel, hlevel]
        omega
      · rw [level_goTo, haboveLevel, ← hy]
        rfl
  | left =>
      obtain ⟨next, u, hnext, hlength⟩ := hat.left
      have hnextLevel : b.leftLevel = next.length := levelOf_at h.coherent hnext
      refine ⟨b.goTo _ b.vfWin, rfl, h.goTo hwindows hnext.reachable _, rfl, rfl, ?_⟩
      omega
  | right =>
      obtain ⟨before, u, hbefore, hlength⟩ := hat.right
      have hbeforeLevel : b.rightLevel = before.length := levelOf_at h.coherent hbefore
      refine ⟨b.goTo _ b.vfWin, rfl, h.goTo hwindows hbefore.reachable _, rfl, rfl, ?_⟩
      omega
  | enter => exact enter_spec h hwindows

/-- A change to the selected entry of the menu. -/
theorem Inv.update (h : Inv t b) {win win' : SelectVisualFrameWindow}
    (hwindows : b.winStack = [.status, .flameGraph, .select win]) (hvf : win'.vf = b.currentVf)
    (hcurrent : win'.current < (b.vft.combinedFrames b.currentVf).length) :
    Inv t (b.update win') where
  coherent := h.coherent
  current := h.current
  windows := by
    refine .inr (.inr (.inr ⟨win', ?_, hvf, hcurrent⟩))
    rw [TerminalBrowser.update, hwindows]
    rfl

/-- **A key for the menu**: the level stays. -/
theorem selectInput_spec (h : Inv t b) {win : SelectVisualFrameWindow}
    (hwindows : b.winStack = [.status, .flameGraph, .select win]) (hmenu : b.Menu win) (key : Key) :
    ∃ b', b.selectInput t win key = some b' ∧ Inv t b' ∧ b'.level = b.level ∧
      b'.vfWin = b.vfWin := by
  obtain ⟨hvf, hcurrent⟩ := hmenu
  cases key with
  | q => exact ⟨b.pop, rfl, h.pop, rfl, rfl⟩
  | down =>
      have hnext : (if (win.current : Int) < (b.vft.combinedFrames win.vf).length - 1
          then win.current + 1 else win.current) < (b.vft.combinedFrames b.currentVf).length := by
        rw [hvf]
        split <;> omega
      rw [selectInput]
      generalize (if (win.current : Int) < (b.vft.combinedFrames win.vf).length - 1
        then win.current + 1 else win.current) = current at hnext ⊢
      split
      · exact ⟨_, rfl, h.update hwindows hvf hnext, rfl, rfl⟩
      · exact ⟨_, rfl, h.update hwindows hvf hnext, rfl, rfl⟩
  | up =>
      have hnext : (if win.current > 0 then win.current - 1 else win.current)
          < (b.vft.combinedFrames b.currentVf).length := by
        split <;> omega
      rw [selectInput]
      generalize (if win.current > 0 then win.current - 1 else win.current) = current at hnext ⊢
      split
      · exact ⟨_, rfl, h.update hwindows hvf hnext, rfl, rfl⟩
      · exact ⟨_, rfl, h.update hwindows hvf hnext, rfl, rfl⟩
  | enter =>
      obtain ⟨address, s, hat⟩ := h.current
      rw [hat.combinedFrames] at hcurrent
      obtain ⟨f, hf, hlength⟩ := hat.member h.coherent hcurrent
      obtain ⟨b', hrun, hcoherent, hreach, hstack, hwin, hlevel'⟩ :=
        exists_rebuild (.zoom (.member (b.vft.builds.length - 1) address win.current)) rfl
          h.coherent.genealogical hf hlength
      have href : win.vf = .frame (b.vft.builds.length - 1) address := by
        obtain ⟨-, -, href, -⟩ := hat
        rw [hvf, href]
      refine ⟨b'.pop, ?_, ⟨hcoherent, hreach, .inr (.inr (.inl ?_))⟩, ?_, hwin⟩
      · simp only [selectInput, href, Option.bind_eq_bind, Option.bind_some, hrun]
        rfl
      · rw [TerminalBrowser.pop, hstack, hwindows]
        rfl
      · show b'.level = b.level
        rw [hlevel', level, levelOf_at h.coherent hat]
  | c | r | left | right | other => exact ⟨b, rfl, h, rfl, rfl⟩

/-- **One key** ends in no error and keeps the invariant. The level changes only when the
flame-graph window has the focus. -/
theorem processInput_spec (h : Inv t b) (key : Key) :
    ∃ b', b.processInput t key = some b' ∧ Inv t b' ∧
      (b.winStack = [.status, .flameGraph] → Moves b b' key) ∧
      (b.winStack ≠ [.status, .flameGraph] → b'.level = b.level ∧ b'.vfWin = b.vfWin) := by
  rcases h.windows with hw | hw | hw | ⟨win, hw, hmenu⟩
  · refine ⟨b, ?_, h, ?_, fun _ => ⟨rfl, rfl⟩⟩
    · rw [processInput, hw]
      rfl
    · intro hfocus
      rw [hw] at hfocus
      cases hfocus
  · refine ⟨b.pop, ?_, h.pop, ?_, fun _ => ⟨rfl, rfl⟩⟩
    · rw [processInput, hw]
      rfl
    · intro hfocus
      rw [hw] at hfocus
      cases hfocus
  · obtain ⟨b', hrun, hinv, hmoves⟩ := flameGraphInput_spec h hw key
    refine ⟨b', ?_, hinv, fun _ => hmoves, fun hfocus => absurd hw hfocus⟩
    rw [processInput, hw]
    exact hrun
  · obtain ⟨b', hrun, hinv, hsame⟩ := selectInput_spec h hw hmenu key
    refine ⟨b', ?_, hinv, ?_, fun _ => hsame⟩
    · rw [processInput, hw]
      exact hrun
    · intro hfocus
      rw [hw] at hfocus
      cases hfocus

/-- The windows that can have the focus. -/
theorem Inv.processInput_cases (h : Inv t b) {key : Key} {b' : TerminalBrowser}
    (hstep : b.processInput t key = some b') :
    (b.winStack = [] ∧ b' = b) ∨ (b.winStack = [.status] ∧ b' = b.pop) ∨
      (b.winStack = [.status, .flameGraph] ∧ b.flameGraphInput t key = some b') ∨
      ∃ win, b.winStack = [.status, .flameGraph, .select win] ∧ b.Menu win ∧
        b.selectInput t win key = some b' := by
  rcases h.windows with hw | hw | hw | ⟨win, hw, hmenu⟩ <;> rw [processInput, hw] at hstep
  · exact .inl ⟨hw, (Option.some.inj hstep).symm⟩
  · exact .inr (.inl ⟨hw, (Option.some.inj hstep).symm⟩)
  · exact .inr (.inr (.inl ⟨hw, hstep⟩))
  · exact .inr (.inr (.inr ⟨win, hw, hmenu, hstep⟩))

/-! ## Every run -/

theorem exists_display (t : CallFrameTree) (terminal : Terminal) (wsFiller : Str) :
    ∃ b, display t terminal wsFiller = some b ∧ Inv t b ∧ b.level = 0 ∧
      b.vfWin = FlameGraphWindow.init terminal := by
  have hinit := init_eq_adopt t
    { x := 0, width := terminal.cols, wsFiller, withCombinedFrames := true }
  have hcoherent := coherent_init hinit
  obtain ⟨s, hat, -⟩ := hcoherent.at_head
  refine ⟨_, by rw [display]; rfl, ⟨hcoherent, hat.reachable, .inr (.inr (.inl rfl))⟩, ?_, rfl⟩
  exact levelOf_at (b := ⟨⟨_, _, _⟩, _, _⟩) hcoherent hat

theorem exists_run (h : Inv t b) (keys : List Key) :
    ∃ b', b.run t keys = some b' ∧ Inv t b' := by
  induction keys generalizing b with
  | nil => exact ⟨b, rfl, h⟩
  | cons key keys ih =>
      obtain ⟨b₁, hstep, h₁, -⟩ := processInput_spec h key
      obtain ⟨b', hrun, h'⟩ := ih h₁
      refine ⟨b', ?_, h'⟩
      rw [run, List.foldlM_cons, hstep]
      exact hrun

/-- The state shared by the windows is consistent. -/
structure Consistent (b : TerminalBrowser) : Prop where
  currentVf : b.vft.Reachable b.currentVf
  startVf : b.vft.Reachable b.vft.startVf
  winStack : b.winStack = [] ∨ b.winStack = [.status] ∨ b.winStack = [.status, .flameGraph] ∨
    ∃ win, b.winStack = [.status, .flameGraph, .select win]
  /-- An open menu lists the combined frames of the current frame, and there are some. -/
  menu : ∀ win, b.winStack.getLast? = some (.select win) → win.vf = b.currentVf ∧
    b.vft.combinedFrames b.currentVf ≠ [] ∧
    win.current < (b.vft.combinedFrames b.currentVf).length
  /-- The frames above the current one have call frames. -/
  above : ∃ vf above, b.vft.parents b.currentVf = some (vf :: above) ∧
    ∀ v ∈ above, v.cf.isSome = true

theorem Inv.consistent (h : Inv t b) : Consistent b where
  currentVf := h.current
  startVf := by
    obtain ⟨address, s, hat, -⟩ := h.coherent.at_startVf
    exact hat.reachable
  winStack := by
    rcases h.windows with hw | hw | hw | ⟨win, hw, -⟩
    · exact .inl hw
    · exact .inr (.inl hw)
    · exact .inr (.inr (.inl hw))
    · exact .inr (.inr (.inr ⟨win, hw⟩))
  menu := by
    intro win hlast
    rcases h.windows with hw | hw | hw | ⟨win', hw, hvf, hcurrent⟩ <;> rw [hw] at hlast <;>
      cases hlast
    exact ⟨hvf, List.ne_nil_of_length_pos (Nat.zero_lt_of_lt hcurrent), hcurrent⟩
  above := by
    obtain ⟨address, s, hat⟩ := h.current
    exact hat.parents h.coherent

/-- **The shared state stays consistent.** For every call tree, terminal and sequence of keys, no key
ends in an error, and the state is consistent afterwards. -/
theorem run_consistent (t : CallFrameTree) (terminal : Terminal) (wsFiller : Str)
    (keys : List Key) :
    ∃ b, (display t terminal wsFiller).bind (run t · keys) = some b ∧ Consistent b := by
  obtain ⟨start, hdisplay, hinv, -⟩ := exists_display t terminal wsFiller
  obtain ⟨b, hrun, h⟩ := exists_run hinv keys
  exact ⟨b, by rw [hdisplay, Option.bind_some, hrun], h.consistent⟩

end TerminalBrowser

end LdbToolchain.Tfg
