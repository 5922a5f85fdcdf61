import LdbToolchain.Tfg.VisualTree

/-!
# What `rebuild_tree` builds

`Sound` says how a visual tree and the call tree hang together: rows are counted from 0, a frame has
the count of its call frame, and only frames that show a call frame have children. Every visual tree
is sound, and that is what makes zooming into a frame of an earlier tree work: `rebuildTree_eq` gives
the new tree as a chain of zoomed frames above an expanded one.
-/

namespace LdbToolchain.Tfg

variable {t : CallFrameTree} {canvas : Canvas} {vf : VisualFrame}

/-- `vf` shows the call frame `cf`, and has its count. -/
def VisualFrame.Shows (t : CallFrameTree) (vf : VisualFrame) (cf : Nat) : Prop :=
  vf.cf = some cf ∧ vf.count = (t.node cf).count

/-! ## Rows -/

theorem mem_rowFrames {shrunk : Bool} {x : Int} {cfs : List Nat} {v : VisualFrame}
    (hv : v ∈ rowFrames t canvas vf shrunk x cfs) :
    ∃ c ∈ cfs, v.Shows t c ∧ v.y = vf.y + 1 ∧
      v.width = calculateWidth (t.node c).count vf.count
        (if shrunk then vf.width - 1 else vf.width) := by
  induction cfs generalizing x with
  | nil => cases hv
  | cons c cs ih =>
      rcases List.mem_cons.mp hv with rfl | hv
      · exact ⟨c, List.mem_cons_self .., ⟨rfl, rfl⟩, rfl, rfl⟩
      · obtain ⟨d, hd, h⟩ := ih hv
        exact ⟨d, List.mem_cons_of_mem c hd, h⟩

theorem mem_childRow {cf : Nat} {v : VisualFrame} (hv : v ∈ childRow t canvas vf cf) :
    ∃ c ∈ t.frames cf, v.Shows t c ∧ v.y = vf.y + 1 := by
  obtain ⟨c, hc, hshows, hy, -⟩ := mem_rowFrames hv
  exact ⟨c, (t.sortedFrames_perm cf).mem_iff.mp hc, hshows, hy⟩

/-- The children of an expanded frame: visible frames, expanded in turn, and the '+' frame. -/
theorem mem_createVfChildren {cf : Nat} {c : Rose VisualFrameNode}
    (hc : c ∈ createVfChildren t canvas vf cf) :
    (∃ v ∈ visible (childRow t canvas vf cf), c = expand t canvas v) ∨
    ∃ x, c = .node (plusVf x (vf.y + 1) (combined (childRow t canvas vf cf))) [] := by
  by_cases hne : t.frames cf = []
  · rw [createVfChildren, if_pos hne] at hc
    cases hc
  · rw [createVfChildren_eq t canvas vf cf hne] at hc
    rcases List.mem_append.mp hc with hc | hc
    · obtain ⟨v, hv, rfl⟩ := List.mem_map.mp hc
      exact .inl ⟨v, hv, rfl⟩
    · split at hc
      · exact .inr ⟨_, List.mem_singleton.mp hc⟩
      · cases hc

/-- **Induction down an expanded frame.** What holds of a frame whenever it holds of the visible
frames below it holds of every frame that shows a call frame. -/
theorem expand_induction (canvas : Canvas) {motive : VisualFrame → Prop}
    (step : ∀ vf cf, vf.Shows t cf →
      (∀ v ∈ visible (childRow t canvas vf cf), ∀ c ∈ t.frames cf, v.Shows t c → motive v) →
      motive vf)
    (cf : Nat) (vf : VisualFrame) (hshows : vf.Shows t cf) : motive vf := by
  induction hk : t.heap.next - cf using Nat.strongRecOn generalizing cf vf with
  | _ k ih =>
    apply step vf cf hshows
    intro v _ c hc hv
    obtain ⟨hlt, hnext⟩ := CallFrameTree.lt_of_mem_frames hc
    exact ih _ (by omega) c v hv rfl

/-! ## Soundness -/

/-- Soundness at one frame, `label`, with the children `cs`. -/
structure SoundAt (t : CallFrameTree) (label : VisualFrameNode) (cs : List (Rose VisualFrameNode)) :
    Prop where
  childless : label.cf = none → cs = []
  count : ∀ cf, label.cf = some cf → label.count = (t.node cf).count
  y : ∀ c ∈ cs, c.label.y = label.y + 1
  members : ∀ c ∈ cs, ∀ m ∈ c.label.combinedFrames, m.y = label.y + 1 ∧ ∃ f, m.Shows t f

def Sound (t : CallFrameTree) (tree : Rose VisualFrameNode) : Prop :=
  tree.Everywhere (SoundAt t)

/-- A frame of a sound picture is on the row of its depth. -/
theorem Sound.y_eq_depth {tree : Rose VisualFrameNode} (hsound : Sound t tree)
    (hy : tree.label.y = 0) (p : List Nat) (s : Rose VisualFrameNode)
    (hs : tree.subtree? p = some s) : s.label.y = p.length := by
  have h := Rose.rank_eq_depth (fun a : VisualFrameNode => a.y) (hsound.mono fun _ _ h => h.y) hs
  rw [h, hy, Int.zero_add]

theorem sound_expand (canvas : Canvas) {cf : Nat} (hshows : vf.Shows t cf) :
    Sound t (expand t canvas vf) := by
  refine expand_induction canvas (motive := fun vf => Sound t (expand t canvas vf)) ?_ cf vf
    hshows
  intro vf cf hshows ih
  unfold expand
  rw [hshows.1]
  refine (Rose.everywhere_node _ _).mpr ⟨?_, ?_⟩
  · constructor
    · intro hnone
      exact absurd (hshows.1.symm.trans hnone) (by simp)
    · intro f hf
      have hfcf : f = cf := Option.some_inj.mp (hf.symm.trans hshows.1)
      exact hfcf ▸ hshows.2
    · intro c hc
      rcases mem_createVfChildren hc with ⟨v, hv, rfl⟩ | ⟨x, rfl⟩
      · obtain ⟨-, -, -, hy⟩ := mem_childRow (List.mem_filter.mp hv).1
        exact hy
      · rfl
    · intro c hc m hm
      rcases mem_createVfChildren hc with ⟨v, -, rfl⟩ | ⟨x, rfl⟩
      · cases hm
      · obtain ⟨f, -, hf, hy⟩ := mem_childRow (List.mem_filter.mp hm).1
        exact ⟨hy, f, hf⟩
  · intro c hc
    rcases mem_createVfChildren hc with ⟨v, hv, rfl⟩ | ⟨x, rfl⟩
    · obtain ⟨f, hf, hshowsf, -⟩ := mem_childRow (List.mem_filter.mp hv).1
      exact ih v hv f hf hshowsf
    · refine (Rose.everywhere_node _ _).mpr ⟨?_, fun c hc => absurd hc List.not_mem_nil⟩
      constructor
      · exact fun _ => rfl
      · intro f hf
        cases hf
      · exact fun c hc => absurd hc List.not_mem_nil
      · exact fun c hc => absurd hc List.not_mem_nil

/-! ## Chains -/

/-- Frames on consecutive rows from `y` on, each of which shows a call frame. -/
def Stacked (t : CallFrameTree) : Int → List VisualFrame → Prop
  | _, [] => True
  | y, v :: vs => v.y = y ∧ (∃ cf, v.Shows t cf) ∧ Stacked t (y + 1) vs

theorem stacked_concat {y : Int} {vs : List VisualFrame} {v : VisualFrame}
    (hvs : Stacked t y vs) (hy : v.y = y + vs.length) {cf : Nat} (hv : v.Shows t cf) :
    Stacked t y (vs ++ [v]) := by
  induction vs generalizing y with
  | nil => exact ⟨by simpa using hy, ⟨cf, hv⟩, trivial⟩
  | cons w ws ih =>
      obtain ⟨hw, hshows, hws⟩ := hvs
      refine ⟨hw, hshows, ih hws ?_⟩
      rw [hy, List.length_cons]
      omega

/-- The way down to a frame that shows a call frame, or has children. -/
theorem stacked_spine {tree s : Rose VisualFrameNode} {p : List Nat}
    {labels : List VisualFrameNode} (hsound : Sound t tree) (hs : tree.subtree? p = some s)
    (hcf : s.label.cf.isSome = true) (hlabels : tree.spine p = some labels) :
    Stacked t tree.label.y (labels.map (·.toVisualFrame)) ∧ labels.length = p.length + 1 ∧
      ∃ rest, labels = tree.label :: rest := by
  induction p generalizing tree labels with
  | nil =>
      cases hs
      cases hlabels
      obtain ⟨cf, hcf⟩ := Option.isSome_iff_exists.mp hcf
      exact ⟨⟨rfl, ⟨cf, hcf, (hsound [] s rfl).count cf hcf⟩, trivial⟩, rfl, [], rfl⟩
  | cons i p ih =>
      obtain ⟨c, hc, hs⟩ := Rose.subtree?_cons_eq_some.mp hs
      have hci := Rose.subtree?_child hc
      have hroot := hsound [] tree rfl
      have hmem := List.mem_of_getElem? hc
      unfold Rose.spine at hlabels
      rw [hc, Option.bind_some, Option.map_eq_some_iff] at hlabels
      obtain ⟨rest, hrest, rfl⟩ := hlabels
      obtain ⟨hstacked, hlen, -⟩ := ih (hsound.subtree hci) hs hrest
      rw [hroot.y c hmem] at hstacked
      -- the root has a child, so it shows a call frame
      obtain ⟨cf, hcf⟩ : ∃ cf, tree.label.cf = some cf := by
        rw [← Option.ne_none_iff_exists']
        intro hnone
        rw [hroot.childless hnone] at hmem
        cases hmem
      refine ⟨⟨rfl, ⟨cf, hcf, hroot.count cf hcf⟩, hstacked⟩, ?_, rest, rfl⟩
      rw [List.length_cons, hlen, List.length_cons]

/-- The frames above the one to zoom into, and that one, below the head. -/
theorem stacked_startParents {earlier : Rose VisualFrameNode} {parents : List VisualFrame}
    (hsound : Sound t earlier) (hroot : earlier.label.y = 0)
    (htarget : ZoomTarget earlier parents) : Stacked t 1 (startParents (some parents)) := by
  unfold startParents
  rw [Option.getD_some]
  cases htarget with
  | frame hs hcf hlabels =>
      obtain ⟨hstacked, -, rest, rfl⟩ := stacked_spine hsound hs hcf hlabels
      rw [hroot] at hstacked
      rw [List.map_cons, List.reverse_cons, List.dropLast_concat, List.reverse_reverse]
      exact hstacked.2.2
  | @member p s plus labels m hs hplus hm hlabels =>
      have hat := hsound p s hs
      obtain ⟨hy, f, hf⟩ := hat.members plus hplus m hm
      have hcf : s.label.cf.isSome = true := by
        rw [Option.isSome_iff_ne_none]
        intro hnone
        rw [hat.childless hnone] at hplus
        cases hplus
      obtain ⟨hstacked, hlen, rest, rfl⟩ := stacked_spine hsound hs hcf hlabels
      -- the member goes below the frame at `p`
      have hdepth : s.label.y = p.length := by
        have h := Rose.rank_eq_depth (fun a : VisualFrameNode => a.y)
          (hsound.mono fun _ _ h => h.y) hs
        rw [h, hroot, Int.zero_add]
      rw [hroot] at hstacked
      rw [List.map_cons, List.reverse_cons, ← List.cons_append, List.dropLast_concat,
        List.reverse_cons, List.reverse_reverse]
      apply stacked_concat hstacked.2.2 ?_ hf
      rw [List.length_cons] at hlen
      rw [hy, hdepth, List.length_map]
      omega

/-- A zoomed frame shows what its original shows, over the whole width. -/
theorem zoomedVf_shows (canvas : Canvas) {v : VisualFrame} {cf : Nat} (hv : v.Shows t cf) :
    ∃ z, zoomedVf t canvas v = some z ∧ z.Shows t cf ∧ z.y = v.y ∧ z.x = canvas.x ∧
      z.width = canvas.width := by
  obtain ⟨hcf, hcount⟩ := hv
  unfold zoomedVf
  rw [hcf]
  exact ⟨_, rfl, ⟨rfl, hcount⟩, rfl, rfl, rfl⟩

theorem zoomed_stacked (canvas : Canvas) {y : Int} {vs : List VisualFrame}
    (hvs : Stacked t y vs) :
    ∃ chain, vs.mapM (zoomedVf t canvas) = some chain ∧ Stacked t y chain ∧
      chain.length = vs.length ∧ ∀ v ∈ chain, v.x = canvas.x ∧ v.width = canvas.width := by
  induction vs generalizing y with
  | nil => exact ⟨[], rfl, trivial, rfl, fun v hv => absurd hv List.not_mem_nil⟩
  | cons v vs ih =>
      obtain ⟨hy, ⟨cf, hshows⟩, hvs⟩ := hvs
      obtain ⟨chain, hchain, hstacked, hlen, hplace⟩ := ih hvs
      obtain ⟨z, hz, hzshows, hzy, hzplace⟩ := zoomedVf_shows canvas hshows
      refine ⟨z :: chain, ?_, ⟨hzy.trans hy, ⟨cf, hzshows⟩, hstacked⟩,
        congrArg Nat.succ hlen, ?_⟩
      · rw [List.mapM_cons, hz, hchain]
        rfl
      · intro w hw
        rcases List.mem_cons.mp hw with rfl | hw
        · exact hzplace
        · exact hplace w hw

/-! ## The whole tree -/

/-- The tree below zoomed frames. -/
def zoomTree (t : CallFrameTree) (canvas : Canvas) (vf : VisualFrame) (chain : List VisualFrame) :
    Rose VisualFrameNode :=
  zoomChain (fun vf => vf.cf.elim [] (createVfChildren t canvas vf)) vf chain

theorem zoomTree_cons (t : CallFrameTree) (canvas : Canvas) (vf v : VisualFrame)
    (vs : List VisualFrame) :
    zoomTree t canvas vf (v :: vs) = .node vf.single [zoomTree t canvas v vs] := rfl

theorem label_zoomTree (t : CallFrameTree) (canvas : Canvas) (vf : VisualFrame)
    (chain : List VisualFrame) : (zoomTree t canvas vf chain).label = vf.single := by
  cases chain <;> rfl

/-- **What `rebuild_tree` builds**, if the frames to zoom into show call frames. -/
theorem rebuildTree_of_stacked (canvas : Canvas) {startVf : Option (List VisualFrame)}
    (hstart : Stacked t 1 (startParents startVf)) :
    ∃ chain, rebuildTree t canvas startVf = some (zoomTree t canvas (headVf t canvas) chain) ∧
      Stacked t 1 chain ∧ chain.length = (startParents startVf).length ∧
      ∀ v ∈ chain, v.x = canvas.x ∧ v.width = canvas.width := by
  obtain ⟨chain, hchain, h⟩ := zoomed_stacked canvas hstart
  refine ⟨chain, ?_, h⟩
  unfold rebuildTree
  rw [hchain]
  rfl

theorem headVf_shows (t : CallFrameTree) (canvas : Canvas) :
    (headVf t canvas).Shows t t.head := ⟨rfl, rfl⟩

theorem sound_zoomTree (canvas : Canvas) {cf : Nat} {chain : List VisualFrame}
    (hshows : vf.Shows t cf) (hchain : Stacked t (vf.y + 1) chain) :
    Sound t (zoomTree t canvas vf chain) := by
  induction chain generalizing vf cf with
  | nil => exact sound_expand canvas hshows
  | cons v vs ih =>
      obtain ⟨hy, ⟨f, hf⟩, hvs⟩ := hchain
      rw [zoomTree_cons]
      refine (Rose.everywhere_node _ _).mpr ⟨?_, ?_⟩
      · constructor
        · intro hnone
          exact absurd (hshows.1.symm.trans hnone) (by simp)
        · intro g hg
          have hgcf : g = cf := Option.some_inj.mp (hg.symm.trans hshows.1)
          exact hgcf ▸ hshows.2
        · intro c hc
          rw [List.mem_singleton.mp hc, label_zoomTree]
          exact hy
        · intro c hc m hm
          rw [List.mem_singleton.mp hc, label_zoomTree] at hm
          cases hm
      · intro c hc
        rw [List.mem_singleton.mp hc]
        exact ih hf (hy.symm ▸ hvs)

/-- **Every visual tree is sound.** -/
theorem built_sound {tree : Rose VisualFrameNode} (h : Built t tree) :
    Sound t tree ∧ tree.label.y = 0 := by
  -- one call of `rebuild_tree`; the induction is on how the earlier trees were built
  have hbuilt : ∀ (canvas : Canvas) (startVf : Option (List VisualFrame))
      (tree : Rose VisualFrameNode), Stacked t 1 (startParents startVf) →
      rebuildTree t canvas startVf = some tree → Sound t tree ∧ tree.label.y = 0 := by
    intro canvas startVf tree hstart htree
    obtain ⟨chain, hrun, hchain, -⟩ := rebuildTree_of_stacked canvas hstart
    rw [hrun] at htree
    cases htree
    refine ⟨sound_zoomTree canvas (headVf_shows t canvas) hchain, ?_⟩
    rw [label_zoomTree]
    rfl
  induction h with
  | initial htree => exact hbuilt _ none _ trivial htree
  | zoom _ htarget htree ih =>
      exact hbuilt _ _ _ (stacked_startParents ih.1 ih.2 htarget) htree

/-- **What `rebuild_tree` builds**: zoomed frames over the whole width, one below the other, and the
last of them expanded. -/
theorem rebuildTree_eq (canvas : Canvas) {startVf : Option (List VisualFrame)}
    (hstart : StartVf t startVf) :
    ∃ chain, rebuildTree t canvas startVf = some (zoomTree t canvas (headVf t canvas) chain) ∧
      Stacked t 1 chain ∧ chain.length = (startParents startVf).length ∧
      ∀ v ∈ chain, v.x = canvas.x ∧ v.width = canvas.width := by
  apply rebuildTree_of_stacked
  cases hstart with
  | head => trivial
  | zoom hbuilt htarget =>
      obtain ⟨hsound, hroot⟩ := built_sound hbuilt
      exact stacked_startParents hsound hroot htarget

end LdbToolchain.Tfg
