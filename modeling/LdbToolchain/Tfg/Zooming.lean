import LdbToolchain.Tfg.Lineage

/-!
# `VisualFrameTree` through its rebuilds

A `VisualFrameTree` builds a new tree every time, while frames of the earlier ones are still referred
to: the frame to zoom into belongs to one of them. So all trees built so far are kept, and a reference
to a frame names the build it belongs to. `Coherent` says what holds between two calls of
`rebuild_tree`: each tree built mirrors the call tree, and the last one is decided by the call frame
of `start_vf`. `zooming_pathIndependent` follows.
-/

namespace LdbToolchain.Tfg

/-- A reference to a visual frame: one that hangs in a tree, or a member of the `combined_frames` of
one that does. -/
inductive VfRef where
  | frame (build : Nat) (address : List Nat)
  | member (build : Nat) (address : List Nat) (index : Nat)
  deriving DecidableEq

structure VisualFrameTree extends Canvas where
  /-- All trees built so far; `_head` is the root of the last one. -/
  builds : List (Rose VisualFrameNode)
  startVf : VfRef

namespace VisualFrameTree

/-- The tree below `_head`. -/
def current (vft : VisualFrameTree) : Option (Rose VisualFrameNode) := vft.builds.getLast?

def head (vft : VisualFrameTree) : VfRef := .frame (vft.builds.length - 1) []

/-- A frame, and those one comes to from it by `parent_vf`. The parent of a member of the
`combined_frames` of a frame is the parent of that frame. -/
def parents (vft : VisualFrameTree) : VfRef → Option (List VisualFrame)
  | .frame build address => do
      let tree ← vft.builds[build]?
      let labels ← tree.spine address
      return (labels.map (·.toVisualFrame)).reverse
  | .member build address index => do
      let tree ← vft.builds[build]?
      let plus ← tree.subtree? address
      let vf ← plus.label.combinedFrames[index]?
      let labels ← tree.spine address.dropLast
      return vf :: (labels.map (·.toVisualFrame)).reverse

/-- The frame referred to. -/
def vf (vft : VisualFrameTree) (ref : VfRef) : Option VisualFrame := (vft.parents ref).bind (·.head?)

def cf (vft : VisualFrameTree) (ref : VfRef) : Option Nat := (vft.vf ref).bind (·.cf)

/-- `rebuild_tree`; `none` when a call frame is missing whose name is asked for. -/
def rebuildTree (t : CallFrameTree) (vft : VisualFrameTree) (startVf : Option VfRef) :
    Option VisualFrameTree := do
  let parents ← startVf.mapM vft.parents
  let tree ← Tfg.rebuildTree t vft.toCanvas parents
  return { vft with
    builds := vft.builds ++ [tree]
    startVf := .frame vft.builds.length (startAddress parents) }

/-- The setter of `with_combined_frames`. -/
def setWithCombinedFrames (vft : VisualFrameTree) (value : Bool) : VisualFrameTree :=
  { vft with withCombinedFrames := value }

/-- `__init__`; `start_vf` is set by the first `rebuild_tree`. -/
def init (t : CallFrameTree) (canvas : Canvas) : Option VisualFrameTree :=
  rebuildTree t { canvas with builds := [], startVf := .frame 0 [] } none

/-- What the windows ask of the tree: to zoom into a frame, to reset, to flip
`with_combined_frames`. -/
inductive Op where
  | zoom (vf : VfRef)
  | reset
  | flip

def step (t : CallFrameTree) (vft : VisualFrameTree) : Op → Option VisualFrameTree
  | .zoom vf => vft.rebuildTree t (some vf)
  | .reset => vft.rebuildTree t (some vft.head)
  | .flip => (vft.setWithCombinedFrames !vft.withCombinedFrames).rebuildTree t (some vft.startVf)

def run (t : CallFrameTree) (vft : VisualFrameTree) (ops : List Op) : Option VisualFrameTree :=
  ops.foldlM (step t) vft

/-! ## References -/

variable {t : CallFrameTree} {vft : VisualFrameTree} {tree s : Rose VisualFrameNode} {build : Nat}
  {address : List Nat}

theorem vf_frame (hbuild : vft.builds[build]? = some tree) (hs : tree.subtree? address = some s) :
    vft.vf (.frame build address) = some s.label.toVisualFrame := by
  obtain ⟨labels, hlabels, hlast⟩ := Rose.spine_of_subtree? hs
  simp [vf, parents, hbuild, hlabels, hlast]

/-- The member of a '+' frame. -/
theorem vf_member {build : Nat} {tree s : Rose VisualFrameNode} {above : List Nat} {i index : Nat}
    {m : VisualFrame} (hbuild : vft.builds[build]? = some tree)
    (hs : tree.subtree? (above ++ [i]) = some s) (hm : s.label.combinedFrames[index]? = some m) :
    vft.vf (.member build (above ++ [i]) index) = some m := by
  have habove := hs
  rw [Rose.subtree?_append, Option.bind_eq_some_iff] at habove
  obtain ⟨u, hu, -⟩ := habove
  obtain ⟨labels, hlabels, -⟩ := Rose.spine_of_subtree? hu
  simp [vf, parents, hbuild, hs, hm, hlabels]

/-- A reference to a frame with a call frame can be zoomed into. -/
theorem zoomTarget_of_parents (hgen : ∀ tree ∈ vft.builds, Genealogical t tree) {ref : VfRef}
    {parents : List VisualFrame} (hparents : vft.parents ref = some parents)
    (hcf : (parents.head?.bind (·.cf)).isSome = true) :
    ∃ tree ∈ vft.builds, ZoomTarget tree parents := by
  cases ref with
  | frame build address =>
      simp only [VisualFrameTree.parents, Option.bind_eq_bind, Option.bind_eq_some_iff,
        Option.pure_def, Option.some.injEq] at hparents
      obtain ⟨tree, hbuild, labels, hlabels, rfl⟩ := hparents
      refine ⟨tree, List.mem_of_getElem? hbuild, ?_⟩
      cases hs : tree.subtree? address with
      | none =>
          rw [Rose.spine_eq_none hs] at hlabels
          cases hlabels
      | some s =>
          obtain ⟨labels', hlabels', hlast⟩ := Rose.spine_of_subtree? hs
          rw [hlabels] at hlabels'
          cases hlabels'
          apply ZoomTarget.frame hs ?_ hlabels
          rw [List.head?_reverse, List.getLast?_map, hlast] at hcf
          exact hcf
  | member build address index =>
      simp only [VisualFrameTree.parents, Option.bind_eq_bind, Option.bind_eq_some_iff,
        Option.pure_def, Option.some.injEq] at hparents
      obtain ⟨tree, hbuild, plus, hplus, m, hm, labels, hlabels, rfl⟩ := hparents
      have hmem := List.mem_of_getElem? hbuild
      refine ⟨tree, hmem, ?_⟩
      have hmember := List.mem_of_getElem? hm
      rcases List.eq_nil_or_concat' address with rfl | ⟨above, i, rfl⟩
      · -- the head combines no frames
        cases hplus
        rw [(hgen tree hmem).plain] at hmember
        cases hmember
      · rw [List.dropLast_concat] at hlabels
        rw [Rose.subtree?_append, Option.bind_eq_some_iff] at hplus
        obtain ⟨s, hs, hplus⟩ := hplus
        obtain ⟨c, hc, hplus⟩ := Rose.subtree?_cons_eq_some.mp hplus
        cases hplus
        exact ZoomTarget.member hs (List.mem_of_getElem? hc) hmember hlabels

/-- The zoomed frames all have a call frame, so the one asked for does. -/
theorem cf_of_rebuildTree {canvas : Canvas} {parents : List VisualFrame}
    (htree : Tfg.rebuildTree t canvas (some parents) = some tree) (hlen : 2 ≤ parents.length) :
    (parents.head?.bind (·.cf)).isSome = true := by
  cases parents with
  | nil => simp at hlen
  | cons v above =>
      have hne : above ≠ [] := by
        rintro rfl
        simp at hlen
      unfold Tfg.rebuildTree startParents at htree
      rw [Option.getD_some, List.dropLast_cons_of_ne_nil hne, List.reverse_cons,
        Option.map_eq_some_iff] at htree
      obtain ⟨chain, hchain, -⟩ := htree
      rw [List.mapM_append] at hchain
      simp only [Option.bind_eq_bind, Option.bind_eq_some_iff, List.mapM_cons] at hchain
      obtain ⟨-, -, -, ⟨z, hz, -⟩, -⟩ := hchain
      unfold zoomedVf at hz
      obtain ⟨f, hf, -⟩ := Option.map_eq_some_iff.mp hz
      rw [List.head?_cons, Option.bind_some, hf]
      rfl

/-! ## Between two rebuilds -/

/-- The tree zoomed into the last of the line `cs`, added to those built so far. -/
def adopt (t : CallFrameTree) (vft : VisualFrameTree) (cs : List Nat) : VisualFrameTree :=
  { vft with
    builds := vft.builds ++ [zoomedTree t vft.toCanvas cs]
    startVf := .frame vft.builds.length (List.replicate cs.length 0) }

/-- What holds whenever `rebuild_tree` has returned. -/
structure Coherent (t : CallFrameTree) (vft : VisualFrameTree) : Prop where
  genealogical : ∀ tree ∈ vft.builds, Genealogical t tree
  /-- The last tree is zoomed into the last of a line of call frames. -/
  zoomed : ∃ before cs, t.Lineage t.head cs ∧ vft = adopt t before cs

theorem coherent_adopt (hgen : ∀ tree ∈ vft.builds, Genealogical t tree) {cs : List Nat}
    (hcs : t.Lineage t.head cs) : Coherent t (vft.adopt t cs) where
  genealogical := by
    intro tree htree
    rcases List.mem_append.mp htree with htree | htree
    · exact hgen tree htree
    · rw [List.mem_singleton.mp htree]
      exact genealogical_zoomedTree vft.toCanvas hcs
  zoomed := ⟨vft, cs, hcs, rfl⟩

/-- **What `rebuild_tree` does** with a reference to a frame that has a call frame. -/
theorem rebuildTree_eq_adopt (hgen : ∀ tree ∈ vft.builds, Genealogical t tree) {ref : VfRef}
    {b : Nat} (hcf : vft.cf ref = some b) :
    ∃ cs, t.Lineage t.head cs ∧ CallFrameTree.lastOf t.head cs = b ∧
      vft.rebuildTree t (some ref) = some (vft.adopt t cs) := by
  rw [cf, vf, Option.bind_assoc, Option.bind_eq_some_iff] at hcf
  obtain ⟨parents, hparents, hcf⟩ := hcf
  obtain ⟨tree, htree, htarget⟩ := zoomTarget_of_parents hgen hparents (by rw [hcf]; rfl)
  obtain ⟨cs, hcs, hlast, hrun, haddress⟩ :=
    rebuildTree_zoom vft.toCanvas (hgen tree htree) htarget
  refine ⟨cs, hcs, Option.some.inj (hlast.symm.trans hcf), ?_⟩
  simp only [rebuildTree, Option.mapM_some, hparents, hrun, haddress, Option.bind_eq_bind,
    Option.bind_some, Option.map_eq_map, Option.map_some, Option.pure_def]
  rfl

/-- Without a call frame there is nothing to zoom into. -/
theorem cf_isSome_of_rebuildTree (hgen : ∀ tree ∈ vft.builds, Genealogical t tree) {ref : VfRef}
    {vft' : VisualFrameTree} (hrun : vft.rebuildTree t (some ref) = some vft') :
    (vft.cf ref).isSome = true := by
  simp only [rebuildTree, Option.mapM_some, Option.bind_eq_bind, Option.bind_eq_some_iff,
    Option.map_eq_map, Option.map_eq_some_iff] at hrun
  obtain ⟨-, ⟨parents, hparents, rfl⟩, tree, htree, -⟩ := hrun
  rw [cf, vf, hparents, Option.bind_some]
  rcases Nat.lt_or_ge 1 parents.length with hlen | hlen
  · exact cf_of_rebuildTree htree hlen
  · -- the head of a tree has no parents, and a call frame
    cases ref with
    | frame build address =>
        simp only [VisualFrameTree.parents, Option.bind_eq_bind, Option.bind_eq_some_iff,
          Option.pure_def, Option.some.injEq] at hparents
        obtain ⟨earlier, hbuild, labels, hlabels, rfl⟩ := hparents
        cases address with
        | nil =>
            cases hlabels
            rw [List.map_singleton, List.reverse_singleton, List.head?_cons, Option.bind_some,
              (hgen earlier (List.mem_of_getElem? hbuild)).cf]
            rfl
        | cons i address =>
            rw [Rose.spine, Option.bind_eq_some_iff] at hlabels
            obtain ⟨c, -, hlabels⟩ := hlabels
            obtain ⟨rest, hrest, rfl⟩ := Option.map_eq_some_iff.mp hlabels
            have hrestlen := Rose.length_spine hrest
            simp only [List.length_reverse, List.length_map, List.length_cons] at hlen
            omega
    | member build address index =>
        simp only [VisualFrameTree.parents, Option.bind_eq_bind, Option.bind_eq_some_iff,
          Option.pure_def, Option.some.injEq] at hparents
        obtain ⟨_, _, _, _, _, _, labels, hlabels, rfl⟩ := hparents
        have hlabelslen := Rose.length_spine hlabels
        simp only [List.length_reverse, List.length_map, List.length_cons] at hlen
        omega

theorem init_eq_adopt (t : CallFrameTree) (canvas : Canvas) :
    init t canvas = some (adopt t { canvas with builds := [], startVf := .frame 0 [] } []) := rfl

theorem coherent_init {canvas : Canvas} (h : init t canvas = some vft) : Coherent t vft := by
  rw [init_eq_adopt] at h
  cases h
  apply coherent_adopt
  · intro tree htree
    cases htree
  · trivial

theorem coherent_rebuildTree (hgen : ∀ tree ∈ vft.builds, Genealogical t tree) {ref : VfRef}
    {vft' : VisualFrameTree} (hrun : vft.rebuildTree t (some ref) = some vft') :
    Coherent t vft' := by
  obtain ⟨b, hb⟩ := Option.isSome_iff_exists.mp (cf_isSome_of_rebuildTree hgen hrun)
  obtain ⟨cs, hcs, -, hadopt⟩ := rebuildTree_eq_adopt hgen hb
  rw [hrun] at hadopt
  cases hadopt
  exact coherent_adopt hgen hcs

theorem coherent_step (h : Coherent t vft) {op : Op} {vft' : VisualFrameTree}
    (hstep : vft.step t op = some vft') : Coherent t vft' := by
  cases op with
  | zoom vf => exact coherent_rebuildTree h.genealogical hstep
  | reset => exact coherent_rebuildTree h.genealogical hstep
  | flip =>
      have hgen : ∀ tree ∈ (vft.setWithCombinedFrames !vft.withCombinedFrames).builds,
          Genealogical t tree := h.genealogical
      exact coherent_rebuildTree hgen hstep

/-- Every rebuild keeps the area and the filler. -/
theorem area_step {op : Op} {vft' : VisualFrameTree} (hstep : vft.step t op = some vft') :
    vft'.x = vft.x ∧ vft'.width = vft.width ∧ vft'.wsFiller = vft.wsFiller := by
  cases op <;>
    simp only [step, rebuildTree, Option.mapM_some, Option.bind_eq_bind, Option.bind_eq_some_iff,
      Option.pure_def, Option.some.injEq] at hstep <;>
    obtain ⟨-, -, -, -, rfl⟩ := hstep <;>
    exact ⟨rfl, rfl, rfl⟩

/-- **Every run of rebuilds is coherent.** -/
theorem coherent_run (h : Coherent t vft) {ops : List Op} {vft' : VisualFrameTree}
    (hrun : vft.run t ops = some vft') :
    Coherent t vft' ∧ vft'.x = vft.x ∧ vft'.width = vft.width ∧ vft'.wsFiller = vft.wsFiller := by
  induction ops generalizing vft with
  | nil =>
      cases hrun
      exact ⟨h, rfl, rfl, rfl⟩
  | cons op ops ih =>
      rw [run, List.foldlM_cons, Option.bind_eq_bind, Option.bind_eq_some_iff] at hrun
      obtain ⟨vft₁, hstep, hrun⟩ := hrun
      obtain ⟨hcoherent, hx, hwidth, hfiller⟩ := ih (coherent_step h hstep) hrun
      obtain ⟨hx₁, hwidth₁, hfiller₁⟩ := area_step hstep
      exact ⟨hcoherent, hx.trans hx₁, hwidth.trans hwidth₁, hfiller.trans hfiller₁⟩

/-! ## Path independence -/

theorem cf_startVf_adopt (t : CallFrameTree) (vft : VisualFrameTree) (cs : List Nat) :
    (vft.adopt t cs).cf (vft.adopt t cs).startVf = some (CallFrameTree.lastOf t.head cs) := by
  have hbuild : (vft.adopt t cs).builds[vft.builds.length]?
      = some (zoomedTree t vft.toCanvas cs) := List.getElem?_concat_length
  have hvf := vf_frame hbuild (subtree?_zoomedTree t vft.toCanvas cs)
  exact congrArg (Option.bind · (·.cf)) hvf

theorem current_adopt (t : CallFrameTree) (vft : VisualFrameTree) (cs : List Nat) :
    (vft.adopt t cs).current = some (zoomedTree t vft.toCanvas cs) := List.getLast?_concat ..

/-- The tree is decided by the canvas and the call frame of `start_vf`. -/
theorem current_eq {vft' : VisualFrameTree} (h : Coherent t vft) (h' : Coherent t vft')
    (hcanvas : vft.toCanvas = vft'.toCanvas) (hcf : vft.cf vft.startVf = vft'.cf vft'.startVf) :
    vft.current = vft'.current := by
  obtain ⟨before, cs, hcs, rfl⟩ := h.zoomed
  obtain ⟨before', cs', hcs', rfl⟩ := h'.zoomed
  rw [cf_startVf_adopt, cf_startVf_adopt] at hcf
  have hsame := CallFrameTree.lineage_inj hcs hcs' (Option.some.inj hcf)
  subst hsame
  have hcanvas : before.toCanvas = before'.toCanvas := hcanvas
  rw [current_adopt, current_adopt, hcanvas]

/-- Rebuilding at `start_vf`, with either flag, stays at its call frame. -/
theorem rebuildTree_startVf (h : Coherent t vft) (flag : Bool) :
    ∃ vft', (vft.setWithCombinedFrames flag).rebuildTree t (some vft.startVf) = some vft' ∧
      Coherent t vft' ∧ vft'.toCanvas = { vft.toCanvas with withCombinedFrames := flag } ∧
      vft'.cf vft'.startVf = vft.cf vft.startVf := by
  obtain ⟨before, cs, hcs, rfl⟩ := h.zoomed
  have hcf := cf_startVf_adopt t before cs
  have hgen : ∀ tree ∈ ((before.adopt t cs).setWithCombinedFrames flag).builds,
      Genealogical t tree := h.genealogical
  have hflag : ((before.adopt t cs).setWithCombinedFrames flag).cf (before.adopt t cs).startVf
      = some (CallFrameTree.lastOf t.head cs) := hcf
  obtain ⟨cs', hcs', hlast, hrun⟩ := rebuildTree_eq_adopt hgen hflag
  refine ⟨_, hrun, coherent_adopt hgen hcs', rfl, ?_⟩
  rw [cf_startVf_adopt, hcf, hlast]

/-- Zooming into the zoomed frame. -/
theorem Coherent.run_zoom_startVf (h : Coherent t vft) :
    (vft.run t [.zoom vft.startVf]).bind current = vft.current := by
  obtain ⟨again, hstep, hcoherent, hsame, hstart⟩ := rebuildTree_startVf h vft.withCombinedFrames
  have hagain : vft.run t [.zoom vft.startVf] = some again := by
    rw [run, List.foldlM_cons, show vft.step t (.zoom vft.startVf) = some again from hstep]
    rfl
  rw [hagain, Option.bind_some]
  exact current_eq hcoherent h hsame hstart

theorem Coherent.run_flip_flip (h : Coherent t vft) :
    (vft.run t [.flip, .flip]).bind current = vft.current := by
  obtain ⟨once, hstep, hcoherent, hcanvas₁, hstart⟩ :=
    rebuildTree_startVf h (!vft.withCombinedFrames)
  obtain ⟨twice, hstep₂, hcoherent₂, hcanvas₂, hstart₂⟩ :=
    rebuildTree_startVf hcoherent (!once.withCombinedFrames)
  have htwice : vft.run t [.flip, .flip] = some twice := by
    rw [run, List.foldlM_cons, show vft.step t .flip = some once from hstep]
    rw [Option.bind_eq_bind, Option.bind_some, List.foldlM_cons,
      show once.step t .flip = some twice from hstep₂]
    rfl
  rw [htwice, Option.bind_some]
  apply current_eq hcoherent₂ h ?_ (hstart₂.trans hstart)
  -- the flag is back where it was
  have hback : (!once.withCombinedFrames) = vft.withCombinedFrames := by
    rw [show once.withCombinedFrames = !vft.withCombinedFrames from
      congrArg Canvas.withCombinedFrames hcanvas₁, Bool.not_not]
  rw [hcanvas₂, hback, hcanvas₁]

/-- A run from the start keeps the area and the filler. -/
theorem coherent_init_run {x width : Int} {wsFiller : Str} {flag : Bool} {ops : List Op}
    (hrun : (init t ⟨x, width, wsFiller, flag⟩).bind (run t · ops) = some vft) :
    Coherent t vft ∧ vft.toCanvas = ⟨x, width, wsFiller, vft.withCombinedFrames⟩ := by
  obtain ⟨start, hstart, hrun⟩ := Option.bind_eq_some_iff.mp hrun
  obtain ⟨h, hx, hwidth, hfiller⟩ := coherent_run (coherent_init hstart) hrun
  rw [init_eq_adopt] at hstart
  cases hstart
  refine ⟨h, ?_⟩
  rw [← show vft.x = x from hx, ← show vft.width = width from hwidth,
    ← show vft.wsFiller = wsFiller from hfiller]

/-- **Zooming is path independent.** Take two runs of rebuilds over one call tree, one area and one
filler: zooms into any frames of any trees built so far or into members of their combined frames,
resets and flips. If they end with the same flag, zoomed into frames with the same call frame, then
the visual trees are the same. In particular zooming into the zoomed frame again gives the same
tree, and so does flipping twice. -/
theorem zooming_pathIndependent (t : CallFrameTree) (x width : Int) (wsFiller : Str)
    (flag flag' : Bool) (ops ops' : List Op) (vft vft' : VisualFrameTree)
    (hrun : (init t ⟨x, width, wsFiller, flag⟩).bind (run t · ops) = some vft)
    (hrun' : (init t ⟨x, width, wsFiller, flag'⟩).bind (run t · ops') = some vft')
    (hflag : vft.withCombinedFrames = vft'.withCombinedFrames)
    (hcf : vft.cf vft.startVf = vft'.cf vft'.startVf) :
    vft.current.isSome = true ∧ vft.current = vft'.current ∧
      (vft.run t [.zoom vft.startVf]).bind current = vft.current ∧
      (vft.run t [.flip, .flip]).bind current = vft.current := by
  obtain ⟨h, hcanvas⟩ := coherent_init_run hrun
  obtain ⟨h', hcanvas'⟩ := coherent_init_run hrun'
  refine ⟨?_, ?_, h.run_zoom_startVf, h.run_flip_flip⟩
  · obtain ⟨before, cs, -, rfl⟩ := h.zoomed
    rw [current_adopt]
    rfl
  · apply current_eq h h' ?_ hcf
    rw [hcanvas, hcanvas', hflag]

/-- `m` calls `f`. -/
def mCallsF : CallFrameTree := .ofSamples [([['m'], ['f']], 1)]

/-- Into `f` at once, or by way of `m`, with the flag flipped before and after. -/
theorem zooming_pathIndependent_zoomed :
    ∃ vft vft', (init mCallsF ⟨0, 3, [' '], true⟩).bind
        (run mCallsF · [.zoom (.frame 0 [0, 0])]) = some vft ∧
      (init mCallsF ⟨0, 3, [' '], true⟩).bind
        (run mCallsF · [.zoom (.frame 0 [0]), .flip, .zoom (.frame 2 [0, 0]), .flip])
          = some vft' ∧
      vft.cf vft.startVf = some 2 ∧ vft.current = vft'.current := by
  have hends : ((init mCallsF ⟨0, 3, [' '], true⟩).bind
      (run mCallsF · [.zoom (.frame 0 [0, 0])])).map
        (fun vft => (vft.withCombinedFrames, vft.cf vft.startVf)) = some (true, some 2) := by
    decide +kernel
  have hends' : ((init mCallsF ⟨0, 3, [' '], true⟩).bind
      (run mCallsF · [.zoom (.frame 0 [0]), .flip, .zoom (.frame 2 [0, 0]), .flip])).map
        (fun vft => (vft.withCombinedFrames, vft.cf vft.startVf)) = some (true, some 2) := by
    decide +kernel
  obtain ⟨vft, hrun, hend⟩ := Option.map_eq_some_iff.mp hends
  obtain ⟨vft', hrun', hend'⟩ := Option.map_eq_some_iff.mp hends'
  obtain ⟨hflag, hcf⟩ := Prod.mk.inj hend
  obtain ⟨hflag', hcf'⟩ := Prod.mk.inj hend'
  exact ⟨vft, vft', hrun, hrun', hcf, (zooming_pathIndependent mCallsF 0 3 [' '] true true _ _
    vft vft' hrun hrun' (hflag.trans hflag'.symm) (hcf.trans hcf'.symm)).2.1⟩

/-- In every such run, a frame of any tree built so far, or a member of its combined frames, can be
zoomed into as long as it shows a call frame. -/
theorem rebuildTree_isSome {t : CallFrameTree} {vft : VisualFrameTree} (h : Coherent t vft)
    {ref : VfRef} (hcf : (vft.cf ref).isSome = true) :
    (vft.rebuildTree t (some ref)).isSome = true := by
  obtain ⟨b, hb⟩ := Option.isSome_iff_exists.mp hcf
  obtain ⟨cs, -, -, hrun⟩ := rebuildTree_eq_adopt h.genealogical hb
  rw [hrun]
  rfl

end VisualFrameTree

end LdbToolchain.Tfg
