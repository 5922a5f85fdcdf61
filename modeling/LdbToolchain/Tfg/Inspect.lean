import LdbToolchain.Tfg.Lossless
import LdbToolchain.Tfg.Zooming

/-!
# Every call frame can be inspected

A call frame whose width rounds to zero has no frame on the screen, and nothing below it has. But the
children of the zoomed frame are accounted for, so each child of its call frame can be zoomed into:
it is drawn, or the menu of the '+' frame offers it. Step by step, zooming leads along every path of
the call tree.
-/

namespace LdbToolchain.Tfg

namespace VisualFrameTree

variable {t : CallFrameTree} {vft : VisualFrameTree}

/-- A frame of the current tree that is drawn, or a member of the combined frames of one. -/
def Offers (vft : VisualFrameTree) (ref : VfRef) : Prop :=
  ∃ tree address s, vft.current = some tree ∧ tree.subtree? address = some s ∧
    s.label.width ≠ 0 ∧
    (ref = .frame (vft.builds.length - 1) address ∨
      ∃ index < s.label.combinedFrames.length,
        ref = .member (vft.builds.length - 1) address index)

/-- One zoom into what the picture offers. -/
def Zooms (t : CallFrameTree) (vft vft' : VisualFrameTree) : Prop :=
  ∃ ref, vft.Offers ref ∧ vft.rebuildTree t (some ref) = some vft'

/-- Nothing in a tree that is zoomed into has no width. -/
theorem width_zoomedTree {canvas : Canvas} (hweighted : t.Weighted) (hw : 1 ≤ canvas.width)
    {cs : List Nat} {address : List Nat} {s : Rose VisualFrameNode}
    (hs : (zoomedTree t canvas cs).subtree? address = some s) : s.label.width ≠ 0 := by
  have hlaid := laidOut_zoomTree hweighted hw (headVf_shows t canvas) rfl rfl
    (stacked_zoomFrames canvas 1 cs) place_zoomFrames
  have hpos := (hlaid address s hs).width_pos
  omega

/-- **One zoom further.** Every child of the call frame zoomed into can be zoomed into. -/
theorem exists_zoom_child (hweighted : t.Weighted) (h : Coherent t vft) (hw : 1 ≤ vft.width)
    (hflag : vft.withCombinedFrames = true) {a b : Nat} (ha : vft.cf vft.startVf = some a)
    (hb : b ∈ t.frames a) :
    ∃ ref, vft.Offers ref ∧ vft.cf ref = some b := by
  obtain ⟨before, cs, hcs, rfl⟩ := h.zoomed
  rw [cf_startVf_adopt] at ha
  cases ha
  have hcurrent := current_adopt t before cs
  have hstart := subtree?_zoomedTree t before.toCanvas cs
  have hlength : (before.adopt t cs).builds.length - 1 = before.builds.length := by
    show (before.builds ++ [_]).length - 1 = _
    rw [List.length_append, List.length_singleton]
    rfl
  have hbuild : (before.adopt t cs).builds[before.builds.length]?
      = some (zoomedTree t before.toCanvas cs) := List.getElem?_concat_length
  -- the children of the zoomed frame account for `b`
  have haccounted := accounted_createVfChildren hweighted hflag
    (zoomFrame_shows t before.toCanvas cs.length (CallFrameTree.lastOf t.head cs)) hw
  have hmem := haccounted.once.1.mem_iff.mpr (List.mem_map_of_mem hb)
  have hchild : ∀ c ∈ createVfChildren t before.toCanvas
      (zoomFrame t before.toCanvas cs.length (CallFrameTree.lastOf t.head cs))
      (CallFrameTree.lastOf t.head cs), ∃ i, (zoomedTree t before.toCanvas cs).subtree?
        (List.replicate cs.length 0 ++ [i]) = some c := by
    intro c hc
    obtain ⟨i, hi⟩ := List.mem_iff_getElem?.mp hc
    refine ⟨i, ?_⟩
    rw [Rose.subtree?_append, hstart, Option.bind_some]
    exact Rose.subtree?_child hi
  rcases List.mem_append.mp hmem with hshown | hhidden
  · -- it is drawn
    obtain ⟨c, hc, hcf⟩ := List.mem_map.mp hshown
    obtain ⟨i, hi⟩ := hchild c (List.mem_filter.mp hc).1
    refine ⟨.frame before.builds.length (List.replicate cs.length 0 ++ [i]),
      ⟨_, _, c, hcurrent, hi, width_zoomedTree hweighted hw hi, .inl (by rw [hlength])⟩, ?_⟩
    rw [cf, vf_frame hbuild hi]
    exact hcf
  · -- it is a member of the '+' frame
    obtain ⟨c, hc, hmember⟩ := List.mem_flatMap.mp hhidden
    obtain ⟨m, hm, hcf⟩ := List.mem_map.mp hmember
    obtain ⟨i, hi⟩ := hchild c (List.mem_filter.mp hc).1
    obtain ⟨index, hindex⟩ := List.mem_iff_getElem?.mp hm
    obtain ⟨hlt, -⟩ := List.getElem?_eq_some_iff.mp hindex
    refine ⟨.member before.builds.length (List.replicate cs.length 0 ++ [i]) index,
      ⟨_, _, c, hcurrent, hi, width_zoomedTree hweighted hw hi,
        .inr ⟨index, hlt, by rw [hlength]⟩⟩, ?_⟩
    rw [cf, vf_member hbuild hi hindex]
    exact hcf

/-- Zooming leads along every line of call frames. -/
theorem exists_zooms (hweighted : t.Weighted) {start : VisualFrameTree} (h : Coherent t start)
    (hw : 1 ≤ start.width) (hflag : start.withCombinedFrames = true) {a : Nat}
    (ha : start.cf start.startVf = some a) {cs : List Nat} (hcs : t.Lineage a cs) :
    ∃ vft, Relation.ReflTransGen (Zooms t) start vft ∧
      vft.cf vft.startVf = some (CallFrameTree.lastOf a cs) := by
  induction cs generalizing start a with
  | nil => exact ⟨start, .refl, ha⟩
  | cons c cs ih =>
      obtain ⟨ref, hoffers, hcf⟩ := exists_zoom_child hweighted h hw hflag ha hcs.1
      obtain ⟨line, hline, hlast, hrun⟩ := rebuildTree_eq_adopt h.genealogical hcf
      have hnext : (start.adopt t line).cf (start.adopt t line).startVf = some c := by
        rw [cf_startVf_adopt, hlast]
      obtain ⟨vft, hzooms, hend⟩ :=
        ih (coherent_adopt h.genealogical hline) hw hflag hnext hcs.2
      exact ⟨vft, hzooms.head ⟨ref, hoffers, hrun⟩, hend⟩

/-- **Every call frame can be inspected.** In the call tree of stacks with non-negative counts, on an
area of at least one column and with combined frames, a finite sequence of zooms, each into a frame
that is drawn or into a member of the combined frames of one, leads from the first visual tree to
one that is zoomed into the given call frame. -/
theorem exists_zooms_to_node {samples : List (List Str × Int)} (hnonneg : ∀ s ∈ samples, 0 ≤ s.2)
    (x width : Int) (wsFiller : Str) (hw : 1 ≤ width) {n : Nat}
    (hn : ∃ p, n ∈ (CallFrameTree.ofSamples samples).nodesAt 0 p) :
    ∃ start vft, init (.ofSamples samples) ⟨x, width, wsFiller, true⟩ = some start ∧
      Relation.ReflTransGen (Zooms (.ofSamples samples)) start vft ∧
      vft.cf vft.startVf = some n := by
  obtain ⟨p, hp⟩ := hn
  obtain ⟨cs, hcs, hlast⟩ := CallFrameTree.exists_lineage hp
  have hinit := init_eq_adopt (.ofSamples samples) ⟨x, width, wsFiller, true⟩
  obtain ⟨vft, hzooms, hend⟩ := exists_zooms (ofSamples_weighted_of_nonneg hnonneg)
    (coherent_init hinit) hw rfl (cf_startVf_adopt _ _ _) hcs
  exact ⟨_, vft, hinit, hzooms, by rw [hend]; exact congrArg some hlast⟩

/-- On one column, `f` and `g` have no frames of their own. -/
theorem exists_zooms_to_node_oneColumn :
    ∃ start vft, init (.ofSamples threeStacks) ⟨0, 1, [' '], true⟩ = some start ∧
      Relation.ReflTransGen (Zooms (.ofSamples threeStacks)) start vft ∧
      vft.cf vft.startVf = some 3 :=
  exists_zooms_to_node (by decide) 0 1 [' '] le_rfl
    ⟨[['m'], ['g']], by decide +kernel⟩

end VisualFrameTree

end LdbToolchain.Tfg
