import LdbToolchain.Lib.Linked
import LdbToolchain.Tfg.Browser
import LdbToolchain.Tfg.Layout

/-!
# Left and right

`link_frames` links each frame to the next one of the breadth-first traversal. Children are made from
right to left, so on a level the traversal goes from right to left too, and from the left end of a
level to the right end of the one below. The links run through the whole picture in that order.
-/

namespace LdbToolchain.Tfg

open LdbToolchain.Linked

/-- `link_frames`: `next` is `left_vf` and `prev` is `right_vf`. -/
def linkFrames (tree : Rose VisualFrameNode) : Links (List Nat) :=
  (pairwise tree.bfsTraversal).foldl (fun links pair =>
    let (lvf, rvf) := pair
    links.link lvf rvf) Links.empty

def leftVf (tree : Rose VisualFrameNode) : List Nat → Option (List Nat) := (linkFrames tree).next

def rightVf (tree : Rose VisualFrameNode) : List Nat → Option (List Nat) := (linkFrames tree).prev

theorem linkFrames_eq (tree : Rose VisualFrameNode) :
    linkFrames tree = Links.empty.linkUp (tree.bfsTraversal.zip tree.bfsTraversal.tail) := rfl

/-! ## The browser's links -/

theorem leftVf_eq_lookup (tree : Rose VisualFrameNode) (p : List Nat) :
    leftVf tree p = (pairwise tree.bfsTraversal).lookup p := by
  have hnodup : ((pairwise tree.bfsTraversal).map Prod.fst).Nodup := by
    rw [map_fst_pairwise]
    exact tree.nodup_bfsTraversal.sublist (List.dropLast_sublist _)
  have hlookup : (linkFrames tree).next p
      = ((pairwise tree.bfsTraversal).lookup p).or none := Links.linkUp_next_eq_lookup hnodup
  rwa [Option.or_none] at hlookup

theorem rightVf_eq_lookup (tree : Rose VisualFrameNode) (p : List Nat) :
    rightVf tree p = ((pairwise tree.bfsTraversal).map Prod.swap).lookup p := by
  have hnodup : ((pairwise tree.bfsTraversal).map Prod.snd).Nodup := by
    rw [map_snd_pairwise]
    exact tree.nodup_bfsTraversal.tail
  have hlookup : (linkFrames tree).prev p
      = (((pairwise tree.bfsTraversal).map Prod.swap).lookup p).or none :=
    Links.linkUp_prev_eq_lookup hnodup
  rwa [Option.or_none] at hlookup

/-- The browser goes left along these links. -/
theorem browser_leftVf (vft : VisualFrameTree) (build : Nat) (address : List Nat) :
    vft.leftVf (.frame build address)
      = vft.builds[build]?.bind fun tree => (leftVf tree address).map (.frame build) := by
  show (vft.builds[build]?.bind fun tree => ((pairwise tree.bfsTraversal).lookup address).bind
    fun left => some (VfRef.frame build left)) = _
  congr 1
  funext tree
  rw [leftVf_eq_lookup, Option.map_eq_bind]
  rfl

/-- And right. -/
theorem browser_rightVf (vft : VisualFrameTree) (build : Nat) (address : List Nat) :
    vft.rightVf (.frame build address)
      = vft.builds[build]?.bind fun tree => (rightVf tree address).map (.frame build) := by
  show (vft.builds[build]?.bind fun tree =>
    (((pairwise tree.bfsTraversal).map Prod.swap).lookup address).bind
      fun right => some (VfRef.frame build right)) = _
  congr 1
  funext tree
  rw [rightVf_eq_lookup, Option.map_eq_bind]
  rfl

/-! ## Rows -/

variable {t : CallFrameTree} {canvas : Canvas} {vf : VisualFrame} {cf : Nat}

/-- The children of a frame stand from right to left. -/
def RightToLeft (_ : VisualFrameNode) (cs : List (Rose VisualFrameNode)) : Prop :=
  cs.Pairwise fun c d => d.label.x + d.label.width ≤ c.label.x

theorem rightToLeft_zoomTree (hweighted : t.Weighted) (hw : 1 ≤ canvas.width)
    {chain : List VisualFrame} (hshows : vf.Shows t cf) (hx : vf.x = canvas.x)
    (hwidth : vf.width = canvas.width) {y : Int} (hchain : Stacked t y chain)
    (hplace : ∀ v ∈ chain, v.x = canvas.x ∧ v.width = canvas.width) :
    (zoomTree t canvas vf chain).Everywhere RightToLeft := by
  refine everywhere_zoomTree ?_ (fun _ _ _ => List.Pairwise.nil)
    (fun _ _ _ _ _ _ => List.pairwise_singleton _ _) hw hshows hx hwidth hchain hplace
  intro vf cf hshows hw
  exact (columns_createVfChildren canvas hweighted hshows hw).2

/-- Of two frames on a level, the one with the later address is on the left. -/
theorem left_of_lex {tree s u : Rose VisualFrameNode} {p q : List Nat}
    (hlaidOut : tree.Everywhere LaidOutAt) (hordered : tree.Everywhere RightToLeft)
    (hs : tree.subtree? p = some s) (hu : tree.subtree? q = some u)
    (hlen : p.length = q.length) (hlt : List.Lex (· < ·) p q) :
    u.label.x + u.label.width ≤ s.label.x := by
  have hcolumns : ∀ x ∈ s.label.span, ∀ y ∈ u.label.span, y < x := by
    apply Rose.rel_of_same_depth VisualFrameNode.span
      (R := fun S T => ∀ x ∈ S, ∀ y ∈ T, y < x) ?_ ?_ ?_ hs hu hlen hlt
    · intro S S' T T' hS hT h x hx y hy
      exact h x (hS hx) y (hT hy)
    · refine hlaidOut.mono fun a cs hat c hc x hx => ?_
      have h := hat.inside c hc
      exact ⟨h.1.trans hx.1, hx.2.trans_le h.2⟩
    · refine hordered.mono fun a cs hcs => hcs.imp ?_
      intro c d h x hx y hy
      exact lt_of_lt_of_le hy.2 (h.trans hx.1)
  have hspos := (hlaidOut p s hs).width_pos
  have hupos := (hlaidOut q u hu).width_pos
  have hfirst : s.label.x ∈ s.label.span := ⟨le_rfl, by omega⟩
  have hlast : u.label.x + u.label.width - 1 ∈ u.label.span := ⟨by omega, by omega⟩
  have h := hcolumns _ hfirst _ hlast
  omega

/-! ## The whole picture -/

/-- The links of a visual tree put its frames in order. -/
structure OrdersPicture (tree : Rose VisualFrameNode) : Prop where
  inverse : ∀ p q, leftVf tree p = some q ↔ rightVf tree q = some p
  /-- Going left from the head, one comes to the frames of this list and then to an end. -/
  visits : ∃ frames, Visits (leftVf tree) (some []) frames ∧ frames.Nodup ∧
    (∀ p, p ∈ frames ↔ ∃ s, tree.subtree? p = some s) ∧
    frames.Pairwise fun p q => ∀ s u, tree.subtree? p = some s → tree.subtree? q = some u →
      s.label.y ≤ u.label.y
  /-- The next frame on the same level is on the left, and no other one is between the two. -/
  leftward : ∀ p q s u, leftVf tree p = some q → tree.subtree? p = some s →
    tree.subtree? q = some u → s.label.y = u.label.y →
    u.label.x + u.label.width ≤ s.label.x ∧
      ∀ r v, tree.subtree? r = some v → v.label.y = s.label.y → r ≠ p → r ≠ q →
        s.label.x + s.label.width ≤ v.label.x ∨ v.label.x + v.label.width ≤ u.label.x

/-- A picture laid out from right to left is put in order. -/
theorem ordersPicture_of_everywhere {tree : Rose VisualFrameNode}
    (hdepth : ∀ p s, tree.subtree? p = some s → s.label.y = p.length)
    (hlaidOut : tree.Everywhere LaidOutAt) (hordered : tree.Everywhere RightToLeft) :
    OrdersPicture tree := by
  have hnodup := tree.nodup_bfsTraversal
  have hlinked := Links.doublyLinked_linkUp hnodup
  rw [← linkFrames_eq, tree.head?_bfsTraversal] at hlinked
  have hleft : ∀ {p q s u}, Rose.Before p q → tree.subtree? p = some s →
      tree.subtree? q = some u → s.label.y = u.label.y →
      u.label.x + u.label.width ≤ s.label.x := by
    intro p q s u hbefore hs hu hy
    rw [hdepth p s hs, hdepth q u hu] at hy
    rcases Rose.before_iff.mp hbefore with hlen | ⟨hlen, hlex⟩
    · omega
    · exact left_of_lex hlaidOut hordered hs hu hlen hlex
  refine ⟨fun p q => Links.linkUp_inverse hnodup, ?_, ?_⟩
  · refine ⟨tree.bfsTraversal, hlinked.visits, hnodup, fun p => Rose.mem_bfsTraversal, ?_⟩
    apply tree.pairwise_bfsTraversal.imp
    intro p q hbefore s u hs hu
    rw [hdepth p s hs, hdepth q u hu]
    rcases Rose.before_iff.mp hbefore with hlen | ⟨hlen, -⟩
    · omega
    · omega
  · intro p q s u hlink hs hu hy
    have hpair : (p, q) ∈ pairwise tree.bfsTraversal :=
      (Links.mem_of_linkUp_next hlink).resolve_left (by simp [Links.empty])
    refine ⟨hleft ?_ hs hu hy, ?_⟩
    · exact rel_of_mem_pairwise tree.pairwise_bfsTraversal.isChain hpair
    · intro r v hr hlevel hrp hrq
      have hmem := Rose.mem_bfsTraversal.mpr ⟨v, hr⟩
      rcases rel_or_rel_of_mem_pairwise tree.pairwise_bfsTraversal hpair hmem hrp hrq with h | h
      · exact Or.inl (hleft h hr hs hlevel)
      · exact Or.inr (hleft h hu hr (hy.symm.trans hlevel.symm))

/-- **Left and right order the whole picture**: for stacks with non-negative counts, a canvas of at
least one column and any frame to zoom into, `rebuild_tree` and `link_frames` build a picture whose
links run through all its frames, level by level and from right to left. -/
theorem rebuildTree_ordersPicture {samples : List (List Str × Int)}
    (hnonneg : ∀ s ∈ samples, 0 ≤ s.2) (canvas : Canvas) (hw : 1 ≤ canvas.width)
    {startVf : Option (List VisualFrame)} (hstart : StartVf (.ofSamples samples) startVf) :
    ∃ tree, rebuildTree (.ofSamples samples) canvas startVf = some tree ∧ OrdersPicture tree := by
  have hweighted := ofSamples_weighted_of_nonneg hnonneg
  obtain ⟨chain, hrun, hchain, -, hplace⟩ := rebuildTree_eq canvas hstart
  have hshows := headVf_shows (.ofSamples samples) canvas
  have hlaidOut := laidOut_zoomTree hweighted hw hshows rfl rfl hchain hplace
  have hordered := rightToLeft_zoomTree hweighted hw hshows rfl rfl hchain hplace
  refine ⟨_, hrun, ordersPicture_of_everywhere ?_ hlaidOut hordered⟩
  apply (sound_zoomTree canvas hshows hchain).y_eq_depth
  rw [label_zoomTree]
  rfl

theorem rebuildTree_ordersPicture_threeColumns :
    ∃ tree, rebuildTree (.ofSamples threeStacks) threeColumns none = some tree ∧
      OrdersPicture tree :=
  rebuildTree_ordersPicture (by decide) threeColumns (by decide) .head

end LdbToolchain.Tfg
