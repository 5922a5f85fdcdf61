import LdbToolchain.Tfg.Lineage
import LdbToolchain.Tfg.Lossless

/-!
# The texts of the frames

A frame is documented to have a text of exactly its width. `fit_string` repeats the filler once for
each column that the name leaves free, so that a filler that is not one character long makes the text
too long or too short wherever a name does not fill its frame. `texts_fill_iff` says when.
-/

namespace LdbToolchain.Tfg

/-- The text of the frame, and of those combined in it, is as long as the frame is wide. -/
def TextFills (label : VisualFrameNode) (_ : List (Rose VisualFrameNode)) : Prop :=
  (label.text.length : Int) = label.width ∧
    ∀ m ∈ label.combinedFrames, (m.text.length : Int) = m.width

/-! ## `fit_string` -/

theorem length_fitString_iff (text wsFiller : Str) {width : Int} (hw : 0 ≤ width) :
    ((fitString text width wsFiller).length : Int) = width ↔
      wsFiller.length = 1 ∨ width ≤ text.length := by
  rw [fitString, sliceTo, if_pos hw]
  split
  next hlt =>
    -- the name, and the filler for each column left
    have hmissing : (0 : Int) < (width - text.length).toNat := by omega
    rw [List.take_of_length_le (by omega), repeatStr, List.length_append, List.length_flatten,
      List.map_replicate, List.sum_replicate, smul_eq_mul]
    constructor
    · intro h
      left
      have hone : (((width - text.length).toNat * wsFiller.length : Nat) : Int)
          = (width - text.length).toNat * 1 := by
        push_cast at h ⊢
        omega
      push_cast at hone
      exact_mod_cast mul_left_cancel₀ hmissing.ne' hone
    · rintro (hone | hle)
      · rw [hone, mul_one]
        omega
      · omega
  next hge =>
    rw [List.length_take]
    refine iff_of_true ?_ (.inr (not_lt.mp hge))
    omega

/-! ## Widths of names -/

variable {t : CallFrameTree} {canvas : Canvas} {vf : VisualFrame} {cf : Nat}

/-- The columns that the children of a call frame on `width` columns share. -/
def sharedColumns (t : CallFrameTree) (withCombinedFrames : Bool) (width : Int) (cf : Nat) : Int :=
  let widths := (t.frames cf).map fun c =>
    calculateWidth (t.node c).count (t.node cf).count width
  if withCombinedFrames && widths.min? = some 0 && widths.sum = width then width - 1 else width

/-- The columns of a child. -/
def childColumns (t : CallFrameTree) (withCombinedFrames : Bool) (width : Int) (cf c : Nat) : Int :=
  calculateWidth (t.node c).count (t.node cf).count (sharedColumns t withCombinedFrames width cf)

/-- A call frame on `width` columns, and those below it that get a column, have names that are at
least as long as they are wide. -/
inductive NamesFill (t : CallFrameTree) (withCombinedFrames : Bool) : Int → Nat → Prop
  | intro {width : Int} {cf : Nat} : width ≤ (t.node cf).name.length →
      (∀ c ∈ t.frames cf, 0 < childColumns t withCombinedFrames width cf c →
        NamesFill t withCombinedFrames (childColumns t withCombinedFrames width cf c) c) →
      NamesFill t withCombinedFrames width cf

theorem childColumns_eq (canvas : Canvas) (hshows : vf.Shows t cf) (c : Nat) :
    childColumns t canvas.withCombinedFrames vf.width cf c
      = calculateWidth (t.node c).count vf.count
          (if keepsColumn t canvas vf cf then vf.width - 1 else vf.width) := by
  rw [childColumns, sharedColumns, keepsColumn, hasCombined, vfWidths, hshows.2]

/-! ## Rows -/

/-- The text that `_create_vf` makes. -/
def Fitted (t : CallFrameTree) (canvas : Canvas) (vf : VisualFrame) (cf : Nat) : Prop :=
  vf.text = fitString (t.node cf).name vf.width canvas.wsFiller

theorem fitted_rowFrames {shrunk : Bool} {x : Int} {cfs : List Nat} {v : VisualFrame}
    (hv : v ∈ rowFrames t canvas vf shrunk x cfs) {c : Nat} (hc : v.cf = some c) :
    Fitted t canvas v c := by
  induction cfs generalizing x with
  | nil => cases hv
  | cons d ds ih =>
      rcases List.mem_cons.mp hv with rfl | hv
      · cases hc
        rfl
      · exact ih hv

/-- The visible children, by their call frames. -/
theorem forall_visible (hshows : vf.Shows t cf) {P : VisualFrame → Prop} {Q : Int → Nat → Prop}
    (h : ∀ v c, v ∈ visible (childRow t canvas vf cf) → c ∈ t.frames cf → v.Shows t c →
      (P v ↔ Q v.width c)) :
    (∀ v ∈ visible (childRow t canvas vf cf), P v) ↔
      ∀ c ∈ t.frames cf, 0 < childColumns t canvas.withCombinedFrames vf.width cf c →
        Q (childColumns t canvas.withCombinedFrames vf.width cf c) c := by
  constructor
  · intro hall c hc hpos
    obtain ⟨v, hv, hshowsc, hwidth⟩ := exists_rowFrame canvas vf (keepsColumn t canvas vf cf)
      (vf.x + vf.width) ((t.sortedFrames_perm cf).mem_iff.mpr hc)
    rw [childColumns_eq canvas hshows, ← hwidth] at hpos ⊢
    have hvisible : v ∈ visible (childRow t canvas vf cf) :=
      List.mem_filter.mpr ⟨hv, decide_eq_true hpos⟩
    exact (h v c hvisible hc hshowsc).mp (hall v hvisible)
  · intro hall v hv
    obtain ⟨hmem, hpos⟩ := List.mem_filter.mp hv
    obtain ⟨c, hc, hshowsc, -, hwidth⟩ := mem_rowFrames hmem
    have hc := (t.sortedFrames_perm cf).mem_iff.mp hc
    rw [h v c hv hc hshowsc]
    have hcolumns := hall c hc
    rw [childColumns_eq canvas hshows, ← hwidth] at hcolumns
    exact hcolumns (of_decide_eq_true hpos)

/-- The frames without a column have no text. -/
theorem textFills_combined (hweighted : t.Weighted) (hshows : vf.Shows t cf) (hw : 1 ≤ vf.width)
    {m : VisualFrame} (hm : m ∈ combined (childRow t canvas vf cf)) :
    (m.text.length : Int) = m.width := by
  obtain ⟨hmem, hnone⟩ := List.mem_filter.mp hm
  have hnonneg := width_nonneg_of_mem_childRow hweighted hshows hw hmem
  have hzero : m.width = 0 := by
    have hle := of_decide_eq_true hnone
    omega
  obtain ⟨c, -, hshowsc, -⟩ := mem_rowFrames hmem
  have htext : m.text = fitString (t.node c).name m.width canvas.wsFiller :=
    fitted_rowFrames hmem hshowsc.1
  rw [htext, length_fitString_iff _ _ hnonneg]
  right
  omega

/-! ## Every frame -/

theorem textFills_single_iff (hfitted : Fitted t canvas vf cf) (hw : 1 ≤ vf.width)
    (cs : List (Rose VisualFrameNode)) :
    TextFills vf.single cs ↔
      canvas.wsFiller.length = 1 ∨ vf.width ≤ (t.node cf).name.length := by
  have hlength := length_fitString_iff (t.node cf).name canvas.wsFiller
    (show 0 ≤ vf.width by omega)
  rw [← hfitted] at hlength
  rw [← hlength]
  constructor
  · intro h
    exact h.1
  · intro h
    exact ⟨h, fun m hm => absurd hm List.not_mem_nil⟩

/-- The children with a column decide: a '+' frame has no text beyond its width. -/
theorem textsFill_children_iff (hweighted : t.Weighted) (hshows : vf.Shows t cf)
    (hw : 1 ≤ vf.width) :
    (∀ c ∈ createVfChildren t canvas vf cf, c.Everywhere TextFills) ↔
      ∀ v ∈ visible (childRow t canvas vf cf), (expand t canvas v).Everywhere TextFills := by
  constructor
  · intro hall v hv
    apply hall
    obtain ⟨f, hf, -⟩ := mem_childRow (List.mem_filter.mp hv).1
    rw [createVfChildren_eq t canvas vf cf (List.ne_nil_of_mem hf)]
    exact List.mem_append_left _ (List.mem_map_of_mem hv)
  · intro hall c hc
    rcases mem_createVfChildren hc with ⟨v, hv, rfl⟩ | ⟨x, rfl⟩
    · exact hall v hv
    · refine (Rose.everywhere_node _ _).mpr ⟨⟨rfl, ?_⟩, fun c hc => absurd hc List.not_mem_nil⟩
      exact fun m hm => textFills_combined hweighted hshows hw hm

/-- **Below a frame**, by induction down the call frames that get a column. -/
theorem textsFill_expand_iff (hweighted : t.Weighted) (hshows : vf.Shows t cf)
    (hfitted : Fitted t canvas vf cf) (hw : 1 ≤ vf.width) :
    (expand t canvas vf).Everywhere TextFills ↔
      canvas.wsFiller.length = 1 ∨ NamesFill t canvas.withCombinedFrames vf.width cf := by
  refine expand_induction canvas (motive := fun vf => ∀ cf, vf.Shows t cf → Fitted t canvas vf cf →
    1 ≤ vf.width → ((expand t canvas vf).Everywhere TextFills ↔
      canvas.wsFiller.length = 1 ∨ NamesFill t canvas.withCombinedFrames vf.width cf))
    ?_ cf vf hshows cf hshows hfitted hw
  intro vf cf hshows ih cf' hshows' hfitted hw
  obtain rfl : cf = cf' := Option.some.inj (hshows.1.symm.trans hshows'.1)
  have hbelow : (∀ v ∈ visible (childRow t canvas vf cf), (expand t canvas v).Everywhere TextFills) ↔
      ∀ c ∈ t.frames cf, 0 < childColumns t canvas.withCombinedFrames vf.width cf c →
        (canvas.wsFiller.length = 1 ∨ NamesFill t canvas.withCombinedFrames
          (childColumns t canvas.withCombinedFrames vf.width cf c) c) := by
    apply forall_visible hshows (Q := fun width c =>
      canvas.wsFiller.length = 1 ∨ NamesFill t canvas.withCombinedFrames width c)
    intro v c hv hc hshowsc
    obtain ⟨hmem, hpos⟩ := List.mem_filter.mp hv
    exact ih v hv c hc hshowsc c hshowsc (fitted_rowFrames hmem hshowsc.1)
      (of_decide_eq_true hpos)
  unfold expand
  rw [hshows.1, Rose.everywhere_node, textFills_single_iff hfitted hw]
  show _ ∧ (∀ c ∈ createVfChildren t canvas vf cf, c.Everywhere TextFills) ↔ _
  rw [textsFill_children_iff hweighted hshows hw, hbelow]
  constructor
  · rintro ⟨hname, hall⟩
    by_cases hfiller : canvas.wsFiller.length = 1
    · exact .inl hfiller
    · refine .inr ⟨hname.resolve_left hfiller, ?_⟩
      intro c hc hpos
      exact (hall c hc hpos).resolve_left hfiller
  · rintro (hfiller | ⟨hname, hall⟩)
    · exact ⟨.inl hfiller, fun c hc hpos => .inl hfiller⟩
    · exact ⟨.inr hname, fun c hc hpos => .inr (hall c hc hpos)⟩

/-- The frames zoomed into have the width of the canvas. -/
theorem textsFill_zoomTree_iff (hweighted : t.Weighted) (hw : 1 ≤ canvas.width) (y : Int) (a : Nat)
    (cs : List Nat) :
    (zoomTree t canvas (zoomFrame t canvas y a) (zoomFrames t canvas (y + 1) cs)).Everywhere
        TextFills ↔
      canvas.wsFiller.length = 1 ∨ (∀ c ∈ a :: cs, canvas.width ≤ (t.node c).name.length) ∧
        NamesFill t canvas.withCombinedFrames canvas.width (CallFrameTree.lastOf a cs) := by
  induction cs generalizing a y with
  | nil =>
      rw [show zoomTree t canvas (zoomFrame t canvas y a) (zoomFrames t canvas (y + 1) [])
        = expand t canvas (zoomFrame t canvas y a) from rfl,
        textsFill_expand_iff hweighted (zoomFrame_shows t canvas y a) rfl hw]
      constructor
      · rintro (hfiller | hfill)
        · exact .inl hfiller
        · refine .inr ⟨?_, hfill⟩
          obtain ⟨hname, -⟩ := hfill
          intro c hc
          rw [List.mem_singleton.mp hc]
          exact hname
      · rintro (hfiller | ⟨-, hfill⟩)
        · exact .inl hfiller
        · exact .inr hfill
  | cons c cs ih =>
      have hlabel := @textFills_single_iff t canvas (zoomFrame t canvas y a) a rfl hw
      rw [zoomFrames, zoomTree_cons, Rose.everywhere_node, hlabel, List.forall_mem_singleton, ih]
      show (_ ∨ canvas.width ≤ (t.node a).name.length) ∧ _ ↔ _
      rw [CallFrameTree.lastOf_cons, ← or_and_left]
      simp only [List.forall_mem_cons, and_assoc]

/-! ## Every tree -/

theorem built_genealogical {tree : Rose VisualFrameNode} (h : Built t tree) :
    Genealogical t tree := by
  induction h with
  | @initial canvas tree htree =>
      have hnone : rebuildTree t canvas none = some (zoomedTree t canvas []) := rfl
      rw [hnone] at htree
      cases htree
      exact genealogical_zoomedTree canvas trivial
  | @zoom canvas earlier tree startVf _ htarget htree ih =>
      obtain ⟨cs, hcs, -, hrun, -⟩ := rebuildTree_zoom canvas ih htarget
      rw [hrun] at htree
      cases htree
      exact genealogical_zoomedTree canvas hcs

/-- The tree is zoomed into the call frames of `start_vf_parents[:-1][::-1]`. -/
theorem rebuildTree_eq_zoomedTree (canvas : Canvas) {startVf : Option (List VisualFrame)}
    (hstart : StartVf t startVf) :
    rebuildTree t canvas startVf
      = some (zoomedTree t canvas ((startParents startVf).filterMap (·.cf))) := by
  cases hstart with
  | head => rfl
  | @zoom earlier parents hbuilt htarget =>
      have hgen := built_genealogical hbuilt
      obtain ⟨cs, hcfs, -⟩ := lineage_startParents hgen htarget
      have hlines : (startParents (some parents)).filterMap (·.cf) = cs := by
        have hmap := congrArg (List.filterMap id) hcfs
        rw [List.filterMap_map, List.filterMap_map] at hmap
        exact hmap.trans List.filterMap_some
      rw [hlines, rebuildTree,
        mapM_zoomedVf canvas (stacked_startParents hgen.sound hgen.y htarget) hcfs]
      rfl

/-- The names of the call frames zoomed into, from the head on, are at least as long as the canvas is
wide, and so are those of the call frames drawn below the last of them. -/
def ZoomedNamesFill (t : CallFrameTree) (canvas : Canvas) (startVf : Option (List VisualFrame)) :
    Prop :=
  let zoomed := (startParents startVf).filterMap (·.cf)
  (∀ c ∈ t.head :: zoomed, canvas.width ≤ (t.node c).name.length) ∧
    NamesFill t canvas.withCombinedFrames canvas.width (CallFrameTree.lastOf t.head zoomed)

/-- **When every text is as long as its frame is wide.** -/
theorem texts_fill_iff {samples : List (List Str × Int)} (hnonneg : ∀ s ∈ samples, 0 ≤ s.2)
    (canvas : Canvas) (hw : 1 ≤ canvas.width) {startVf : Option (List VisualFrame)}
    (hstart : StartVf (.ofSamples samples) startVf) :
    ∃ tree, rebuildTree (.ofSamples samples) canvas startVf = some tree ∧
      (tree.Everywhere TextFills ↔
        canvas.wsFiller.length = 1 ∨ ZoomedNamesFill (.ofSamples samples) canvas startVf) := by
  refine ⟨_, rebuildTree_eq_zoomedTree canvas hstart, ?_⟩
  exact textsFill_zoomTree_iff (ofSamples_weighted_of_nonneg hnonneg) hw 0 0 _

theorem texts_fill_iff_threeColumns :
    ∃ tree, rebuildTree (.ofSamples threeStacks) threeColumns none = some tree ∧
      tree.Everywhere TextFills := by
  obtain ⟨tree, hrun, hiff⟩ := texts_fill_iff (show ∀ s ∈ threeStacks, 0 ≤ s.2 by decide)
    threeColumns (by decide) .head
  exact ⟨tree, hrun, hiff.mpr (.inl rfl)⟩

/-- `all` on four columns, with a filler of two characters, is drawn as `all..`. -/
theorem text_overflows :
    ∃ tree, rebuildTree (.ofSamples [([['a']], 1)]) ⟨0, 4, ['.', '.'], true⟩ none = some tree ∧
      tree.label.text = "all..".toList ∧ ¬ tree.Everywhere TextFills := by
  refine ⟨_, rfl, rfl, ?_⟩
  intro hall
  exact absurd (hall [] _ rfl).1 (by decide)

end LdbToolchain.Tfg
