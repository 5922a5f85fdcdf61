import LdbToolchain.Tfg.Aggregate
import LdbToolchain.Tfg.Rebuild

/-!
# The layout of a flame graph

Widths are floored shares of the parent's width, so the children of a frame never need more than it
has; the one column that is kept free when they would fill it exactly is what makes room for the '+'
frame. `LaidOutAt` is the geometry of one frame and its children; it holds everywhere in a visual
tree, and `rebuildTree_wellLaidOut` draws the conclusions for the whole picture.
-/

namespace LdbToolchain.Tfg

variable {t : CallFrameTree} {canvas : Canvas} {vf : VisualFrame} {cf : Nat}

/-! ## Shares -/

theorem calculateWidth_nonneg {c p w : Int} (hc : 0 ≤ c) (hp : 0 ≤ p) (hw : 0 ≤ w) :
    0 ≤ calculateWidth c p w := by
  unfold calculateWidth
  split
  · exact Int.fdiv_nonneg (mul_nonneg hc hw) hp
  · exact le_rfl

/-- A larger parent gives its child no less. -/
theorem calculateWidth_mono {c p w w' : Int} (hc : 0 ≤ c) (hp : 0 ≤ p) (hw : w ≤ w') :
    calculateWidth c p w ≤ calculateWidth c p w' := by
  unfold calculateWidth
  split
  · next hne =>
      rw [Int.fdiv_eq_ediv_of_nonneg _ hp, Int.fdiv_eq_ediv_of_nonneg _ hp]
      exact Int.ediv_le_ediv (by omega) (mul_le_mul_of_nonneg_left hw hc)
  · exact le_rfl

/-- **Shares add up to no more than the whole.** -/
theorem sum_calculateWidth_le {counts : List Int} {p w : Int} (hp : 0 ≤ p)
    (hsum : counts.sum ≤ p) (hw : 0 ≤ w) :
    (counts.map fun c => calculateWidth c p w).sum ≤ w := by
  by_cases hp0 : p = 0
  · have hzero : ∀ c ∈ counts, calculateWidth c p w = 0 := by
      intro c _
      unfold calculateWidth
      rw [if_neg (not_not.mpr hp0)]
    rw [List.map_congr_left hzero]
    simpa using hw
  · have hpos : 0 < p := by omega
    -- without the division by `p`, the shares are those of a linear function
    have hscaled : p * (counts.map fun c => calculateWidth c p w).sum ≤ counts.sum * w := by
      clear hsum
      induction counts with
      | nil => simp
      | cons c cs ih =>
          have hc : p * calculateWidth c p w ≤ c * w := by
            unfold calculateWidth
            rw [if_pos hp0, Int.fdiv_eq_ediv_of_nonneg _ hp]
            exact Int.mul_ediv_self_le hp0
          rw [List.map_cons, List.sum_cons, List.sum_cons, mul_add, add_mul]
          exact add_le_add hc ih
    have hbound : counts.sum * w ≤ p * w := mul_le_mul_of_nonneg_right hsum hw
    exact le_of_mul_le_mul_left (hscaled.trans hbound) hpos

/-! ## The widths of a row -/

/-- The width shared out among the children. -/
def sharedWidth (t : CallFrameTree) (canvas : Canvas) (vf : VisualFrame) (cf : Nat) : Int :=
  if keepsColumn t canvas vf cf then vf.width - 1 else vf.width

theorem widths_rowFrames (shrunk : Bool) (x : Int) (cfs : List Nat) :
    (rowFrames t canvas vf shrunk x cfs).map (·.width) =
      cfs.map fun c => calculateWidth (t.node c).count vf.count
        (if shrunk then vf.width - 1 else vf.width) := by
  induction cfs generalizing x with
  | nil => rfl
  | cons c cs ih =>
      rw [rowFrames, List.map_cons, List.map_cons, ih]
      rfl

theorem sharedWidth_bounds (t : CallFrameTree) (canvas : Canvas) (cf : Nat)
    (hw : 1 ≤ vf.width) :
    0 ≤ sharedWidth t canvas vf cf ∧ sharedWidth t canvas vf cf ≤ vf.width := by
  unfold sharedWidth
  split <;> omega

theorem sum_widths_childRow (t : CallFrameTree) (canvas : Canvas) (vf : VisualFrame) (cf : Nat) :
    ((childRow t canvas vf cf).map (·.width)).sum =
      ((t.frames cf).map fun c =>
        calculateWidth (t.node c).count vf.count (sharedWidth t canvas vf cf)).sum := by
  unfold childRow
  rw [widths_rowFrames]
  exact ((t.sortedFrames_perm cf).map _).sum_eq

/-- The widths of weighted call frames, shared out of any width, fit into it. -/
theorem sum_shares_le (hweighted : t.Weighted) (hshows : vf.Shows t cf) {w : Int} (hw : 0 ≤ w) :
    ((t.frames cf).map fun c => calculateWidth (t.node c).count vf.count w).sum ≤ w := by
  have hmap : ((t.frames cf).map fun c => calculateWidth (t.node c).count vf.count w)
      = ((t.frames cf).map fun c => (t.node c).count).map fun c =>
          calculateWidth c vf.count w := by
    rw [List.map_map]
    rfl
  rw [hmap, hshows.2]
  exact sum_calculateWidth_le (hweighted cf).1 (hweighted cf).2 hw

theorem width_nonneg_of_mem_childRow (hweighted : t.Weighted) (hshows : vf.Shows t cf)
    (hw : 1 ≤ vf.width) {v : VisualFrame} (hv : v ∈ childRow t canvas vf cf) : 0 ≤ v.width := by
  obtain ⟨c, -, -, -, hwidth⟩ := mem_rowFrames hv
  rw [hwidth, hshows.2]
  exact calculateWidth_nonneg (hweighted c).1 (hweighted cf).1 (sharedWidth_bounds t canvas cf hw).1

/-- The children fit into their parent. -/
theorem row_fits (canvas : Canvas) (hweighted : t.Weighted) (hshows : vf.Shows t cf)
    (hw : 1 ≤ vf.width) :
    ((childRow t canvas vf cf).map (·.width)).sum ≤ vf.width := by
  obtain ⟨hnonneg, hle⟩ := sharedWidth_bounds t canvas cf hw
  rw [sum_widths_childRow]
  exact (sum_shares_le hweighted hshows hnonneg).trans hle

/-- **There is room for the '+' frame.** -/
theorem row_leaves_column (canvas : Canvas) (hweighted : t.Weighted) (hshows : vf.Shows t cf)
    (hw : 1 ≤ vf.width) (hcombined : hasCombined t canvas vf cf = true) :
    ((childRow t canvas vf cf).map (·.width)).sum + 1 ≤ vf.width := by
  rw [sum_widths_childRow]
  by_cases hkeeps : keepsColumn t canvas vf cf = true
  · -- the widths were shared out of one column less
    have hshared : sharedWidth t canvas vf cf = vf.width - 1 := by
      unfold sharedWidth
      rw [if_pos hkeeps]
    have hsum := sum_shares_le (w := vf.width - 1) hweighted hshows (by omega)
    rw [hshared]
    omega
  · -- the widths do not fill the parent
    have hshared : sharedWidth t canvas vf cf = vf.width := by
      unfold sharedWidth
      rw [if_neg hkeeps]
    have hsum := sum_shares_le (w := vf.width) hweighted hshows (by omega)
    have hne : (vfWidths t vf cf).sum ≠ vf.width := by
      intro heq
      apply hkeeps
      unfold keepsColumn
      rw [hcombined, Bool.true_and, decide_eq_true_eq]
      exact heq
    unfold vfWidths at hne
    rw [hshared]
    omega

/-! ## The columns of a row -/

/-- From right to left, each frame ends where the one before it starts. -/
theorem rowFrames_columns {shrunk : Bool} {x : Int} {cfs : List Nat}
    (hnonneg : ∀ v ∈ rowFrames t canvas vf shrunk x cfs, 0 ≤ v.width) :
    (∀ v ∈ rowFrames t canvas vf shrunk x cfs,
      rowEnd x (rowFrames t canvas vf shrunk x cfs) ≤ v.x ∧ v.x + v.width ≤ x) ∧
    (rowFrames t canvas vf shrunk x cfs).Pairwise fun v w => w.x + w.width ≤ v.x := by
  induction cfs generalizing x with
  | nil => exact ⟨fun v hv => absurd hv List.not_mem_nil, List.Pairwise.nil⟩
  | cons c cs ih =>
      rw [rowFrames] at hnonneg ⊢
      have hfirst : (createVf t canvas x (vf.y + 1) vf c shrunk).x
          = x - (createVf t canvas x (vf.y + 1) vf c shrunk).width := rfl
      generalize createVf t canvas x (vf.y + 1) vf c shrunk = v at hnonneg hfirst ⊢
      have hv := hnonneg v (List.mem_cons_self ..)
      obtain ⟨hcolumns, hrow⟩ := ih fun w hw => hnonneg w (List.mem_cons_of_mem v hw)
      have hrest : 0 ≤ ((rowFrames t canvas vf shrunk (x - v.width) cs).map (·.width)).sum := by
        apply List.sum_nonneg
        intro w hw
        obtain ⟨u, hu, rfl⟩ := List.mem_map.mp hw
        exact hnonneg u (List.mem_cons_of_mem v hu)
      unfold rowEnd at hcolumns ⊢
      rw [List.map_cons, List.sum_cons]
      refine ⟨?_, List.pairwise_cons.mpr ⟨?_, hrow⟩⟩
      · intro w hw
        rcases List.mem_cons.mp hw with rfl | hw
        · omega
        · have h := hcolumns w hw
          omega
      · intro w hw
        have h := (hcolumns w hw).2
        omega

/-! ## Local geometry -/

/-- The columns of a frame. -/
def VisualFrameNode.span (a : VisualFrameNode) : Set Int := Set.Ico a.x (a.x + a.width)

theorem disjoint_span {a b : VisualFrameNode} (h : b.x + b.width ≤ a.x) :
    Disjoint a.span b.span := by
  rw [Set.disjoint_left]
  intro x ha hb
  have h1 := ha.1
  have h2 := hb.2
  omega

structure LaidOutAt (label : VisualFrameNode) (cs : List (Rose VisualFrameNode)) : Prop where
  width_pos : 1 ≤ label.width
  inside : ∀ c ∈ cs, label.x ≤ c.label.x ∧
    c.label.x + c.label.width ≤ label.x + label.width
  apart : cs.Pairwise fun c d => Disjoint c.label.span d.label.span

theorem laidOutAt_leaf {label : VisualFrameNode} (hw : 1 ≤ label.width) : LaidOutAt label [] where
  width_pos := hw
  inside _ hc := absurd hc List.not_mem_nil
  apart := List.Pairwise.nil

theorem sum_widths_nonneg {row : List VisualFrame} (h : ∀ v ∈ row, 0 ≤ v.width) :
    0 ≤ (row.map (·.width)).sum := by
  apply List.sum_nonneg
  intro w hw
  obtain ⟨v, hv, rfl⟩ := List.mem_map.mp hw
  exact h v hv

/-- The visible children of a frame are between its right end and the end of the row, from right to
left. -/
theorem columns_visible (canvas : Canvas) (hweighted : t.Weighted) (hshows : vf.Shows t cf)
    (hw : 1 ≤ vf.width) :
    (∀ c ∈ (visible (childRow t canvas vf cf)).map (expand t canvas),
      rowEnd (vf.x + vf.width) (childRow t canvas vf cf) ≤ c.label.x ∧
        c.label.x + c.label.width ≤ vf.x + vf.width) ∧
    ((visible (childRow t canvas vf cf)).map (expand t canvas)).Pairwise
      fun c d => d.label.x + d.label.width ≤ c.label.x := by
  have hnonneg : ∀ v ∈ childRow t canvas vf cf, 0 ≤ v.width :=
    fun v hv => width_nonneg_of_mem_childRow hweighted hshows hw hv
  obtain ⟨hcolumns, hrow⟩ := rowFrames_columns hnonneg
  constructor
  · intro c hc
    obtain ⟨v, hv, rfl⟩ := List.mem_map.mp hc
    exact hcolumns v (List.mem_filter.mp hv).1
  · rw [List.pairwise_map]
    exact List.Pairwise.filter _ hrow

/-- The children of an expanded frame are in its columns, from right to left. -/
theorem columns_createVfChildren (canvas : Canvas) (hweighted : t.Weighted)
    (hshows : vf.Shows t cf) (hw : 1 ≤ vf.width) :
    (∀ c ∈ createVfChildren t canvas vf cf, vf.x ≤ c.label.x ∧
      c.label.x + c.label.width ≤ vf.x + vf.width) ∧
    (createVfChildren t canvas vf cf).Pairwise
      fun c d => d.label.x + d.label.width ≤ c.label.x := by
  by_cases hne : t.frames cf = []
  · rw [createVfChildren, if_pos hne]
    exact ⟨List.forall_mem_nil _, List.Pairwise.nil⟩
  obtain ⟨hvisible, hordered⟩ := columns_visible canvas hweighted hshows hw
  have hend : rowEnd (vf.x + vf.width) (childRow t canvas vf cf)
      = vf.x + vf.width - ((childRow t canvas vf cf).map (·.width)).sum := rfl
  have hfits := row_fits canvas hweighted hshows hw
  have hcolumn := row_leaves_column canvas hweighted hshows hw
  rw [createVfChildren_eq t canvas vf cf hne]
  cases hcombined : hasCombined t canvas vf cf with
  | false =>
      rw [if_neg (by simp), List.append_nil]
      refine ⟨?_, hordered⟩
      intro c hc
      have h := hvisible c hc
      omega
  | true =>
      -- the '+' frame takes the column to the left of the row
      have hroom := hcolumn hcombined
      rw [if_pos rfl]
      constructor
      · refine List.forall_mem_append.mpr ⟨?_, List.forall_mem_singleton.mpr ?_⟩
        · intro c hc
          have h := hvisible c hc
          omega
        · show vf.x ≤ rowEnd (vf.x + vf.width) (childRow t canvas vf cf) - 1 ∧
            rowEnd (vf.x + vf.width) (childRow t canvas vf cf) - 1 + 1 ≤ vf.x + vf.width
          have hsum : 0 ≤ ((childRow t canvas vf cf).map (·.width)).sum :=
            sum_widths_nonneg fun v hv => width_nonneg_of_mem_childRow hweighted hshows hw hv
          omega
      · refine List.pairwise_append.mpr ⟨hordered, List.pairwise_singleton _ _, ?_⟩
        intro c hc
        refine List.forall_mem_singleton.mpr ?_
        have h := (hvisible c hc).1
        show rowEnd (vf.x + vf.width) (childRow t canvas vf cf) - 1 + 1 ≤ c.label.x
        omega

/-- The geometry of the children of an expanded frame. -/
theorem laidOutAt_createVfChildren (canvas : Canvas) (hweighted : t.Weighted)
    (hshows : vf.Shows t cf) (hw : 1 ≤ vf.width) :
    LaidOutAt vf.single (createVfChildren t canvas vf cf) := by
  obtain ⟨hinside, hordered⟩ := columns_createVfChildren canvas hweighted hshows hw
  exact ⟨hw, hinside, hordered.imp disjoint_span⟩

section Everywhere

variable {P : VisualFrameNode → List (Rose VisualFrameNode) → Prop}

/-- What holds of every frame with a width, and of the '+' frames, holds everywhere in an expanded
frame. -/
theorem everywhere_expand
    (hframe : ∀ vf cf, vf.Shows t cf → 1 ≤ vf.width → P vf.single (createVfChildren t canvas vf cf))
    (hplus : ∀ x y members, P (plusVf x y members) []) (hshows : vf.Shows t cf)
    (hw : 1 ≤ vf.width) : (expand t canvas vf).Everywhere P := by
  refine expand_induction canvas
    (motive := fun vf => 1 ≤ vf.width → (expand t canvas vf).Everywhere P) ?_ cf vf hshows hw
  intro vf cf hshows ih hw
  have hat := hframe vf cf hshows hw
  unfold expand
  rw [hshows.1]
  refine (Rose.everywhere_node _ _).mpr ⟨hat, ?_⟩
  intro c hc
  rcases mem_createVfChildren hc with ⟨v, hv, rfl⟩ | ⟨x, rfl⟩
  · obtain ⟨hmem, hpos⟩ := List.mem_filter.mp hv
    obtain ⟨f, hf, hshowsf, -⟩ := mem_childRow hmem
    exact ih v hv f hf hshowsf (of_decide_eq_true hpos)
  · refine (Rose.everywhere_node _ _).mpr ⟨hplus _ _ _, ?_⟩
    exact fun c hc => absurd hc List.not_mem_nil

/-- And everywhere in a visual tree, if it holds of a zoomed frame above another one. -/
theorem everywhere_zoomTree
    (hframe : ∀ vf cf, vf.Shows t cf → 1 ≤ vf.width → P vf.single (createVfChildren t canvas vf cf))
    (hplus : ∀ x y members, P (plusVf x y members) [])
    (hzoomed : ∀ (v : VisualFrame) c, v.x = canvas.x → v.width = canvas.width →
      c.label.x = canvas.x → c.label.width = canvas.width → P v.single [c])
    (hw : 1 ≤ canvas.width) {chain : List VisualFrame} (hshows : vf.Shows t cf)
    (hx : vf.x = canvas.x) (hwidth : vf.width = canvas.width) {y : Int} (hchain : Stacked t y chain)
    (hplace : ∀ v ∈ chain, v.x = canvas.x ∧ v.width = canvas.width) :
    (zoomTree t canvas vf chain).Everywhere P := by
  induction chain generalizing vf cf y with
  | nil => exact everywhere_expand hframe hplus hshows (hwidth ▸ hw)
  | cons v vs ih =>
      obtain ⟨-, ⟨f, hf⟩, hvs⟩ := hchain
      obtain ⟨hvx, hvwidth⟩ := hplace v (List.mem_cons_self ..)
      rw [zoomTree_cons]
      refine (Rose.everywhere_node _ _).mpr ⟨?_, ?_⟩
      · apply hzoomed vf _ hx hwidth
        · rw [label_zoomTree]
          exact hvx
        · rw [label_zoomTree]
          exact hvwidth
      · intro c hc
        rw [List.mem_singleton.mp hc]
        exact ih hf hvx hvwidth hvs fun w hw => hplace w (List.mem_cons_of_mem v hw)

end Everywhere

/-- **A visual tree is laid out well.** -/
theorem laidOut_zoomTree (hweighted : t.Weighted) (hw : 1 ≤ canvas.width)
    {chain : List VisualFrame} (hshows : vf.Shows t cf) (hx : vf.x = canvas.x)
    (hwidth : vf.width = canvas.width) {y : Int} (hchain : Stacked t y chain)
    (hplace : ∀ v ∈ chain, v.x = canvas.x ∧ v.width = canvas.width) :
    (zoomTree t canvas vf chain).Everywhere LaidOutAt := by
  refine everywhere_zoomTree ?_ (fun _ _ _ => laidOutAt_leaf le_rfl) ?_ hw hshows hx hwidth hchain
    hplace
  · intro vf cf hshows hw
    exact laidOutAt_createVfChildren canvas hweighted hshows hw
  · intro v c hvx hvwidth hcx hcwidth
    refine ⟨?_, ?_, List.pairwise_singleton _ _⟩
    · show 1 ≤ v.width
      omega
    · intro d hd
      rw [List.mem_singleton.mp hd]
      show v.x ≤ c.label.x ∧ c.label.x + c.label.width ≤ v.x + v.width
      omega

/-! ## The picture -/

/-- A picture without frames outside the window or over one another. -/
structure WellLaidOut (canvas : Canvas) (tree : Rose VisualFrameNode) : Prop where
  root : tree.label.x = canvas.x ∧ tree.label.width = canvas.width
  width_pos : ∀ p s, tree.subtree? p = some s → 1 ≤ s.label.width
  /-- The columns of a frame are among its parent's. -/
  inside : ∀ p s, tree.subtree? p = some s → ∀ c ∈ s.children,
    s.label.x ≤ c.label.x ∧ c.label.x + c.label.width ≤ s.label.x + s.label.width
  /-- Two frames of the same depth have no column in common. -/
  apart : ∀ p q s u, tree.subtree? p = some s → tree.subtree? q = some u →
    p.length = q.length → p ≠ q → Disjoint s.label.span u.label.span
  depth : ∀ p s, tree.subtree? p = some s → s.label.y = p.length

/-- Local geometry makes a picture. -/
theorem wellLaidOut_of_everywhere {tree : Rose VisualFrameNode}
    (hroot : tree.label.x = canvas.x ∧ tree.label.width = canvas.width) (hy : tree.label.y = 0)
    (hsound : Sound t tree) (hlocal : tree.Everywhere LaidOutAt) : WellLaidOut canvas tree where
  root := hroot
  width_pos p s hs := (hlocal p s hs).width_pos
  inside p s hs := (hlocal p s hs).inside
  apart := by
    intro p q s u hs hu hlen hne
    apply Rose.disjoint_of_same_depth VisualFrameNode.span ?_ ?_ hs hu hlen hne
    · refine hlocal.mono fun a cs hat c hc x hx => ?_
      have h := hat.inside c hc
      exact ⟨h.1.trans hx.1, hx.2.trans_le h.2⟩
    · exact hlocal.mono fun a cs hat => hat.apart
  depth := hsound.y_eq_depth hy

/-- **Flame graphs are well formed.** For stacks with non-negative counts, a canvas of at least one
column and any frame to zoom into, `rebuild_tree` builds a picture without frames outside the window
or over one another. -/
theorem rebuildTree_wellLaidOut {samples : List (List Str × Int)}
    (hnonneg : ∀ s ∈ samples, 0 ≤ s.2) (canvas : Canvas)
    (hw : 1 ≤ canvas.width) {startVf : Option (List VisualFrame)}
    (hstart : StartVf (.ofSamples samples) startVf) :
    ∃ tree, rebuildTree (.ofSamples samples) canvas startVf = some tree ∧
      WellLaidOut canvas tree := by
  have hweighted := ofSamples_weighted_of_nonneg hnonneg
  obtain ⟨chain, hrun, hchain, -, hplace⟩ := rebuildTree_eq canvas hstart
  have hshows := headVf_shows (.ofSamples samples) canvas
  refine ⟨_, hrun, wellLaidOut_of_everywhere ?_ ?_ (sound_zoomTree canvas hshows hchain) ?_⟩
  · rw [label_zoomTree]
    exact ⟨rfl, rfl⟩
  · rw [label_zoomTree]
    rfl
  · exact laidOut_zoomTree hweighted hw hshows rfl rfl hchain hplace

/-- `m;f` three times, `m;g` once and `n` never. -/
def threeStacks : List (List Str × Int) :=
  [([['m'], ['f']], 3), ([['m'], ['g']], 1), ([['n']], 0)]

/-- Three columns, so that `g` and `n` get none. -/
def threeColumns : Canvas where
  x := 0
  width := 3
  wsFiller := [' ']
  withCombinedFrames := true

theorem rebuildTree_wellLaidOut_threeColumns :
    ∃ tree, rebuildTree (.ofSamples threeStacks) threeColumns none = some tree ∧
      WellLaidOut threeColumns tree :=
  rebuildTree_wellLaidOut (by decide) threeColumns (by decide) .head

end LdbToolchain.Tfg
