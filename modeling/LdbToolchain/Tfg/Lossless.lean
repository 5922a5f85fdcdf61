import LdbToolchain.Tfg.Layout

/-!
# No frame is lost

Which children are combined is decided twice: once to know whether a '+' frame is needed, with the
parent's full width, and once to make the frames, maybe with one column less. The two decisions
agree, `hasCombined_iff`: a child without a column in the first pass has none in the second, and if
all have one in the first pass, the second is the same. So every child of an expanded frame is either
shown or a member of its '+' frame, `Accounted`.
-/

namespace LdbToolchain.Tfg

variable {t : CallFrameTree} {canvas : Canvas} {vf : VisualFrame} {cf : Nat}

/-! ## Rows -/

/-- A row has a frame for every call frame. -/
theorem exists_rowFrame (canvas : Canvas) (vf : VisualFrame) (shrunk : Bool) (x : Int)
    {cfs : List Nat} {c : Nat} (hc : c ∈ cfs) :
    ∃ v ∈ rowFrames t canvas vf shrunk x cfs, v.Shows t c ∧
      v.width = calculateWidth (t.node c).count vf.count
        (if shrunk then vf.width - 1 else vf.width) := by
  induction cfs generalizing x with
  | nil => cases hc
  | cons d ds ih =>
      rcases List.mem_cons.mp hc with rfl | hc
      · exact ⟨_, List.mem_cons_self .., ⟨rfl, rfl⟩, rfl⟩
      · obtain ⟨v, hv, h⟩ := ih _ hc
        exact ⟨v, List.mem_cons_of_mem _ hv, h⟩

theorem cf_rowFrames (shrunk : Bool) (x : Int) (cfs : List Nat) :
    (rowFrames t canvas vf shrunk x cfs).map (·.cf) = cfs.map some := by
  induction cfs generalizing x with
  | nil => rfl
  | cons c cs ih =>
      rw [rowFrames, List.map_cons, List.map_cons, ih]
      rfl

theorem count_rowFrames (shrunk : Bool) (x : Int) (cfs : List Nat) :
    (rowFrames t canvas vf shrunk x cfs).map (·.count) = cfs.map fun c => (t.node c).count := by
  induction cfs generalizing x with
  | nil => rfl
  | cons c cs ih =>
      rw [rowFrames, List.map_cons, List.map_cons, ih]
      rfl

theorem cf_childRow_perm (t : CallFrameTree) (canvas : Canvas) (vf : VisualFrame) (cf : Nat) :
    ((childRow t canvas vf cf).map (·.cf)).Perm ((t.frames cf).map some) := by
  unfold childRow
  rw [cf_rowFrames]
  exact (t.sortedFrames_perm cf).map some

theorem sum_count_childRow (t : CallFrameTree) (canvas : Canvas) (vf : VisualFrame) (cf : Nat) :
    ((childRow t canvas vf cf).map (·.count)).sum
      = ((t.frames cf).map fun c => (t.node c).count).sum := by
  unfold childRow
  rw [count_rowFrames]
  exact ((t.sortedFrames_perm cf).map _).sum_eq

/-- A row splits into the visible frames and the combined ones. -/
theorem visible_combined_perm (row : List VisualFrame) :
    (visible row ++ combined row).Perm row := by
  have hcombined : combined row = row.filter fun vf => !decide (vf.width > 0) := by
    unfold combined
    apply List.filter_congr
    intro v _
    exact decide_not
  unfold visible
  rw [hcombined]
  exact List.filter_append_perm _ _

/-- Siblings are different call frames. -/
theorem nodup_frames (t : CallFrameTree) (cf : Nat) : (t.frames cf).Nodup := by
  obtain ⟨path, hw⟩ := t.wired
  unfold CallFrameTree.frames CallFrameTree.node frameAt
  cases hcf : t.heap.cell cf with
  | none => exact List.nodup_nil
  | some n => exact (hw.distinct cf n hcf).of_map _

/-! ## The two passes -/

/-- **The two passes agree**: there is a '+' frame exactly when there is something to combine. -/
theorem hasCombined_iff (hweighted : t.Weighted) (hflag : canvas.withCombinedFrames = true)
    (hshows : vf.Shows t cf) (hw : 1 ≤ vf.width) :
    hasCombined t canvas vf cf = true ↔ combined (childRow t canvas vf cf) ≠ [] := by
  have hnonneg : ∀ w ∈ vfWidths t vf cf, 0 ≤ w := by
    intro w hmem
    obtain ⟨c, -, rfl⟩ := List.mem_map.mp hmem
    rw [hshows.2]
    exact calculateWidth_nonneg (hweighted c).1 (hweighted cf).1 (by omega)
  have hfirst : hasCombined t canvas vf cf = true ↔ 0 ∈ vfWidths t vf cf := by
    unfold hasCombined
    rw [hflag, Bool.true_and, decide_eq_true_eq, List.min?_eq_some_iff]
    exact ⟨fun h => h.1, fun h => ⟨h, hnonneg⟩⟩
  constructor
  · intro hcombined
    -- a child without a column of the full width has none of a smaller one
    obtain ⟨c, hc, hzero⟩ := List.mem_map.mp (hfirst.mp hcombined)
    obtain ⟨v, hv, -, hwidth⟩ := exists_rowFrame canvas vf (keepsColumn t canvas vf cf)
      (vf.x + vf.width) ((t.sortedFrames_perm cf).mem_iff.mpr hc)
    have hle : v.width ≤ 0 := by
      rw [hwidth, ← hzero, hshows.2]
      have hshared := (sharedWidth_bounds t canvas cf hw).2
      exact calculateWidth_mono (hweighted c).1 (hweighted cf).1 hshared
    apply List.ne_nil_of_mem (a := v)
    exact List.mem_filter.mpr ⟨hv, decide_eq_true (not_lt.mpr hle)⟩
  · intro hne
    -- if all have a column of the full width, it is the full width that is shared out
    by_contra hnot
    obtain ⟨v, hv⟩ := List.exists_mem_of_ne_nil _ hne
    obtain ⟨hmem, hwidth⟩ := List.mem_filter.mp hv
    have hle : v.width ≤ 0 := not_lt.mp (of_decide_eq_true hwidth)
    have hkeeps : keepsColumn t canvas vf cf = false := by
      unfold keepsColumn
      rw [eq_false_of_ne_true hnot, Bool.false_and]
    obtain ⟨c, hc, -, -, hshare⟩ := mem_rowFrames hmem
    rw [hkeeps] at hshare
    have hmemWidths : v.width ∈ vfWidths t vf cf := by
      rw [hshare]
      exact List.mem_map.mpr ⟨c, (t.sortedFrames_perm cf).mem_iff.mp hc, rfl⟩
    apply hnot
    rw [hfirst]
    have hzero : v.width = 0 := le_antisymm hle (hnonneg _ hmemWidths)
    exact hzero ▸ hmemWidths

/-! ## Accounts -/

/-- The call frames that have a visible frame among the children. -/
def shownCfs (cs : List (Rose VisualFrameNode)) : List (Option Nat) :=
  (cs.filter (·.label.cf.isSome)).map (·.label.cf)

/-- The '+' frames among the children. -/
def plusFrames (cs : List (Rose VisualFrameNode)) : List (Rose VisualFrameNode) :=
  cs.filter (·.label.cf.isNone)

/-- The call frames of the members of the '+' frames. -/
def hiddenCfs (cs : List (Rose VisualFrameNode)) : List (Option Nat) :=
  (plusFrames cs).flatMap fun c => c.label.combinedFrames.map (·.cf)

/-- The children `cs` of a frame account for the children of its call frame `cf`. -/
structure Accounted (t : CallFrameTree) (cf : Nat) (cs : List (Rose VisualFrameNode)) : Prop where
  /-- Every child of `cf` is shown or hidden, and that once: they are all different. -/
  once : (shownCfs cs ++ hiddenCfs cs).Perm ((t.frames cf).map some) ∧ (t.frames cf).Nodup
  plus_unique : (plusFrames cs).length ≤ 1
  plus_iff : (∃ c, c ∈ plusFrames cs) ↔ ∃ f ∈ t.frames cf, some f ∉ shownCfs cs
  plus_count : ∀ c ∈ plusFrames cs,
    c.label.count = (c.label.combinedFrames.map (·.count)).sum
  total : (cs.map (·.label.count)).sum = ((t.frames cf).map fun f => (t.node f).count).sum

/-- The frames `vs`, expanded, and the '+' frames `ps` are told apart. -/
theorem accounts_append (t : CallFrameTree) (canvas : Canvas) {vs : List VisualFrame}
    (hvs : ∀ v ∈ vs, v.cf.isSome = true) (ps : List (Rose VisualFrameNode))
    (hps : ∀ p ∈ ps, p.label.cf = none) :
    shownCfs (vs.map (expand t canvas) ++ ps) = vs.map (·.cf) ∧
      plusFrames (vs.map (expand t canvas) ++ ps) = ps := by
  have hshown : ∀ c ∈ vs.map (expand t canvas), c.label.cf.isSome = true := by
    intro c hc
    obtain ⟨v, hv, rfl⟩ := List.mem_map.mp hc
    exact hvs v hv
  constructor
  · unfold shownCfs
    rw [List.filter_append, List.filter_eq_self.mpr hshown,
      List.filter_eq_nil_iff.mpr fun p hp => by rw [hps p hp]; simp, List.append_nil, List.map_map]
    rfl
  · unfold plusFrames
    rw [List.filter_append, List.filter_eq_nil_iff.mpr, List.nil_append, List.filter_eq_self.mpr]
    · intro p hp
      rw [hps p hp]
      rfl
    · intro c hc
      rw [Option.isNone_iff_eq_none]
      exact Option.isSome_iff_ne_none.mp (hshown c hc)

/-- A row that has a frame for every child of `cf`. -/
structure RowOf (t : CallFrameTree) (cf : Nat) (row : List VisualFrame) : Prop where
  cfs : (row.map (·.cf)).Perm ((t.frames cf).map some)
  counts : (row.map (·.count)).sum = ((t.frames cf).map fun c => (t.node c).count).sum

theorem rowOf_childRow (t : CallFrameTree) (canvas : Canvas) (vf : VisualFrame) (cf : Nat) :
    RowOf t cf (childRow t canvas vf cf) where
  cfs := cf_childRow_perm t canvas vf cf
  counts := sum_count_childRow t canvas vf cf

namespace RowOf

variable {row : List VisualFrame}

theorem cfs_split (hrow : RowOf t cf row) :
    ((visible row).map (·.cf) ++ (combined row).map (·.cf)).Perm ((t.frames cf).map some) := by
  rw [← List.map_append]
  exact ((visible_combined_perm row).map _).trans hrow.cfs

theorem counts_split (hrow : RowOf t cf row) :
    ((visible row).map (·.count)).sum + ((combined row).map (·.count)).sum
      = ((t.frames cf).map fun c => (t.node c).count).sum := by
  rw [← List.sum_append, ← List.map_append, ((visible_combined_perm row).map _).sum_eq,
    hrow.counts]

/-- Visible frames show call frames. -/
theorem visible_isSome (hrow : RowOf t cf row) : ∀ v ∈ visible row, v.cf.isSome = true := by
  intro v hv
  have hmem : v.cf ∈ (visible row).map (·.cf) ++ (combined row).map (·.cf) :=
    List.mem_append_left _ (List.mem_map_of_mem hv)
  obtain ⟨f, -, hf⟩ := List.mem_map.mp (hrow.cfs_split.mem_iff.mp hmem)
  rw [← hf]
  rfl

/-- There is something to combine exactly when a child has no visible frame. -/
theorem combined_ne_nil_iff (hrow : RowOf t cf row) :
    combined row ≠ [] ↔ ∃ f ∈ t.frames cf, some f ∉ (visible row).map (·.cf) := by
  have hperm := hrow.cfs_split
  constructor
  · intro hne
    obtain ⟨v, hv⟩ := List.exists_mem_of_ne_nil _ hne
    have hvcf := List.mem_map_of_mem (f := (·.cf)) hv
    obtain ⟨f, hf, hfv⟩ := List.mem_map.mp (hperm.mem_iff.mp (List.mem_append_right _ hvcf))
    -- siblings are different, so `f` is not visible as well
    have hdistinct := hperm.nodup_iff.mpr ((nodup_frames t cf).map (Option.some_injective _))
    rw [List.nodup_append] at hdistinct
    exact ⟨f, hf, fun hshown => hdistinct.2.2 _ hshown _ hvcf hfv⟩
  · rintro ⟨f, hf, hnot⟩ hnil
    rw [hnil, List.map_nil, List.append_nil] at hperm
    exact hnot (hperm.mem_iff.mpr (List.mem_map_of_mem hf))

theorem sum_count_expand (t : CallFrameTree) (canvas : Canvas) (vs : List VisualFrame) :
    ((vs.map (expand t canvas)).map (·.label.count)).sum = (vs.map (·.count)).sum := by
  rw [List.map_map]
  rfl

/-- A row with something to combine, and its '+' frame. -/
theorem accounted_plus (hrow : RowOf t cf row) (hne : combined row ≠ []) (canvas : Canvas)
    (x y : Int) :
    Accounted t cf ((visible row).map (expand t canvas) ++
      [.node (plusVf x y (combined row)) []]) := by
  obtain ⟨hshown, hplus⟩ := accounts_append t canvas hrow.visible_isSome
    [.node (plusVf x y (combined row)) []] (by simp [plusVf])
  have hhidden : hiddenCfs ((visible row).map (expand t canvas) ++
      [.node (plusVf x y (combined row)) []]) = (combined row).map (·.cf) := by
    unfold hiddenCfs
    rw [hplus, List.flatMap_singleton]
    rfl
  constructor
  · rw [hshown, hhidden]
    exact ⟨hrow.cfs_split, nodup_frames t cf⟩
  · rw [hplus]
    exact le_rfl
  · rw [hplus, hshown, ← hrow.combined_ne_nil_iff]
    exact iff_of_true ⟨_, List.mem_singleton_self _⟩ hne
  · intro c hc
    rw [hplus] at hc
    rw [List.mem_singleton.mp hc]
    rfl
  · rw [List.map_append, List.sum_append, sum_count_expand, ← hrow.counts_split]
    simp [plusVf]

/-- A row with nothing to combine. -/
theorem accounted_visible (hrow : RowOf t cf row) (hnil : combined row = []) (canvas : Canvas) :
    Accounted t cf ((visible row).map (expand t canvas)) := by
  obtain ⟨hshown, hplus⟩ := accounts_append t canvas hrow.visible_isSome [] (by simp)
  rw [List.append_nil] at hshown hplus
  have hhidden : hiddenCfs ((visible row).map (expand t canvas)) = [] := by
    unfold hiddenCfs
    rw [hplus, List.flatMap_nil]
  have hcfs := hrow.cfs_split
  rw [hnil, List.map_nil, List.append_nil] at hcfs
  constructor
  · rw [hshown, hhidden, List.append_nil]
    exact ⟨hcfs, nodup_frames t cf⟩
  · rw [hplus]
    exact Nat.zero_le 1
  · rw [hplus, hshown, ← hrow.combined_ne_nil_iff]
    exact iff_of_false (by simp) (not_not.mpr hnil)
  · intro c hc
    rw [hplus] at hc
    cases hc
  · rw [sum_count_expand, ← hrow.counts_split, hnil]
    simp

end RowOf

/-- A call frame without children has nothing to account for. -/
theorem accounted_nil (hne : t.frames cf = []) : Accounted t cf [] := by
  constructor
  · rw [hne]
    exact ⟨List.Perm.nil, List.nodup_nil⟩
  · exact Nat.zero_le 1
  · rw [hne]
    simp [plusFrames]
  · exact fun c hc => absurd hc List.not_mem_nil
  · rw [hne]
    rfl

/-- **The children of an expanded frame are accounted for.** -/
theorem accounted_createVfChildren (hweighted : t.Weighted)
    (hflag : canvas.withCombinedFrames = true) (hshows : vf.Shows t cf) (hw : 1 ≤ vf.width) :
    Accounted t cf (createVfChildren t canvas vf cf) := by
  by_cases hne : t.frames cf = []
  · rw [createVfChildren, if_pos hne]
    exact accounted_nil hne
  have hrow := rowOf_childRow t canvas vf cf
  have hiff := hasCombined_iff hweighted hflag hshows hw
  rw [createVfChildren_eq t canvas vf cf hne]
  by_cases hcombined : hasCombined t canvas vf cf = true
  · rw [if_pos hcombined]
    exact hrow.accounted_plus (hiff.mp hcombined) canvas _ _
  · rw [if_neg hcombined, List.append_nil]
    exact hrow.accounted_visible (not_not.mp fun h => hcombined (hiff.mpr h)) canvas

/-! ## The picture -/

/-- The children of a frame account for the children of the call frame it shows. -/
def AccountedAt (t : CallFrameTree) (label : VisualFrameNode) (cs : List (Rose VisualFrameNode)) :
    Prop :=
  ∀ cf, label.cf = some cf → Accounted t cf cs

theorem accounted_expand (hweighted : t.Weighted) (hflag : canvas.withCombinedFrames = true)
    (hshows : vf.Shows t cf) (hw : 1 ≤ vf.width) :
    (expand t canvas vf).Everywhere (AccountedAt t) := by
  refine expand_induction canvas
    (motive := fun vf => 1 ≤ vf.width → (expand t canvas vf).Everywhere (AccountedAt t)) ?_ cf vf
    hshows hw
  intro vf cf hshows ih hw
  have hat := accounted_createVfChildren hweighted hflag hshows hw
  unfold expand
  rw [hshows.1]
  refine (Rose.everywhere_node _ _).mpr ⟨?_, ?_⟩
  · intro f hf
    have hfcf : f = cf := Option.some_inj.mp (hf.symm.trans hshows.1)
    exact hfcf ▸ hat
  · intro c hc
    rcases mem_createVfChildren hc with ⟨v, hv, rfl⟩ | ⟨x, rfl⟩
    · obtain ⟨hmem, hpos⟩ := List.mem_filter.mp hv
      obtain ⟨f, hf, hshowsf, -⟩ := mem_childRow hmem
      exact ih v hv f hf hshowsf (of_decide_eq_true hpos)
    · refine (Rose.everywhere_node _ _).mpr ⟨?_, fun c hc => absurd hc List.not_mem_nil⟩
      intro f hf
      cases hf

/-- The last of the zoomed frames is the expanded one. -/
theorem subtree?_zoomTree {chain : List VisualFrame} (hshows : vf.Shows t cf)
    (hwidth : vf.width = canvas.width) {y : Int} (hchain : Stacked t y chain)
    (hplace : ∀ v ∈ chain, v.x = canvas.x ∧ v.width = canvas.width) :
    ∃ last f, (zoomTree t canvas vf chain).subtree? (List.replicate chain.length 0)
      = some (expand t canvas last) ∧ last.Shows t f ∧ last.width = canvas.width := by
  induction chain generalizing vf cf y with
  | nil => exact ⟨vf, cf, rfl, hshows, hwidth⟩
  | cons v vs ih =>
      obtain ⟨-, ⟨f, hf⟩, hvs⟩ := hchain
      exact ih hf (hplace v (List.mem_cons_self ..)).2 hvs
        fun w hw => hplace w (List.mem_cons_of_mem v hw)

/-- **No frame and no sample is lost.** For stacks with non-negative counts, a canvas of at least one
column and with combined frames, and any frame to zoom into: the zoomed frame and all frames below
it that show a call frame account for the children of that call frame. -/
theorem rebuildTree_lossless {samples : List (List Str × Int)}
    (hnonneg : ∀ s ∈ samples, 0 ≤ s.2) (canvas : Canvas)
    (hw : 1 ≤ canvas.width) (hflag : canvas.withCombinedFrames = true)
    {startVf : Option (List VisualFrame)} (hstart : StartVf (.ofSamples samples) startVf) :
    ∃ tree start, rebuildTree (.ofSamples samples) canvas startVf = some tree ∧
      tree.subtree? (startAddress startVf) = some start ∧ start.label.cf.isSome = true ∧
      ∀ p v cf, start.subtree? p = some v → v.label.cf = some cf →
        Accounted (.ofSamples samples) cf v.children := by
  have hweighted := ofSamples_weighted_of_nonneg hnonneg
  obtain ⟨chain, hrun, hchain, hlen, hplace⟩ := rebuildTree_eq canvas hstart
  have hshows := headVf_shows (.ofSamples samples) canvas
  obtain ⟨last, f, hlast, hlastShows, hwidth⟩ := subtree?_zoomTree hshows rfl hchain hplace
  unfold startAddress
  rw [← hlen]
  refine ⟨_, expand (.ofSamples samples) canvas last, hrun, hlast, ?_, ?_⟩
  · exact Option.isSome_iff_exists.mpr ⟨f, hlastShows.1⟩
  · intro p v cf hv hcf
    exact accounted_expand hweighted hflag hlastShows (hwidth ▸ hw) p v hv cf hcf

theorem rebuildTree_lossless_threeColumns :
    ∃ tree start, rebuildTree (.ofSamples threeStacks) threeColumns none = some tree ∧
      tree.subtree? [] = some start ∧ start.label.cf.isSome = true ∧
      ∀ p v cf, start.subtree? p = some v → v.label.cf = some cf →
        Accounted (.ofSamples threeStacks) cf v.children :=
  rebuildTree_lossless (by decide) threeColumns (by decide) rfl .head

end LdbToolchain.Tfg
