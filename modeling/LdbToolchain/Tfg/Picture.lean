import LdbToolchain.Tfg.Aggregate
import LdbToolchain.Tfg.Rebuild

/-!
# The picture depends on the profile only

Two lists of samples with the same stacks and the same total for each stack give two call trees that
differ in the order of siblings, and so in every address. Nodes at the same path mirror each other:
they have the same name and the same count, and their children, sorted by name, mirror each other one
by one. From there on the two runs of `_create_vf_children` do the same, up to the addresses, which
the picture leaves out.
-/

namespace LdbToolchain.Tfg

/-! ## Lists in step -/

theorem map_eq_of_forall₂ {α β γ : Type} {R : α → β → Prop} {f : α → γ} {g : β → γ} {l : List α}
    {m : List β} (h : List.Forall₂ R l m) (heq : ∀ a ∈ l, ∀ b ∈ m, R a b → f a = g b) :
    l.map f = m.map g := by
  induction h with
  | nil => rfl
  | cons hab _ ih =>
      rw [List.map_cons, List.map_cons, heq _ (List.mem_cons_self ..) _ (List.mem_cons_self ..) hab,
        ih fun a ha b hb => heq a (List.mem_cons_of_mem _ ha) b (List.mem_cons_of_mem _ hb)]

theorem forall₂_of_map_eq {α β γ : Type} {f : α → γ} {g : β → γ} {l : List α} {m : List β}
    (h : l.map f = m.map g) :
    List.Forall₂ (fun a b => a ∈ l ∧ b ∈ m ∧ f a = g b) l m := by
  have heq : List.Forall₂ (fun a b => f a = g b) l m := by
    rw [← List.forall₂_map_left_iff (R := fun c b => c = g b),
      ← List.forall₂_map_right_iff (R := fun c d => c = d), h, List.forall₂_eq_eq_eq]
  -- membership is added on the left, and by symmetry on the right
  have hleft := (List.forall₂_and_left (p := (· ∈ l)) l m).mpr ⟨fun _ h => h, heq⟩
  have hright := (List.forall₂_and_left (p := (· ∈ m)) m l).mpr ⟨fun _ h => h, hleft.flip⟩
  exact hright.flip.imp fun a b hab => ⟨hab.2.1, hab.1, hab.2.2⟩

/-- Sorting by name, names being in reverse order. -/
def namesDown (l : List Str) : List Str := l.mergeSort fun x y => y ≤ x

/-- Two lists of the same names are sorted to the same list. -/
theorem namesDown_eq_of_perm {l m : List Str} (h : l.Perm m) : namesDown l = namesDown m := by
  have hsorted : ∀ l : List Str, (namesDown l).Pairwise fun x y => y ≤ x := by
    intro l
    have hpair : (namesDown l).Pairwise fun x y => decide (y ≤ x) = true :=
      List.pairwise_mergeSort
        (fun x y z hxy hyz => decide_eq_true
          ((of_decide_eq_true hyz).trans (of_decide_eq_true hxy)))
        (fun x y => by simpa [or_comm] using le_total x y) l
    exact hpair.imp fun hxy => of_decide_eq_true hxy
  have hperm : (namesDown l).Perm (namesDown m) :=
    (List.mergeSort_perm l _).trans (h.trans (List.mergeSort_perm m _).symm)
  exact hperm.eq_of_pairwise (fun x y _ _ hxy hyx => le_antisymm hyx hxy) (hsorted l) (hsorted m)

/-! ## Mirrored nodes -/

/-- The same stacks, and the same total for each. -/
structure SameProfile (samples samples' : List (List Str × Int)) : Prop where
  keys : ∀ s, s ∈ samples.map Prod.fst ↔ s ∈ samples'.map Prod.fst
  totals : ∀ s, tally (· = s) samples = tally (· = s) samples'

/-- The nodes `a` and `b` of two call trees are at the same path. -/
structure Mirror (t t' : CallFrameTree) (path path' : Nat → List Str) (a b : Nat) : Prop where
  left : ∃ n, t.heap.cell a = some n
  right : ∃ n, t'.heap.cell b = some n
  path : path a = path' b

section Mirror

variable {samples samples' : List (List Str × Int)} {t t' : CallFrameTree}
  {path path' : Nat → List Str} {a b : Nat}

theorem node_of_cell {n : CallFrameNode} (ha : t.heap.cell a = some n) : t.node a = n :=
  frameAt_of_cell ha

theorem mirror_head (hw : Wired t.heap path) (hw' : Wired t'.heap path') :
    Mirror t t' path path' t.head t'.head where
  left := by
    obtain ⟨n, hn, -⟩ := hw.root
    exact ⟨n, hn⟩
  right := by
    obtain ⟨n, hn, -⟩ := hw'.root
    exact ⟨n, hn⟩
  path := hw.path_root.trans hw'.path_root.symm

theorem Mirror.count (hm : Mirror t t' path path' a b) (hsame : SameProfile samples samples')
    (hp : Profile samples t.heap path) (hp' : Profile samples' t'.heap path') :
    (t.node a).count = (t'.node b).count := by
  obtain ⟨n, hn⟩ := hm.left
  obtain ⟨n', hn'⟩ := hm.right
  rw [node_of_cell hn, node_of_cell hn', hp.count a n hn, hp'.count b n' hn', hm.path]
  exact tally_eq_of_same hsame.keys hsame.totals

/-- The name of a node is the last of its path, or that of the head. -/
theorem Wired.name_eq (hw : Wired t.heap path) {n : CallFrameNode} (ha : t.heap.cell a = some n) :
    n.name = ((path a).getLast?).getD allName := by
  by_cases h0 : a = 0
  · obtain ⟨k, hk, hname, -⟩ := hw.root
    subst h0
    rw [ha] at hk
    cases hk
    rw [hw.path_root, hname]
    rfl
  · obtain ⟨c, k, hc, hmem⟩ := hw.hangs a n ha h0
    obtain ⟨m, hm, -, -, hpath⟩ := hw.kid c k a hc hmem
    rw [ha] at hm
    cases hm
    rw [hpath, List.getLast?_concat, Option.getD_some]

theorem Mirror.name (hm : Mirror t t' path path' a b) (hw : Wired t.heap path)
    (hw' : Wired t'.heap path') : (t.node a).name = (t'.node b).name := by
  obtain ⟨n, hn⟩ := hm.left
  obtain ⟨n', hn'⟩ := hm.right
  rw [node_of_cell hn, node_of_cell hn', hw.name_eq hn, hw'.name_eq hn', hm.path]

/-- The names of the sorted children. -/
theorem names_sortedFrames (t : CallFrameTree) (a : Nat) :
    (t.sortedFrames a).map (fun f => (t.node f).name)
      = namesDown ((t.frames a).map fun f => (t.node f).name) :=
  List.map_mergeSort fun _ _ _ _ => rfl

/-- **The children of mirrored nodes mirror each other**, once they are sorted. -/
theorem Mirror.sortedFrames (hm : Mirror t t' path path' a b)
    (hsame : SameProfile samples samples') (hp : Profile samples t.heap path)
    (hp' : Profile samples' t'.heap path') :
    List.Forall₂ (Mirror t t' path path') (t.sortedFrames a) (t'.sortedFrames b) := by
  obtain ⟨n, hn⟩ := hm.left
  obtain ⟨n', hn'⟩ := hm.right
  have hframes := frames_of_cell hn
  have hframes' := frames_of_cell hn'
  have hgoes : ∀ samples samples' : List (List Str × Int),
      (∀ s, s ∈ samples.map Prod.fst ↔ s ∈ samples'.map Prod.fst) → ∀ p : List Str,
      (∃ s ∈ samples, p <+: s.1) → ∃ s ∈ samples', p <+: s.1 := by
    rintro samples samples' hkeys p ⟨s, hs, hpre⟩
    obtain ⟨s', hs', heq⟩ := List.mem_map.mp ((hkeys s.1).mp (List.mem_map_of_mem hs))
    exact ⟨s', hs', heq ▸ hpre⟩
  -- the same names go on from both
  have hperm : ((t.frames a).map fun f => (t.node f).name).Perm
      ((t'.frames b).map fun f => (t'.node f).name) := by
    rw [hframes, hframes']
    apply (List.perm_ext_iff_of_nodup (hp.wired.distinct a n hn) (hp'.wired.distinct b n' hn')).mpr
    intro name
    rw [List.mem_map, List.mem_map, hp.child_iff hn, hp'.child_iff hn', hm.path]
    exact ⟨hgoes _ _ hsame.keys _, hgoes _ _ (fun s => (hsame.keys s).symm) _⟩
  have hnames : (t.sortedFrames a).map (fun f => (t.node f).name)
      = (t'.sortedFrames b).map fun f => (t'.node f).name := by
    rw [names_sortedFrames, names_sortedFrames]
    exact namesDown_eq_of_perm hperm
  refine (forall₂_of_map_eq hnames).imp ?_
  rintro f g ⟨hf, hg, hname⟩
  have hf' : f ∈ n.frames := hframes ▸ (t.sortedFrames_perm a).mem_iff.mp hf
  have hg' : g ∈ n'.frames := hframes' ▸ (t'.sortedFrames_perm b).mem_iff.mp hg
  obtain ⟨k, hk, -, -, hpath⟩ := hp.wired.kid a n f hn hf'
  obtain ⟨k', hk', -, -, hpath'⟩ := hp'.wired.kid b n' g hn' hg'
  rw [node_of_cell hk, node_of_cell hk'] at hname
  exact ⟨⟨k, hk⟩, ⟨k', hk'⟩, by rw [hpath, hpath', hm.path, hname]⟩

end Mirror

/-! ## Pictures -/

/-- What is seen of a frame, and the full name behind it. -/
structure FramePicture where
  (x y count width : Int)
  text : Str
  zoomed : Bool
  name : Option Str

structure NodePicture extends FramePicture where
  combinedFrames : List FramePicture

def framePicture (t : CallFrameTree) (v : VisualFrame) : FramePicture where
  x := v.x
  y := v.y
  count := v.count
  width := v.width
  text := v.text
  zoomed := v.zoomed
  name := v.cf.map fun cf => (t.node cf).name

def nodePicture (t : CallFrameTree) (v : VisualFrameNode) : NodePicture :=
  { framePicture t v.toVisualFrame with
    combinedFrames := v.combinedFrames.map (framePicture t) }

/-- Frames of two trees that look the same and show mirrored call frames. -/
structure Alike (t t' : CallFrameTree) (path path' : Nat → List Str) (v w : VisualFrame) : Prop where
  picture : framePicture t v = framePicture t' w
  mirror : ∃ a b, v.Shows t a ∧ w.Shows t' b ∧ Mirror t t' path path' a b

section Alike

variable {samples samples' : List (List Str × Int)} {t t' : CallFrameTree}
  {path path' : Nat → List Str} {a b : Nat} {vf vf' : VisualFrame}

theorem Alike.fields (h : Alike t t' path path' vf vf') :
    vf.x = vf'.x ∧ vf.y = vf'.y ∧ vf.count = vf'.count ∧ vf.width = vf'.width :=
  ⟨congrArg (·.x) h.picture, congrArg (·.y) h.picture, congrArg (·.count) h.picture,
    congrArg (·.width) h.picture⟩

variable (canvas : Canvas)

/-- Mirrored call frames get frames that look the same. -/
theorem alike_createVf (hsame : SameProfile samples samples') (hp : Profile samples t.heap path)
    (hp' : Profile samples' t'.heap path') (hvf : Alike t t' path path' vf vf')
    (hm : Mirror t t' path path' a b) (x y : Int) (shrunk : Bool) :
    Alike t t' path path' (createVf t canvas x y vf a shrunk)
      (createVf t' canvas x y vf' b shrunk) := by
  obtain ⟨-, -, hcount, hwidth⟩ := hvf.fields
  refine ⟨?_, a, b, ⟨rfl, rfl⟩, ⟨rfl, rfl⟩, hm⟩
  unfold createVf framePicture
  simp only [Option.map_some, hm.count hsame hp hp', hm.name hp.wired hp'.wired, hcount, hwidth]

theorem alike_rowFrames (hsame : SameProfile samples samples') (hp : Profile samples t.heap path)
    (hp' : Profile samples' t'.heap path') (hvf : Alike t t' path path' vf vf') (shrunk : Bool)
    (x : Int) {cs ds : List Nat} (hcs : List.Forall₂ (Mirror t t' path path') cs ds) :
    List.Forall₂ (Alike t t' path path') (rowFrames t canvas vf shrunk x cs)
      (rowFrames t' canvas vf' shrunk x ds) := by
  induction hcs generalizing x with
  | nil => exact List.Forall₂.nil
  | cons hm _ ih =>
      obtain ⟨-, hy, -, -⟩ := hvf.fields
      have hfirst := alike_createVf canvas hsame hp hp' hvf hm x (vf.y + 1) shrunk
      obtain ⟨-, -, -, hwidth⟩ := hfirst.fields
      rw [rowFrames, rowFrames, ← hy]
      refine List.Forall₂.cons hfirst ?_
      rw [hwidth]
      exact ih _

/-- The first pass finds the same widths, in another order. -/
theorem vfWidths_perm (hsame : SameProfile samples samples') (hp : Profile samples t.heap path)
    (hp' : Profile samples' t'.heap path') (hvf : Alike t t' path path' vf vf')
    (hm : Mirror t t' path path' a b) : (vfWidths t vf a).Perm (vfWidths t' vf' b) := by
  obtain ⟨-, -, hcount, hwidth⟩ := hvf.fields
  have hsorted : (t.sortedFrames a).map
        (fun c => calculateWidth (t.node c).count vf.count vf.width)
      = (t'.sortedFrames b).map fun c => calculateWidth (t'.node c).count vf'.count vf'.width := by
    apply map_eq_of_forall₂ (hm.sortedFrames hsame hp hp')
    intro c _ d _ hcd
    rw [hcd.count hsame hp hp', hcount, hwidth]
  have hleft := (t.sortedFrames_perm a).map
    fun c => calculateWidth (t.node c).count vf.count vf.width
  have hright := (t'.sortedFrames_perm b).map
    fun c => calculateWidth (t'.node c).count vf'.count vf'.width
  rw [hsorted] at hleft
  exact hleft.symm.trans hright

theorem hasCombined_eq (hsame : SameProfile samples samples') (hp : Profile samples t.heap path)
    (hp' : Profile samples' t'.heap path') (hvf : Alike t t' path path' vf vf')
    (hm : Mirror t t' path path' a b) :
    hasCombined t canvas vf a = hasCombined t' canvas vf' b ∧
      keepsColumn t canvas vf a = keepsColumn t' canvas vf' b := by
  have hperm := vfWidths_perm hsame hp hp' hvf hm
  obtain ⟨-, -, -, hwidth⟩ := hvf.fields
  have hmin : (vfWidths t vf a).min? = some 0 ↔ (vfWidths t' vf' b).min? = some 0 := by
    rw [List.min?_eq_some_iff, List.min?_eq_some_iff]
    simp only [hperm.mem_iff]
  have hcombined : hasCombined t canvas vf a = hasCombined t' canvas vf' b := by
    unfold hasCombined
    simp only [hmin]
  refine ⟨hcombined, ?_⟩
  unfold keepsColumn
  rw [hcombined, hperm.sum_eq, hwidth]

theorem alike_childRow (hsame : SameProfile samples samples') (hp : Profile samples t.heap path)
    (hp' : Profile samples' t'.heap path') (hvf : Alike t t' path path' vf vf')
    (hm : Mirror t t' path path' a b) :
    List.Forall₂ (Alike t t' path path') (childRow t canvas vf a) (childRow t' canvas vf' b) := by
  obtain ⟨hx, -, -, hwidth⟩ := hvf.fields
  unfold childRow
  rw [(hasCombined_eq canvas hsame hp hp' hvf hm).2, hx, hwidth]
  exact alike_rowFrames canvas hsame hp hp' hvf _ _ (hm.sortedFrames hsame hp hp')

/-- What two rows that look the same have in common. -/
theorem alike_visible {row row' : List VisualFrame}
    (hrow : List.Forall₂ (Alike t t' path path') row row') :
    List.Forall₂ (Alike t t' path path') (visible row) (visible row') ∧
      List.Forall₂ (Alike t t' path path') (combined row) (combined row') := by
  constructor
  · refine List.rel_filter ?_ hrow
    intro v w hvw
    show decide (v.width > 0) = true ↔ decide (w.width > 0) = true
    rw [hvw.fields.2.2.2]
  · refine List.rel_filter ?_ hrow
    intro v w hvw
    show decide (¬ v.width > 0) = true ↔ decide (¬ w.width > 0) = true
    rw [hvw.fields.2.2.2]

theorem plus_picture_eq {row row' : List VisualFrame}
    (hrow : List.Forall₂ (Alike t t' path path') row row') (x y : Int) :
    nodePicture t (plusVf (rowEnd x row) y (combined row))
      = nodePicture t' (plusVf (rowEnd x row') y (combined row')) := by
  have hwidths : row.map (·.width) = row'.map (·.width) :=
    map_eq_of_forall₂ hrow fun v _ w _ h => h.fields.2.2.2
  have hcounts : (combined row).map (·.count) = (combined row').map (·.count) :=
    map_eq_of_forall₂ (alike_visible hrow).2 fun v _ w _ h => h.fields.2.2.1
  have hpictures : (combined row).map (framePicture t) = (combined row').map (framePicture t') :=
    map_eq_of_forall₂ (alike_visible hrow).2 fun v _ w _ h => h.picture
  unfold nodePicture plusVf rowEnd framePicture at *
  simp only [hwidths, hcounts, hpictures, Option.map_none]

/-- **Frames that look the same have the same picture below them.** -/
theorem expand_picture_eq (hsame : SameProfile samples samples')
    (hp : Profile samples t.heap path) (hp' : Profile samples' t'.heap path')
    (hvf : Alike t t' path path' vf vf') :
    (expand t canvas vf).map (nodePicture t) = (expand t' canvas vf').map (nodePicture t') := by
  obtain ⟨a, b, hshows, -, -⟩ := hvf.mirror
  refine expand_induction canvas (motive := fun vf => ∀ vf', Alike t t' path path' vf vf' →
    (expand t canvas vf).map (nodePicture t) = (expand t' canvas vf').map (nodePicture t'))
    ?_ a vf hshows vf' hvf
  intro vf cf hshows ih vf' hvf
  obtain ⟨a, b, hshowsA, hshowsB, hm⟩ := hvf.mirror
  have hcf : cf = a := Option.some_inj.mp (hshows.1.symm.trans hshowsA.1)
  subst hcf
  have hself : nodePicture t vf.single = nodePicture t' vf'.single := by
    unfold nodePicture VisualFrame.single
    simp only [hvf.picture, List.map_nil]
  unfold expand
  rw [hshowsA.1, hshowsB.1, Rose.map_node, Rose.map_node, hself]
  congr 1
  show (createVfChildren t canvas vf cf).map _ = (createVfChildren t' canvas vf' b).map _
  -- both have children, or none has
  have hempty : t.frames cf = [] ↔ t'.frames b = [] := by
    rw [← List.length_eq_zero_iff, ← List.length_eq_zero_iff,
      ← (t.sortedFrames_perm cf).length_eq, ← (t'.sortedFrames_perm b).length_eq,
      (hm.sortedFrames hsame hp hp').length_eq]
  by_cases hne : t.frames cf = []
  · rw [createVfChildren, createVfChildren, if_pos hne, if_pos (hempty.mp hne)]
    rfl
  · obtain ⟨hx, hy, -, hwidth⟩ := hvf.fields
    have hrow := alike_childRow canvas hsame hp hp' hvf hm
    have hvisible : ((visible (childRow t canvas vf cf)).map (expand t canvas)).map
          (Rose.map (nodePicture t))
        = ((visible (childRow t' canvas vf' b)).map (expand t' canvas)).map
          (Rose.map (nodePicture t')) := by
      rw [List.map_map, List.map_map]
      apply map_eq_of_forall₂ (alike_visible hrow).1
      intro v hv w _ hvw
      obtain ⟨c, hc, hcv, -⟩ := mem_childRow (List.mem_filter.mp hv).1
      exact ih v hv c hc hcv w hvw
    have hplus := plus_picture_eq hrow (vf.x + vf.width) (vf.y + 1)
    rw [createVfChildren_eq t canvas vf cf hne,
      createVfChildren_eq t' canvas vf' b fun h => hne (hempty.mpr h),
      List.map_append, List.map_append, hvisible,
      (hasCombined_eq canvas hsame hp hp' hvf hm).1]
    congr 1
    split
    · rw [List.map_singleton, List.map_singleton, Rose.map_node, Rose.map_node, hplus, hx, hy,
        hwidth]
      rfl
    · rfl

end Alike

/-- **The picture depends only on the aggregated profile.** Call trees of samples with the same
stacks and the same total for each stack are drawn the same on every canvas. -/
theorem rebuildTree_picture_eq {samples samples' : List (List Str × Int)}
    (hsame : SameProfile samples samples') (canvas : Canvas) :
    ∃ tree tree', rebuildTree (.ofSamples samples) canvas none = some tree ∧
      rebuildTree (.ofSamples samples') canvas none = some tree' ∧
      tree.map (nodePicture (.ofSamples samples)) = tree'.map (nodePicture (.ofSamples samples')) := by
  obtain ⟨path, hp⟩ := ofSamples_profile samples
  obtain ⟨path', hp'⟩ := ofSamples_profile samples'
  have hm := mirror_head hp.wired hp'.wired
  refine ⟨_, _, rfl, rfl, expand_picture_eq canvas hsame hp hp' ⟨?_, _, _, headVf_shows _ canvas,
    headVf_shows _ canvas, hm⟩⟩
  unfold headVf framePicture
  simp only [Option.map_some, hm.count hsame hp hp', hm.name hp.wired hp'.wired]

/-- The same stacks in another order, and one sample counted in two steps. -/
def splitStacks : List (List Str × Int) := [([['b']], 1), ([['a']], 1), ([['a']], 2)]

theorem rebuildTree_picture_eq_split :
    ∃ tree tree', rebuildTree (.ofSamples [([['a']], 3), ([['b']], 1)]) ⟨0, 10, [' '], true⟩ none
        = some tree ∧
      rebuildTree (.ofSamples splitStacks) ⟨0, 10, [' '], true⟩ none = some tree' ∧
      tree.map (nodePicture (.ofSamples [([['a']], 3), ([['b']], 1)]))
        = tree'.map (nodePicture (.ofSamples splitStacks)) := by
  refine rebuildTree_picture_eq ⟨?_, ?_⟩ _
  · intro s
    simp [splitStacks, or_comm]
  · intro s
    by_cases ha : s = [['a']]
    · subst ha
      decide
    · by_cases hb : s = [['b']]
      · subst hb
        decide
      · simp [splitStacks, tally, Ne.symm ha, Ne.symm hb]

end LdbToolchain.Tfg
