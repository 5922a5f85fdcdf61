import LdbToolchain.Tfg.Rebuild

/-!
# The call frames above a visual frame

Zooming reads the frames above the one to zoom into, and these belong to an earlier tree. In every
visual tree the call frame of a frame is a child of the call frame of its parent, `LinealAt`, so the
frames above show the ancestors of the call frame, and a call frame has one line of ancestors only
(`lineage_inj`). What `rebuild_tree` builds is therefore decided by the call frame to zoom into:
`rebuildTree_zoom` names the tree, `zoomedTree`.
-/

namespace LdbToolchain.Tfg

variable {t : CallFrameTree} {canvas : Canvas} {vf : VisualFrame}

/-! ## Lines of call frames -/

namespace CallFrameTree

/-- Each call frame is a child of the one before, the first one of `a`. -/
def Lineage (t : CallFrameTree) : Nat → List Nat → Prop
  | _, [] => True
  | a, c :: cs => c ∈ t.frames a ∧ t.Lineage c cs

/-- The call frame a line leads to. -/
def lastOf (a : Nat) : List Nat → Nat
  | [] => a
  | c :: cs => lastOf c cs

@[simp] theorem lastOf_nil (a : Nat) : lastOf a [] = a := rfl

@[simp] theorem lastOf_cons (a c : Nat) (cs : List Nat) : lastOf a (c :: cs) = lastOf c cs := rfl

@[simp] theorem lastOf_concat (a : Nat) (cs : List Nat) (c : Nat) : lastOf a (cs ++ [c]) = c := by
  induction cs generalizing a with
  | nil => rfl
  | cons d ds ih => exact ih d

theorem lineage_concat {a c : Nat} {cs : List Nat} :
    t.Lineage a (cs ++ [c]) ↔ t.Lineage a cs ∧ c ∈ t.frames (lastOf a cs) := by
  induction cs generalizing a with
  | nil => simp [Lineage]
  | cons d ds ih => simp [Lineage, ih, and_assoc]

theorem parent_of_mem_frames {a f : Nat} (hf : f ∈ t.frames a) :
    (t.node f).parent = some a := by
  obtain ⟨path, hw⟩ := t.wired
  unfold frames node frameAt at hf
  cases ha : t.heap.cell a with
  | none =>
      rw [ha] at hf
      exact absurd hf List.not_mem_nil
  | some n =>
      rw [ha] at hf
      obtain ⟨m, hm, hparent, -⟩ := hw.kid a n f ha hf
      show (frameAt t.heap f).parent = some a
      rw [frameAt_of_cell hm, hparent]

theorem le_lastOf {a : Nat} {cs : List Nat} (h : t.Lineage a cs) : a ≤ lastOf a cs := by
  induction cs generalizing a with
  | nil => exact le_rfl
  | cons c cs ih =>
      have hlt := (lt_of_mem_frames h.1).1
      exact hlt.le.trans (ih h.2)

/-- **A call frame has one line of ancestors.** -/
theorem lineage_inj {a : Nat} {cs ds : List Nat} (hcs : t.Lineage a cs) (hds : t.Lineage a ds)
    (hlast : lastOf a cs = lastOf a ds) : cs = ds := by
  induction cs using List.reverseRecOn generalizing ds with
  | nil =>
      rcases List.eq_nil_or_concat' ds with rfl | ⟨ds, d, rfl⟩
      · rfl
      · -- a descendant of `a` is younger than `a`
        obtain ⟨hds, hd⟩ := lineage_concat.mp hds
        have hle := le_lastOf hds
        have hlt := (lt_of_mem_frames hd).1
        rw [lastOf_nil, lastOf_concat] at hlast
        omega
  | append_singleton cs c ih =>
      obtain ⟨hcs, hc⟩ := lineage_concat.mp hcs
      rcases List.eq_nil_or_concat' ds with rfl | ⟨ds, d, rfl⟩
      · have hle := le_lastOf hcs
        have hlt := (lt_of_mem_frames hc).1
        rw [lastOf_nil, lastOf_concat] at hlast
        omega
      · obtain ⟨hds', hd⟩ := lineage_concat.mp hds
        rw [lastOf_concat, lastOf_concat] at hlast
        subst hlast
        -- the two lines end in children of the same parent
        have hparent : lastOf a cs = lastOf a ds := by
          have h := (parent_of_mem_frames hc).symm.trans (parent_of_mem_frames hd)
          exact Option.some.inj h
        rw [ih hcs hds' hparent]

/-- There is a line to every node of the tree. -/
theorem exists_lineage {a b : Nat} {p : List Str} (hb : b ∈ t.nodesAt a p) :
    ∃ cs, t.Lineage a cs ∧ lastOf a cs = b := by
  induction p generalizing a with
  | nil => exact ⟨[], trivial, (List.mem_singleton.mp hb).symm⟩
  | cons name p ih =>
      obtain ⟨f, hf, hb⟩ := List.mem_flatMap.mp hb
      obtain ⟨cs, hcs, hlast⟩ := ih hb
      exact ⟨f :: cs, ⟨(List.mem_filter.mp hf).1, hcs⟩, hlast⟩

end CallFrameTree

open CallFrameTree (lastOf)

/-! ## Zoomed frames -/

/-- The frame that shows the call frame `cf`, zoomed into, at the depth `y`. -/
def zoomFrame (t : CallFrameTree) (canvas : Canvas) (y : Int) (cf : Nat) : VisualFrame where
  x := canvas.x
  y
  count := (t.node cf).count
  width := canvas.width
  text := fitString (t.node cf).name canvas.width canvas.wsFiller
  cf := some cf
  zoomed := true

def zoomFrames (t : CallFrameTree) (canvas : Canvas) : Int → List Nat → List VisualFrame
  | _, [] => []
  | y, c :: cs => zoomFrame t canvas y c :: zoomFrames t canvas (y + 1) cs

@[simp] theorem length_zoomFrames (t : CallFrameTree) (canvas : Canvas) (y : Int)
    (cs : List Nat) : (zoomFrames t canvas y cs).length = cs.length := by
  induction cs generalizing y with
  | nil => rfl
  | cons c cs ih => rw [zoomFrames, List.length_cons, List.length_cons, ih]

theorem zoomFrame_shows (t : CallFrameTree) (canvas : Canvas) (y : Int) (cf : Nat) :
    (zoomFrame t canvas y cf).Shows t cf := ⟨rfl, rfl⟩

theorem stacked_zoomFrames (canvas : Canvas) (y : Int) (cs : List Nat) :
    Stacked t y (zoomFrames t canvas y cs) := by
  induction cs generalizing y with
  | nil => trivial
  | cons c cs ih => exact ⟨rfl, ⟨c, zoomFrame_shows t canvas y c⟩, ih (y + 1)⟩

theorem place_zoomFrames {y : Int} {cs : List Nat} :
    ∀ v ∈ zoomFrames t canvas y cs, v.x = canvas.x ∧ v.width = canvas.width := by
  induction cs generalizing y with
  | nil => exact fun v hv => absurd hv List.not_mem_nil
  | cons c cs ih =>
      intro v hv
      rcases List.mem_cons.mp hv with rfl | hv
      · exact ⟨rfl, rfl⟩
      · exact ih v hv

/-- A zoomed frame is made of the depth and the call frame alone. -/
theorem mapM_zoomedVf (canvas : Canvas) {y : Int} {vs : List VisualFrame} {cs : List Nat}
    (hvs : Stacked t y vs) (hcfs : vs.map (·.cf) = cs.map some) :
    vs.mapM (zoomedVf t canvas) = some (zoomFrames t canvas y cs) := by
  induction vs generalizing y cs with
  | nil =>
      obtain rfl : cs = [] := by simpa using hcfs.symm
      rfl
  | cons v vs ih =>
      cases cs with
      | nil => simp at hcfs
      | cons c cs =>
          obtain ⟨hy, ⟨cf, hcf, hcount⟩, hvs⟩ := hvs
          rw [List.map_cons, List.map_cons, List.cons.injEq] at hcfs
          obtain ⟨hc, hcfs⟩ := hcfs
          obtain rfl : cf = c := Option.some.inj (hcf.symm.trans hc)
          have hzoomed : zoomedVf t canvas v = some (zoomFrame t canvas y cf) := by
            unfold zoomedVf
            rw [hcf, ← hy, zoomFrame, ← hcount]
            rfl
          rw [List.mapM_cons, hzoomed, ih hvs hcfs]
          rfl

/-- The visual tree zoomed into the last of the line `cs` of call frames. -/
def zoomedTree (t : CallFrameTree) (canvas : Canvas) (cs : List Nat) : Rose VisualFrameNode :=
  zoomTree t canvas (headVf t canvas) (zoomFrames t canvas 1 cs)

/-- The zoomed frame, with everything below it. -/
theorem subtree?_zoomTree_zoomFrames (t : CallFrameTree) (canvas : Canvas) (y : Int) (a : Nat)
    (cs : List Nat) :
    (zoomTree t canvas (zoomFrame t canvas y a) (zoomFrames t canvas (y + 1) cs)).subtree?
        (List.replicate cs.length 0)
      = some (expand t canvas (zoomFrame t canvas (y + cs.length) (lastOf a cs))) := by
  induction cs generalizing y a with
  | nil =>
      rw [List.length_nil, Int.ofNat_zero, Int.add_zero]
      rfl
  | cons c cs ih =>
      have hbelow := ih (y + 1) c
      rw [show y + 1 + cs.length = y + ((c :: cs).length : Nat) by push_cast [List.length_cons]; ring]
        at hbelow
      exact hbelow

theorem subtree?_zoomedTree (t : CallFrameTree) (canvas : Canvas) (cs : List Nat) :
    (zoomedTree t canvas cs).subtree? (List.replicate cs.length 0)
      = some (expand t canvas (zoomFrame t canvas cs.length (lastOf t.head cs))) := by
  have h := subtree?_zoomTree_zoomFrames t canvas 0 t.head cs
  rw [Int.zero_add, Int.zero_add] at h
  exact h

/-! ## Call frames from parent to child -/

/-- At one frame, `label`, with the children `cs`: they show children of its call frame, and so do
the members of their combined frames. -/
structure LinealAt (t : CallFrameTree) (label : VisualFrameNode) (cs : List (Rose VisualFrameNode)) :
    Prop where
  child : ∀ f, label.cf = some f → ∀ c ∈ cs, ∀ g, c.label.cf = some g → g ∈ t.frames f
  member : ∀ f, label.cf = some f → ∀ c ∈ cs, ∀ m ∈ c.label.combinedFrames, ∀ g,
    m.cf = some g → g ∈ t.frames f

theorem linealAt_nil (label : VisualFrameNode) : LinealAt t label [] where
  child _ _ _ hc := absurd hc List.not_mem_nil
  member _ _ _ hc := absurd hc List.not_mem_nil

theorem lineal_expand (canvas : Canvas) {cf : Nat} (hshows : vf.Shows t cf) :
    (expand t canvas vf).Everywhere (LinealAt t) := by
  refine expand_induction canvas
    (motive := fun vf => (expand t canvas vf).Everywhere (LinealAt t)) ?_ cf vf hshows
  intro vf cf hshows ih
  unfold expand
  rw [hshows.1]
  have hrow : ∀ v ∈ childRow t canvas vf cf, ∀ g, v.cf = some g → g ∈ t.frames cf := by
    intro v hv g hg
    obtain ⟨f, hf, hshowsf, -⟩ := mem_childRow hv
    obtain rfl : g = f := Option.some.inj (hg.symm.trans hshowsf.1)
    exact hf
  refine (Rose.everywhere_node _ _).mpr ⟨⟨?_, ?_⟩, ?_⟩
  · intro f hf c hc g hg
    obtain rfl : f = cf := Option.some.inj (hf.symm.trans hshows.1)
    rcases mem_createVfChildren hc with ⟨v, hv, rfl⟩ | ⟨x, rfl⟩
    · exact hrow v (List.mem_filter.mp hv).1 g hg
    · cases hg
  · intro f hf c hc m hm g hg
    obtain rfl : f = cf := Option.some.inj (hf.symm.trans hshows.1)
    rcases mem_createVfChildren hc with ⟨v, -, rfl⟩ | ⟨x, rfl⟩
    · cases hm
    · exact hrow m (List.mem_filter.mp hm).1 g hg
  · intro c hc
    rcases mem_createVfChildren hc with ⟨v, hv, rfl⟩ | ⟨x, rfl⟩
    · obtain ⟨f, hf, hshowsf, -⟩ := mem_childRow (List.mem_filter.mp hv).1
      exact ih v hv f hf hshowsf
    · refine (Rose.everywhere_node _ _).mpr ⟨linealAt_nil _, ?_⟩
      exact fun c hc => absurd hc List.not_mem_nil

theorem lineal_zoomTree (canvas : Canvas) {a : Nat} {cs : List Nat} (h : t.Lineage a cs)
    (y : Int) :
    (zoomTree t canvas (zoomFrame t canvas y a) (zoomFrames t canvas (y + 1) cs)).Everywhere
      (LinealAt t) := by
  induction cs generalizing a y with
  | nil => exact lineal_expand canvas (zoomFrame_shows t canvas y a)
  | cons c cs ih =>
      rw [zoomFrames, zoomTree_cons]
      refine (Rose.everywhere_node _ _).mpr ⟨⟨?_, ?_⟩, ?_⟩
      · intro f hf d hd g hg
        rw [List.mem_singleton.mp hd, label_zoomTree] at hg
        cases hf
        cases hg
        exact h.1
      · intro f hf d hd m hm
        rw [List.mem_singleton.mp hd, label_zoomTree] at hm
        cases hm
      · intro d hd
        rw [List.mem_singleton.mp hd]
        exact ih h.2 (y + 1)

/-- A visual tree that mirrors the call tree from its head down. -/
structure Genealogical (t : CallFrameTree) (tree : Rose VisualFrameNode) : Prop where
  sound : Sound t tree
  lineal : tree.Everywhere (LinealAt t)
  y : tree.label.y = 0
  cf : tree.label.cf = some t.head
  plain : tree.label.combinedFrames = []

/-- **Zooming keeps the genealogy.** -/
theorem genealogical_zoomedTree (canvas : Canvas) {cs : List Nat} (h : t.Lineage t.head cs) :
    Genealogical t (zoomedTree t canvas cs) where
  sound := sound_zoomTree canvas (headVf_shows t canvas) (stacked_zoomFrames canvas 1 cs)
  lineal := lineal_zoomTree canvas h 0
  y := by
    unfold zoomedTree
    rw [label_zoomTree]
    rfl
  cf := by
    unfold zoomedTree
    rw [label_zoomTree]
    rfl
  plain := by
    unfold zoomedTree
    rw [label_zoomTree]
    rfl

/-! ## The way up from a frame -/

/-- The frames on the way down to a frame show a line of call frames. -/
theorem lineage_spine {tree s : Rose VisualFrameNode} {p : List Nat}
    {labels : List VisualFrameNode} (hsound : Sound t tree)
    (hlineal : tree.Everywhere (LinealAt t)) {a b : Nat} (ha : tree.label.cf = some a)
    (hs : tree.subtree? p = some s) (hb : s.label.cf = some b)
    (hlabels : tree.spine p = some labels) :
    ∃ cs, labels.map (·.cf) = some a :: cs.map some ∧ t.Lineage a cs ∧ lastOf a cs = b := by
  induction p generalizing tree labels a with
  | nil =>
      cases hs
      cases hlabels
      refine ⟨[], ?_, trivial, Option.some.inj (ha.symm.trans hb)⟩
      rw [List.map_singleton, ha]
      rfl
  | cons i p ih =>
      obtain ⟨c, hc, hs⟩ := Rose.subtree?_cons_eq_some.mp hs
      have hmem := List.mem_of_getElem? hc
      have hci := Rose.subtree?_child hc
      unfold Rose.spine at hlabels
      rw [hc, Option.bind_some, Option.map_eq_some_iff] at hlabels
      obtain ⟨rest, hrest, rfl⟩ := hlabels
      -- the child shows a call frame: it is the frame looked for, or has children
      obtain ⟨d, hd⟩ : ∃ d, c.label.cf = some d := by
        rw [← Option.ne_none_iff_exists']
        intro hnone
        have hchildless := (hsound [i] c hci).childless hnone
        cases p with
        | nil =>
            cases hs
            rw [hnone] at hb
            cases hb
        | cons j p =>
            obtain ⟨e, he, -⟩ := Rose.subtree?_cons_eq_some.mp hs
            rw [hchildless] at he
            cases he
      obtain ⟨cs, hcfs, hcs, hlast⟩ :=
        ih (hsound.subtree hci) (hlineal.subtree hci) hd hs hrest
      refine ⟨d :: cs, ?_, ⟨(hlineal [] tree rfl).child a ha c hmem d hd, hcs⟩, hlast⟩
      rw [List.map_cons, hcfs, ha]
      rfl

/-- Whatever is above a frame has children, so it shows a call frame. -/
theorem cf_isSome_of_mem_spine {tree : Rose VisualFrameNode} (hsound : Sound t tree) {p : List Nat}
    {front : List VisualFrameNode} {last : VisualFrameNode}
    (hlabels : tree.spine p = some (front ++ [last])) {l : VisualFrameNode} (hl : l ∈ front) :
    l.cf.isSome = true := by
  induction p generalizing tree front with
  | nil =>
      have hlen := Rose.length_spine hlabels
      obtain rfl : front = [] := by simpa using hlen
      cases hl
  | cons i p ih =>
      rw [Rose.spine, Option.bind_eq_some_iff] at hlabels
      obtain ⟨c, hc, hlabels⟩ := hlabels
      obtain ⟨rest, hrest, hsplit⟩ := Option.map_eq_some_iff.mp hlabels
      cases front with
      | nil => cases hl
      | cons first front =>
          rw [List.cons_append, List.cons.injEq] at hsplit
          obtain ⟨rfl, rfl⟩ := hsplit
          rcases List.mem_cons.mp hl with rfl | hl
          · rw [Option.isSome_iff_ne_none]
            intro hnone
            rw [(hsound [] tree rfl).childless hnone] at hc
            cases hc
          · exact ih (hsound.subtree (Rose.subtree?_child hc)) hrest hl

theorem getLast?_lineage (a : Nat) (cs : List Nat) :
    (some a :: cs.map some).getLast? = some (some (lastOf a cs)) := by
  induction cs generalizing a with
  | nil => rfl
  | cons c cs ih =>
      rw [List.map_cons, List.getLast?_cons_cons, ih]
      rfl

/-- The frames above one to zoom into, up to the head, show its line. -/
theorem lineage_startParents {earlier : Rose VisualFrameNode} (hgen : Genealogical t earlier)
    {parents : List VisualFrame} (htarget : ZoomTarget earlier parents) :
    ∃ cs, (startParents (some parents)).map (·.cf) = cs.map some ∧ t.Lineage t.head cs ∧
      parents.head?.bind (·.cf) = some (lastOf t.head cs) := by
  have hlabel : ∀ (labels : List VisualFrameNode) (cs : List Nat),
      labels.map (·.cf) = some t.head :: cs.map some →
      ((labels.map (·.toVisualFrame)).map (·.cf)) = some t.head :: cs.map some := by
    intro labels cs h
    rw [List.map_map]
    exact h
  unfold startParents
  rw [Option.getD_some]
  cases htarget with
  | @frame p s labels hs hcf hlabels =>
      obtain ⟨b, hb⟩ := Option.isSome_iff_exists.mp hcf
      obtain ⟨cs, hcfs, hcs, hlast⟩ :=
        lineage_spine hgen.sound hgen.lineal hgen.cf hs hb hlabels
      have hcfs := hlabel labels cs hcfs
      refine ⟨cs, ?_, hcs, ?_⟩
      · rw [List.dropLast_reverse, List.reverse_reverse, List.map_tail, hcfs, List.tail_cons]
      · have hend := getLast?_lineage t.head cs
        rw [← hcfs, List.getLast?_map] at hend
        obtain ⟨v, hv, hvcf⟩ := Option.map_eq_some_iff.mp hend
        rw [List.head?_reverse, hv, Option.bind_some, hvcf]
  | @member p s plus labels m hs hplus hm hlabels =>
      have hat := hgen.sound p s hs
      obtain ⟨b, hb⟩ : ∃ b, s.label.cf = some b := by
        rw [← Option.ne_none_iff_exists']
        intro hnone
        rw [hat.childless hnone] at hplus
        cases hplus
      obtain ⟨cs, hcfs, hcs, hlast⟩ :=
        lineage_spine hgen.sound hgen.lineal hgen.cf hs hb hlabels
      have hcfs := hlabel labels cs hcfs
      obtain ⟨-, f, hf⟩ := hat.members plus hplus m hm
      have hchild : f ∈ t.frames b := (hgen.lineal p s hs).member b hb plus hplus m hm f hf.1
      -- the line of the member is the line of the frame it is combined below, and one more
      refine ⟨cs ++ [f], ?_, CallFrameTree.lineage_concat.mpr ⟨hcs, hlast.symm ▸ hchild⟩, ?_⟩
      · rw [List.dropLast_cons_of_ne_nil, List.reverse_cons, List.dropLast_reverse,
          List.reverse_reverse, List.map_append, List.map_tail, hcfs, List.tail_cons,
          List.map_append, List.map_singleton, List.map_singleton, hf.1]
        intro hnil
        rw [List.reverse_eq_nil_iff] at hnil
        rw [hnil] at hcfs
        cases hcfs
      · rw [List.head?_cons, Option.bind_some, CallFrameTree.lastOf_concat, hf.1]

/-- The depth of a frame is the length of the line to its call frame. -/
theorem length_lineage {tree s : Rose VisualFrameNode} (hgen : Genealogical t tree) {p : List Nat}
    (hs : tree.subtree? p = some s) {b : Nat} (hb : s.label.cf = some b) {cs : List Nat}
    (hcs : t.Lineage t.head cs) (hlast : lastOf t.head cs = b) : cs.length = p.length := by
  obtain ⟨labels, hlabels, -⟩ := Rose.spine_of_subtree? hs
  obtain ⟨ds, hcfs, hds, hlastds⟩ := lineage_spine hgen.sound hgen.lineal hgen.cf hs hb hlabels
  rw [CallFrameTree.lineage_inj hcs hds (hlast.trans hlastds.symm)]
  have hlen := congrArg List.length hcfs
  rw [List.length_map, Rose.length_spine hlabels, List.length_cons, List.length_map] at hlen
  omega

/-- The members of the combined frames of a frame show call frames, at its own depth. -/
theorem member_lineage {tree plus : Rose VisualFrameNode} (hgen : Genealogical t tree)
    {p : List Nat} (hplus : tree.subtree? p = some plus) {m : VisualFrame}
    (hm : m ∈ plus.label.combinedFrames) :
    ∃ f, m.Shows t f ∧
      ∀ cs, t.Lineage t.head cs → lastOf t.head cs = f → cs.length = p.length := by
  rcases List.eq_nil_or_concat' p with rfl | ⟨above, i, rfl⟩
  · -- the head combines no frames
    cases hplus
    rw [hgen.plain] at hm
    cases hm
  · rw [Rose.subtree?_append, Option.bind_eq_some_iff] at hplus
    obtain ⟨s, hs, hplus⟩ := hplus
    obtain ⟨c, hc, hplus⟩ := Rose.subtree?_cons_eq_some.mp hplus
    cases hplus
    have hmem := List.mem_of_getElem? hc
    have hat := hgen.sound above s hs
    obtain ⟨-, f, hf⟩ := hat.members plus hmem m hm
    obtain ⟨b, hb⟩ : ∃ b, s.label.cf = some b := by
      rw [← Option.ne_none_iff_exists']
      intro hnone
      rw [hat.childless hnone] at hmem
      cases hmem
    have hchild : f ∈ t.frames b := (hgen.lineal above s hs).member b hb plus hmem m hm f hf.1
    refine ⟨f, hf, fun cs hcs hlast => ?_⟩
    -- the line of the member without its end leads to the parent
    rcases List.eq_nil_or_concat' cs with rfl | ⟨ds, d, rfl⟩
    · rw [← hlast] at hchild
      exact absurd (CallFrameTree.lt_of_mem_frames hchild).1 (Nat.not_lt_zero b)
    · obtain ⟨hds, hd⟩ := CallFrameTree.lineage_concat.mp hcs
      rw [CallFrameTree.lastOf_concat] at hlast
      subst hlast
      have hparent : lastOf t.head ds = b := by
        have h := (CallFrameTree.parent_of_mem_frames hd).symm.trans
          (CallFrameTree.parent_of_mem_frames hchild)
        exact Option.some.inj h
      rw [List.length_append, List.length_append, length_lineage hgen hs hb hds hparent]
      rfl

/-- **Zooming depends on the call frame alone.** Whatever tree the frame to zoom into belongs to,
its call frame is the last of a line `cs`, and `rebuild_tree` builds the tree zoomed into that. -/
theorem rebuildTree_zoom (canvas : Canvas) {earlier : Rose VisualFrameNode}
    (hgen : Genealogical t earlier) {parents : List VisualFrame}
    (htarget : ZoomTarget earlier parents) :
    ∃ cs, t.Lineage t.head cs ∧ parents.head?.bind (·.cf) = some (lastOf t.head cs) ∧
      rebuildTree t canvas (some parents) = some (zoomedTree t canvas cs) ∧
      startAddress (some parents) = List.replicate cs.length 0 := by
  obtain ⟨cs, hcfs, hcs, hlast⟩ := lineage_startParents hgen htarget
  refine ⟨cs, hcs, hlast, ?_, ?_⟩
  · have hstacked := stacked_startParents hgen.sound hgen.y htarget
    unfold rebuildTree
    rw [mapM_zoomedVf canvas hstacked hcfs]
    rfl
  · have hlen := congrArg List.length hcfs
    rw [List.length_map, List.length_map] at hlen
    unfold startAddress
    rw [hlen]

end LdbToolchain.Tfg
