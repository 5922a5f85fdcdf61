import LdbToolchain.Lib.PyStr
import LdbToolchain.Tfg.Aggregate
import LdbToolchain.Tfg.Zooming

/-!
# The status line

`StatusWindow.draw` computes four percentages and hands them to the format string in an order that is
not that of the labels: what is printed as the aggregate is the share of the frame's own samples in its
parent's, and the other way round. `status_means_iff` says when nobody can tell.
-/

namespace LdbToolchain.Tfg

/-- `int(part * 100 / whole)`; `none` is a division by zero. -/
def percent (part whole : Int) : Option Int :=
  if whole = 0 then none else some ((part * 100).tdiv whole)

/-- `cf.parent or cf`. -/
def parentOr (t : CallFrameTree) (cf : Nat) : Nat := (t.node cf).parent.getD cf

/-- `"%s self=%s%% aggregate=%s%% self/parent=%s%% aggregate/parent=%s%%"`. -/
def statusText (name : Str) (self aggregate selfParent aggregateParent : Int) : Str :=
  name ++ " self=".toList ++ Py.str self
    ++ "% aggregate=".toList ++ Py.str aggregate
    ++ "% self/parent=".toList ++ Py.str selfParent
    ++ "% aggregate/parent=".toList ++ Py.str aggregateParent ++ ['%']

/-- `StatusWindow.draw`, on a terminal of `width` columns. -/
def statusDraw (t : CallFrameTree) (vft : VisualFrameTree) (currentVf : VfRef) (width : Int) :
    Option Str := do
  let vf ← vft.vf currentVf
  match vf.cf with
  | some cf =>
    let parent := parentOr t cf
    let selfTimeTotal ← percent (t.node cf).baseCount (t.node t.head).count
    let combinedTimeTotal ← percent (t.node cf).count (t.node t.head).count
    let selfTimeParent ← percent (t.node cf).baseCount (t.node parent).count
    let combinedTimeParent ← percent (t.node cf).count (t.node parent).count
    let text :=
      statusText (t.node cf).name selfTimeTotal selfTimeParent combinedTimeTotal combinedTimeParent
    return fitString text (width - 1) [' ']
  | none => return vf.text

/-! ## Percentages -/

theorem percent_eq {part whole : Int} (hpart : 0 ≤ part) (hwhole : whole ≠ 0) :
    percent part whole = some (100 * part / whole) := by
  rw [percent, if_neg hwhole, Int.tdiv_eq_ediv_of_nonneg (by omega), Int.mul_comm]

/-- A share of a larger whole is no larger. -/
theorem share_le_share {part whole whole' : Int} (hpart : 0 ≤ part) (hwhole : 0 < whole)
    (hle : whole ≤ whole') : 100 * part / whole' ≤ 100 * part / whole := by
  have hnonneg : 0 ≤ 100 * part / whole' := Int.ediv_nonneg (by omega) (by omega)
  apply Int.le_ediv_of_mul_le hwhole
  have hmul : 100 * part / whole' * whole ≤ 100 * part / whole' * whole' :=
    Int.mul_le_mul_of_nonneg_left hle hnonneg
  exact hmul.trans (Int.ediv_mul_le _ (by omega))

theorem share_mono {part part' whole : Int} (hwhole : 0 < whole) (hle : part ≤ part') :
    100 * part / whole ≤ 100 * part' / whole := Int.ediv_le_ediv hwhole (by omega)

theorem share_le_hundred {part whole : Int} (hwhole : 0 < whole) (hle : part ≤ whole) :
    100 * part / whole ≤ 100 := by
  have h := share_mono hwhole hle
  rwa [Int.mul_ediv_cancel _ hwhole.ne'] at h

/-! ## Printed numbers -/

theorem percent_notMem_str {n : Int} (hn : 0 ≤ n) : '%' ∉ Py.str n := by
  obtain ⟨k, rfl⟩ := Int.eq_ofNat_of_zero_le hn
  intro hmem
  have hdigit := Nat.isDigit_of_mem_toDigits (by decide) (by decide) hmem
  exact absurd hdigit (by decide)

/-- A number printed before a percent sign can be read back. -/
theorem str_percent_inj {m n : Int} (hm : 0 ≤ m) (hn : 0 ≤ n) {l l' : Str}
    (h : Py.str m ++ '%' :: l = Py.str n ++ '%' :: l') : m = n := by
  have hread : ∀ {k : Int} (rest : Str), 0 ≤ k →
      (Py.str k ++ '%' :: rest).takeWhile (· ≠ '%') = Py.str k := by
    intro k rest hk
    rw [List.takeWhile_append_of_pos]
    · simp
    · intro c hc
      rw [decide_eq_true_eq]
      rintro rfl
      exact percent_notMem_str hk hc
  have hstr := congrArg (List.takeWhile (· ≠ '%')) h
  rw [hread l hm, hread l' hn] at hstr
  have hint := congrArg Py.int hstr
  rw [Py.int_str hm, Py.int_str hn] at hint
  exact Option.some.inj hint

/-! ## Counts -/

namespace CallFrameTree

variable {t : CallFrameTree}

theorem Weighted.child_le (h : t.Weighted) {a f : Nat} (hf : f ∈ t.frames a) :
    (t.node f).count ≤ (t.node a).count := by
  refine le_trans ?_ (h a).2
  apply List.single_le_sum
  · intro x hx
    obtain ⟨c, -, rfl⟩ := List.mem_map.mp hx
    exact (h c).1
  · exact List.mem_map_of_mem hf

theorem Weighted.lastOf_le (h : t.Weighted) {a : Nat} {cs : List Nat} (hcs : t.Lineage a cs) :
    (t.node (lastOf a cs)).count ≤ (t.node a).count := by
  induction cs generalizing a with
  | nil => exact le_rfl
  | cons c cs ih => exact (ih hcs.2).trans (h.child_le hcs.1)

end CallFrameTree

/-- The counts of a node, its parent and the head. -/
structure CountsAt (t : CallFrameTree) (a : Nat) : Prop where
  base_nonneg : 0 ≤ (t.node a).baseCount
  base_le : (t.node a).baseCount ≤ (t.node a).count
  le_parent : (t.node a).count ≤ (t.node (parentOr t a)).count
  parent_le : (t.node (parentOr t a)).count ≤ (t.node t.head).count
  parent_pos : 0 < (t.node (parentOr t a)).count

variable {samples : List (List Str × Int)}

theorem parentOr_head (samples : List (List Str × Int)) :
    parentOr (.ofSamples samples) 0 = 0 := by
  obtain ⟨path, hp⟩ := ofSamples_profile samples
  obtain ⟨root, hroot, -, hparent⟩ := hp.wired.root
  rw [parentOr, show (CallFrameTree.ofSamples samples).node 0 = root from frameAt_of_cell hroot,
    hparent]
  rfl

/-- Every node was visited. -/
theorem count_pos (hsamples : samples ≠ []) (hpos : ∀ s ∈ samples, 0 < s.2) {a : Nat} {p : List Str}
    (ha : a ∈ (CallFrameTree.ofSamples samples).nodesAt 0 p) :
    0 < ((CallFrameTree.ofSamples samples).node a).count := by
  obtain ⟨path, hp⟩ := ofSamples_profile samples
  obtain ⟨root, hroot, -⟩ := hp.wired.root
  obtain ⟨n, hn, hpath⟩ := mem_nodesAt hp.wired hroot ha
  have hvisited : ∃ s ∈ samples, path a <+: s.1 := by
    by_cases hempty : p = []
    · obtain ⟨s, hs⟩ := List.exists_mem_of_ne_nil samples hsamples
      rw [hpath, hempty, hp.wired.path_root]
      exact ⟨s, hs, List.nil_prefix⟩
    · by_contra hnone
      rw [hpath] at hnone
      rw [nodesAt_of_not_visited hp hroot hempty hnone] at ha
      cases ha
  show 0 < (frameAt _ a).count
  rw [frameAt_of_cell hn, hp.count a n hn]
  exact tally_pos hpos hvisited

theorem countsAt (hsamples : samples ≠ []) (hne : ∀ s ∈ samples, s.1 ≠ [])
    (hpos : ∀ s ∈ samples, 0 < s.2) {a : Nat} {p : List Str}
    (ha : a ∈ (CallFrameTree.ofSamples samples).nodesAt 0 p) :
    CountsAt (.ofSamples samples) a := by
  have hnonneg : ∀ s ∈ samples, 0 ≤ s.2 := fun s hs => (hpos s hs).le
  have hweighted := ofSamples_weighted_of_nonneg hnonneg
  obtain ⟨path, hp⟩ := ofSamples_profile samples
  obtain ⟨root, hroot, -⟩ := hp.wired.root
  have hcount := count_pos hsamples hpos ha
  -- the parent, or the head itself
  have hup : ((CallFrameTree.ofSamples samples).node a).count
        ≤ ((CallFrameTree.ofSamples samples).node (parentOr (.ofSamples samples) a)).count ∧
      ((CallFrameTree.ofSamples samples).node (parentOr (.ofSamples samples) a)).count
        ≤ ((CallFrameTree.ofSamples samples).node 0).count := by
    obtain ⟨cs, hcs, hlast⟩ := CallFrameTree.exists_lineage ha
    rcases List.eq_nil_or_concat' cs with rfl | ⟨ds, d, rfl⟩
    · cases hlast
      rw [CallFrameTree.lastOf_nil]
      rw [parentOr_head]
      exact ⟨le_rfl, le_rfl⟩
    · obtain ⟨hds, hd⟩ := CallFrameTree.lineage_concat.mp hcs
      rw [CallFrameTree.lastOf_concat] at hlast
      subst hlast
      rw [parentOr, CallFrameTree.parent_of_mem_frames hd]
      exact ⟨hweighted.child_le hd, hweighted.lastOf_le hds⟩
  refine ⟨?_, ?_, hup.1, hup.2, hcount.trans_le hup.1⟩
  · obtain ⟨n, hn, -⟩ := mem_nodesAt hp.wired hroot ha
    show 0 ≤ (frameAt _ a).baseCount
    rw [frameAt_of_cell hn, hp.baseCount a n hn]
    split
    · exact le_rfl
    · exact tally_nonneg hnonneg
  · have hsplit := (ofSamples_aggregates samples).split hne p a ha
    have hbelow : 0 ≤ (((CallFrameTree.ofSamples samples).frames a).map fun f =>
        ((CallFrameTree.ofSamples samples).node f).count).sum := by
      apply List.sum_nonneg
      intro x hx
      obtain ⟨c, -, rfl⟩ := List.mem_map.mp hx
      exact (hweighted c).1
    omega

/-- The stack `a`, seen once. -/
def aOnce : List (List Str × Int) := [([['a']], 1)]

/-- A terminal of eighty columns. -/
def eightyColumns : Canvas := ⟨0, 80, [' '], true⟩

/-! ## What the line says -/

/-- The line says what its labels say, and the numbers are in the order one expects. -/
structure StatusMeans (t : CallFrameTree) (cf : Nat) (line : Str) : Prop where
  printed : statusText (t.node cf).name
      (100 * (t.node cf).baseCount / (t.node t.head).count)
      (100 * (t.node cf).count / (t.node t.head).count)
      (100 * (t.node cf).baseCount / (t.node (parentOr t cf)).count)
      (100 * (t.node cf).count / (t.node (parentOr t cf)).count) <+: line
  self_nonneg : 0 ≤ 100 * (t.node cf).baseCount / (t.node t.head).count
  self_le_aggregate : 100 * (t.node cf).baseCount / (t.node t.head).count
    ≤ 100 * (t.node cf).count / (t.node t.head).count
  self_le_selfParent : 100 * (t.node cf).baseCount / (t.node t.head).count
    ≤ 100 * (t.node cf).baseCount / (t.node (parentOr t cf)).count
  selfParent_le : 100 * (t.node cf).baseCount / (t.node (parentOr t cf)).count
    ≤ 100 * (t.node cf).count / (t.node (parentOr t cf)).count
  aggregate_le : 100 * (t.node cf).count / (t.node t.head).count
    ≤ 100 * (t.node cf).count / (t.node (parentOr t cf)).count
  le_hundred : 100 * (t.node cf).count / (t.node (parentOr t cf)).count ≤ 100

/-- The text that the labels promise, with room for all of it. -/
def RoomForStatus (t : CallFrameTree) (cf : Nat) (width : Int) : Prop :=
  ((statusText (t.node cf).name
      (100 * (t.node cf).baseCount / (t.node t.head).count)
      (100 * (t.node cf).count / (t.node t.head).count)
      (100 * (t.node cf).baseCount / (t.node (parentOr t cf)).count)
      (100 * (t.node cf).count / (t.node (parentOr t cf)).count)).length : Int) ≤ width - 1

theorem length_statusText (name : Str) (s a sp ap : Int) :
    (statusText name s a sp ap).length = (statusText name s sp a ap).length := by
  simp only [statusText, List.length_append]
  omega

/-- With room for it the text comes first. -/
theorem prefix_fitString {text : Str} {width : Int} (h : (text.length : Int) ≤ width)
    (wsFiller : Str) : text <+: fitString text width wsFiller := by
  have hslice : sliceTo text width = text := by
    rw [sliceTo, if_pos (by omega), List.take_of_length_le (by omega)]
  rw [fitString, hslice]
  split
  next => exact List.prefix_append text _
  next => exact List.prefix_rfl

/-- Swapping the two numbers in the middle cannot be seen just when they are the same. -/
theorem statusText_swap_iff {name : Str} {s a sp ap : Int} (ha : 0 ≤ a) (hsp : 0 ≤ sp) :
    statusText name s a sp ap = statusText name s sp a ap ↔ sp = a := by
  constructor
  · intro h
    simp only [statusText, List.append_assoc, List.append_cancel_left_eq] at h
    exact (str_percent_inj ha hsp h).symm
  · rintro rfl
    rfl

/-- With the two in the middle swapped the line says what it should just when they are the same. -/
theorem prefix_swapped_iff {name : Str} {s a sp ap width : Int} (ha : 0 ≤ a) (hsp : 0 ≤ sp)
    (hroom : ((statusText name s a sp ap).length : Int) ≤ width) :
    statusText name s a sp ap <+: fitString (statusText name s sp a ap) width [' '] ↔ sp = a := by
  have hlength := length_statusText name s a sp ap
  have hdrawn : statusText name s sp a ap <+: fitString (statusText name s sp a ap) width [' '] :=
    prefix_fitString (by omega) [' ']
  rw [← statusText_swap_iff ha hsp]
  constructor
  · intro hprinted
    exact (List.prefix_of_prefix_length_le hprinted hdrawn hlength.le).eq_of_length hlength
  · intro heq
    rw [heq]
    exact hdrawn

/-- What is drawn on a node with a call frame. -/
theorem statusDraw_eq {t : CallFrameTree} {vft : VisualFrameTree} {currentVf : VfRef} {cf : Nat}
    (hcf : vft.cf currentVf = some cf) (hcounts : CountsAt t cf) (width : Int) :
    statusDraw t vft currentVf width = some (fitString (statusText (t.node cf).name
      (100 * (t.node cf).baseCount / (t.node t.head).count)
      (100 * (t.node cf).baseCount / (t.node (parentOr t cf)).count)
      (100 * (t.node cf).count / (t.node t.head).count)
      (100 * (t.node cf).count / (t.node (parentOr t cf)).count)) (width - 1) [' ']) := by
  obtain ⟨vf, hvf, hvcf⟩ := Option.bind_eq_some_iff.mp hcf
  have hcount := hcounts.base_nonneg.trans hcounts.base_le
  have htotal : (t.node t.head).count ≠ 0 := by
    have hle := hcounts.parent_le
    have hpos := hcounts.parent_pos
    omega
  have hparent := hcounts.parent_pos.ne'
  rw [statusDraw, hvf, Option.bind_eq_bind, Option.bind_some, hvcf]
  simp only [percent_eq hcounts.base_nonneg htotal, percent_eq hcount htotal,
    percent_eq hcounts.base_nonneg hparent, percent_eq hcount hparent, Option.bind_eq_bind,
    Option.bind_some]
  rfl

/-- Without a sample the first division already fails. -/
theorem statusDraw_nil {vft : VisualFrameTree} {currentVf : VfRef} {cf : Nat}
    (hcf : vft.cf currentVf = some cf) (width : Int) :
    statusDraw (.ofSamples []) vft currentVf width = none := by
  obtain ⟨vf, hvf, hvcf⟩ := Option.bind_eq_some_iff.mp hcf
  rw [statusDraw, hvf, Option.bind_eq_bind, Option.bind_some, hvcf]
  rfl

/-- **When the percentages mean what their labels say.** -/
theorem status_means_iff {samples : List (List Str × Int)} (hne : ∀ s ∈ samples, s.1 ≠ [])
    (hpos : ∀ s ∈ samples, 0 < s.2) (vft : VisualFrameTree) (currentVf : VfRef) {cf : Nat}
    {p : List Str} (hcf : vft.cf currentVf = some cf)
    (hnode : cf ∈ (CallFrameTree.ofSamples samples).nodesAt 0 p) (width : Int)
    (hwidth : RoomForStatus (.ofSamples samples) cf width) :
    let t := CallFrameTree.ofSamples samples
    (∃ line, statusDraw t vft currentVf width = some line ∧ StatusMeans t cf line) ↔
      samples ≠ [] ∧ 100 * (t.node cf).baseCount / (t.node (parentOr t cf)).count
        = 100 * (t.node cf).count / (t.node t.head).count := by
  intro t
  by_cases hsamples : samples = []
  · subst hsamples
    constructor
    · rintro ⟨line, hdraw, -⟩
      rw [statusDraw_nil hcf] at hdraw
      cases hdraw
    · rintro ⟨hsamples, -⟩
      exact absurd rfl hsamples
  · have hcounts : CountsAt t cf := countsAt hsamples hne hpos hnode
    have hparent := hcounts.parent_pos
    have htotal : 0 < (t.node t.head).count := hparent.trans_le hcounts.parent_le
    have hcount := hcounts.base_nonneg.trans hcounts.base_le
    have hagg : 0 ≤ 100 * (t.node cf).count / (t.node t.head).count :=
      Int.ediv_nonneg (by omega) htotal.le
    have hselfParent : 0 ≤ 100 * (t.node cf).baseCount / (t.node (parentOr t cf)).count :=
      Int.ediv_nonneg (by have := hcounts.base_nonneg; omega) hparent.le
    constructor
    · rintro ⟨line, hdraw, hmeans⟩
      refine ⟨hsamples, ?_⟩
      rw [statusDraw_eq hcf hcounts] at hdraw
      cases hdraw
      exact (prefix_swapped_iff hagg hselfParent hwidth).mp hmeans.printed
    · rintro ⟨-, heq⟩
      refine ⟨_, statusDraw_eq hcf hcounts width, ?_, ?_, ?_, ?_, ?_, ?_, ?_⟩
      · exact (prefix_swapped_iff hagg hselfParent hwidth).mpr heq
      · exact Int.ediv_nonneg (by have := hcounts.base_nonneg; omega) htotal.le
      · exact share_mono htotal hcounts.base_le
      · exact share_le_share hcounts.base_nonneg hparent hcounts.parent_le
      · exact share_mono hparent hcounts.base_le
      · exact share_le_share hcount hparent hcounts.parent_le
      · exact share_le_hundred hparent hcounts.le_parent

/-- On the only frame of the only stack all four are 100. -/
theorem status_means_iff_aOnce :
    ∃ vft, VisualFrameTree.init (.ofSamples aOnce) eightyColumns = some vft ∧
      ∃ line, statusDraw (.ofSamples aOnce) vft (.frame 0 [0]) 80 = some line ∧
        StatusMeans (.ofSamples aOnce) 1 line := by
  refine ⟨_, rfl, ?_⟩
  apply (@status_means_iff aOnce (by decide) (by decide) _ (.frame 0 [0]) 1 [['a']]
    (by decide +kernel) (by decide +kernel) 80 (by unfold RoomForStatus; decide +kernel)).mpr
  decide +kernel

/-- On the first screen the head's aggregate is given as 0%, and its own samples are all of it. -/
theorem status_swapped :
    ∃ vft, VisualFrameTree.init (.ofSamples aOnce) eightyColumns = some vft ∧
      vft.cf (.frame 0 []) = some 0 ∧ 0 ∈ (CallFrameTree.ofSamples aOnce).nodesAt 0 [] ∧
      RoomForStatus (.ofSamples aOnce) 0 80 ∧
      ¬ ∃ line, statusDraw (.ofSamples aOnce) vft (.frame 0 []) 80 = some line ∧
        StatusMeans (.ofSamples aOnce) 0 line := by
  obtain ⟨vft, hinit, hcf⟩ : ∃ vft,
      VisualFrameTree.init (.ofSamples aOnce) eightyColumns = some vft ∧
        vft.cf (.frame 0 []) = some 0 := ⟨_, rfl, by decide +kernel⟩
  have hhead : 0 ∈ (CallFrameTree.ofSamples aOnce).nodesAt 0 [] := List.mem_singleton_self 0
  have hroom : RoomForStatus (.ofSamples aOnce) 0 80 := by
    unfold RoomForStatus
    decide +kernel
  refine ⟨vft, hinit, hcf, hhead, hroom, ?_⟩
  rintro ⟨line, hdraw, hmeans⟩
  rw [statusDraw_eq hcf (countsAt (by decide) (by decide) (by decide) hhead)] at hdraw
  cases hdraw
  have heq := (prefix_swapped_iff (by decide +kernel) (by decide +kernel) hroom).mp hmeans.printed
  exact absurd heq (by decide +kernel)

end LdbToolchain.Tfg
