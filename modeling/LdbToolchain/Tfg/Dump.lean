import LdbToolchain.Lib.PyStr
import LdbToolchain.Tfg.Lineage
import LdbToolchain.Tfg.Picture

/-!
# Dumping a call tree

`dump` prints a line for every node with samples of its own, in pre-order: the names on the way to it
and its base count. The lines are stacks again, the `records` of the tree. They carry the profile of
the samples that the tree was made of (`records_same`) and bring the children of every node back in
their order (`nextNames_records`), so the tree made of them is the same (`shape_ofSamples_records`).
-/

namespace LdbToolchain.Tfg

/-! ## The code -/

namespace CallFrameTree

/-- `_dump`: what is printed. -/
def dumpFrom (t : CallFrameTree) (cf : Nat) (callstack : List Nat) : Str :=
  (if 0 < (t.node cf).baseCount then
    [';'].intercalate (callstack.map fun f => (t.node f).name) ++ [' ']
      ++ Py.str (t.node cf).baseCount ++ ['\n']
  else []) ++
  (t.frames cf).attach.flatMap fun child => t.dumpFrom child.1 (callstack ++ [child.1])
termination_by t.heap.next - cf
decreasing_by
  have h := lt_of_mem_frames child.2
  omega

/-- `dump`. -/
def dump (t : CallFrameTree) : Str := t.dumpFrom t.head []

/-! ## The tree, and its records -/

/-- The tree without its addresses: names, counts and base counts, and the order of the children. -/
def shapeFrom (t : CallFrameTree) (cf : Nat) : Rose (Str × Int × Int) :=
  .node ((t.node cf).name, (t.node cf).count, (t.node cf).baseCount)
    ((t.frames cf).attach.map fun child => t.shapeFrom child.1)
termination_by t.heap.next - cf
decreasing_by
  have h := lt_of_mem_frames child.2
  omega

def shape (t : CallFrameTree) : Rose (Str × Int × Int) := t.shapeFrom t.head

/-- The record of a node with samples of its own. -/
def ownRecord (t : CallFrameTree) (cf : Nat) (names : List Str) : List (List Str × Int) :=
  if 0 < (t.node cf).baseCount then [(names, (t.node cf).baseCount)] else []

/-- The records at and below a node. -/
def recordsFrom (t : CallFrameTree) (cf : Nat) (names : List Str) : List (List Str × Int) :=
  t.ownRecord cf names ++
    (t.frames cf).attach.flatMap fun child =>
      t.recordsFrom child.1 (names ++ [(t.node child.1).name])
termination_by t.heap.next - cf
decreasing_by
  have h := lt_of_mem_frames child.2
  omega

def records (t : CallFrameTree) : List (List Str × Int) := t.recordsFrom t.head []

/-- What holds of a node if it holds of its children holds everywhere. -/
theorem frames_induction (t : CallFrameTree) {P : Nat → Prop}
    (h : ∀ a, (∀ f ∈ t.frames a, P f) → P a) (a : Nat) : P a := by
  induction hn : t.heap.next - a using Nat.strong_induction_on generalizing a with
  | _ n ih =>
      apply h
      intro f hf
      have hlt := lt_of_mem_frames hf
      exact ih (t.heap.next - f) (by omega) f rfl

theorem shapeFrom_eq (t : CallFrameTree) (cf : Nat) :
    t.shapeFrom cf = .node ((t.node cf).name, (t.node cf).count, (t.node cf).baseCount)
      ((t.frames cf).map t.shapeFrom) := by
  rw [shapeFrom]
  congr 1
  exact List.attach_map_val (f := t.shapeFrom)

theorem recordsFrom_eq (t : CallFrameTree) (cf : Nat) (names : List Str) :
    t.recordsFrom cf names = t.ownRecord cf names ++
      (t.frames cf).flatMap fun f => t.recordsFrom f (names ++ [(t.node f).name]) := by
  rw [recordsFrom]
  congr 1
  rw [List.flatMap_def, List.flatMap_def]
  congr 1
  exact List.attach_map_val (f := fun f => t.recordsFrom f (names ++ [(t.node f).name]))

/-- The line that is printed for a record. -/
def lineOf (r : List Str × Int) : Str := [';'].intercalate r.1 ++ [' '] ++ Py.str r.2

theorem dumpFrom_eq (t : CallFrameTree) (cf : Nat) (callstack : List Nat) :
    t.dumpFrom cf callstack
      = (t.recordsFrom cf (callstack.map fun f => (t.node f).name)).flatMap
          fun r => lineOf r ++ ['\n'] := by
  induction cf using t.frames_induction generalizing callstack with
  | h cf ih =>
      have hown : (t.ownRecord cf (callstack.map fun f => (t.node f).name)).flatMap
          (fun r => lineOf r ++ ['\n']) = if 0 < (t.node cf).baseCount then
            [';'].intercalate (callstack.map fun f => (t.node f).name) ++ [' ']
              ++ Py.str (t.node cf).baseCount ++ ['\n'] else [] := by
        rw [ownRecord]
        split
        next => rw [List.flatMap_singleton, lineOf]
        next => rfl
      rw [dumpFrom, recordsFrom_eq, List.flatMap_append, hown, List.flatMap_assoc]
      congr 1
      rw [List.flatMap_def, List.flatMap_def,
        List.attach_map_val (f := fun f => t.dumpFrom f (callstack ++ [f]))]
      congr 1
      apply List.map_congr_left
      intro f hf
      rw [ih f hf, List.map_append, List.map_singleton]

/-- A dump is the lines of the records. -/
theorem dump_eq (t : CallFrameTree) :
    t.dump = (t.records.map lineOf).flatMap (· ++ ['\n']) := by
  rw [dump, dumpFrom_eq, List.flatMap_map]
  rfl

/-- Trees of the same shape have the same records. -/
theorem recordsFrom_congr {t t' : CallFrameTree} {a a' : Nat}
    (h : t.shapeFrom a = t'.shapeFrom a') (names : List Str) :
    t.recordsFrom a names = t'.recordsFrom a' names := by
  induction a using t.frames_induction generalizing a' names with
  | h a ih =>
      rw [shapeFrom_eq, shapeFrom_eq] at h
      obtain ⟨hlabel, hframes⟩ := Rose.node.inj h
      obtain ⟨hname, hcount, hbase⟩ : (t.node a).name = (t'.node a').name ∧
          (t.node a).count = (t'.node a').count ∧
          (t.node a).baseCount = (t'.node a').baseCount := by grind
      rw [recordsFrom_eq, recordsFrom_eq, ownRecord, ownRecord, hbase]
      congr 1
      rw [List.flatMap_def, List.flatMap_def]
      congr 1
      apply map_eq_of_forall₂ (forall₂_of_map_eq hframes)
      intro f hf g hg hfg
      have hfg := hfg.2.2
      have hnames : (t.node f).name = (t'.node g).name := by
        rw [shapeFrom_eq, shapeFrom_eq] at hfg
        have := (Rose.node.inj hfg).1
        grind
      rw [hnames]
      exact ih f hf hfg _

end CallFrameTree

open CallFrameTree

/-! ## Where a record is -/

section Records

variable {t : CallFrameTree} {path : Nat → List Str} {samples : List (List Str × Int)} {a b f : Nat}
  {n : CallFrameNode}

theorem mem_ownRecord {names : List Str} {r : List Str × Int} :
    r ∈ t.ownRecord a names ↔ r = (names, (t.node a).baseCount) ∧ 0 < (t.node a).baseCount := by
  rw [ownRecord]
  split
  next hpos => simp [hpos]
  next hpos => simp [hpos]

/-- The names of a record go on from those of the node. -/
theorem prefix_of_mem_recordsFrom {names : List Str} {r : List Str × Int}
    (hr : r ∈ t.recordsFrom a names) : names <+: r.1 := by
  induction a using t.frames_induction generalizing names with
  | h a ih =>
      rw [recordsFrom_eq] at hr
      rcases List.mem_append.mp hr with hown | hbelow
      · rw [(mem_ownRecord.mp hown).1]
      · obtain ⟨f, hf, hr⟩ := List.mem_flatMap.mp hbelow
        exact (List.prefix_append _ _).trans (ih f hf hr)

theorem path_frames (hw : Wired t.heap path) (ha : t.heap.cell a = some n) (hf : f ∈ t.frames a) :
    (∃ m, t.heap.cell f = some m) ∧ path f = path a ++ [(t.node f).name] := by
  rw [frames_of_cell ha] at hf
  obtain ⟨m, hm, -, -, hpath⟩ := hw.kid a n f ha hf
  refine ⟨⟨m, hm⟩, ?_⟩
  rw [hpath, node_of_cell hm]

theorem nodup_frames_of_cell (hw : Wired t.heap path) (ha : t.heap.cell a = some n) :
    (t.frames a).Nodup := by
  rw [frames_of_cell ha]
  exact (hw.distinct a n ha).of_map

/-- Of the records at and below a node, those that go on from a child are below that child. -/
theorem filter_recordsFrom_child (hw : Wired t.heap path) (ha : t.heap.cell a = some n)
    (hf : f ∈ t.frames a) :
    (t.recordsFrom a (path a)).filter (fun r => path f <+: r.1) = t.recordsFrom f (path f) := by
  have hown : (t.ownRecord a (path a)).filter (fun r => path f <+: r.1) = [] := by
    rw [List.filter_eq_nil_iff]
    intro r hr hpre
    rw [(mem_ownRecord.mp hr).1] at hpre
    have hlen : (path f).length ≤ (path a).length := (of_decide_eq_true hpre).length_le
    rw [(path_frames hw ha hf).2, List.length_append, List.length_singleton] at hlen
    omega
  have hself : (t.recordsFrom f (path a ++ [(t.node f).name])).filter (fun r => path f <+: r.1)
      = t.recordsFrom f (path f) := by
    rw [← (path_frames hw ha hf).2, List.filter_eq_self]
    intro r hr
    exact decide_eq_true (prefix_of_mem_recordsFrom hr)
  have hother : ∀ g ∈ t.frames a, g ≠ f →
      (t.recordsFrom g (path a ++ [(t.node g).name])).filter (fun r => path f <+: r.1) = [] := by
    intro g hg hgf
    obtain ⟨⟨m, hm⟩, hpath⟩ := path_frames hw ha hf
    obtain ⟨⟨k, hk⟩, hpath'⟩ := path_frames hw ha hg
    rw [← hpath', List.filter_eq_nil_iff]
    intro r hr hpre
    -- two prefixes of the same length are the same
    have hlen : (path f).length = (path g).length := by
      rw [hpath, hpath', List.length_append, List.length_append]
      rfl
    have hsame := List.prefix_of_prefix_length_le (of_decide_eq_true hpre)
      (prefix_of_mem_recordsFrom hr) hlen.le
    exact hgf (hw.path_inj hm hk (hsame.eq_of_length hlen)).symm
  rw [recordsFrom_eq, List.filter_append, hown, List.nil_append, List.filter_flatMap,
    flatMap_eq_of_unique (nodup_frames_of_cell hw ha) hf hother, hself]

/-- Of all records, those that go on from a node are at and below it. -/
theorem filter_records (hw : Wired t.heap path) (ha : t.heap.cell a = some n) :
    t.records.filter (fun r => path a <+: r.1) = t.recordsFrom a (path a) := by
  induction a using Nat.strong_induction_on generalizing n with
  | _ a ih =>
      by_cases h0 : a = 0
      · subst h0
        rw [hw.path_root, List.filter_eq_self.mpr fun r _ => decide_eq_true List.nil_prefix]
        rfl
      · obtain ⟨b, m, hb, hmem⟩ := hw.hangs a n ha h0
        obtain ⟨-, -, -, hlt, -⟩ := hw.kid b m a hb hmem
        have hframes : a ∈ t.frames b := by rwa [frames_of_cell hb]
        have hpre : path b <+: path a := by
          rw [(path_frames hw hb hframes).2]
          exact List.prefix_append _ _
        rw [← filter_recordsFrom_child hw hb hframes, ← ih b hlt hb, List.filter_filter]
        apply List.filter_congr
        intro r _
        rw [eq_comm, Bool.and_eq_left_iff_imp, decide_eq_true_eq, decide_eq_true_eq]
        exact hpre.trans

/-- Every record is at some node. -/
theorem exists_of_mem_recordsFrom (hw : Wired t.heap path) (ha : t.heap.cell a = some n)
    {r : List Str × Int} (hr : r ∈ t.recordsFrom a (path a)) :
    ∃ b m, t.heap.cell b = some m ∧ r = (path b, m.baseCount) ∧ 0 < m.baseCount := by
  induction a using t.frames_induction generalizing n with
  | h a ih =>
      rw [recordsFrom_eq] at hr
      rcases List.mem_append.mp hr with hown | hbelow
      · obtain ⟨heq, hpos⟩ := mem_ownRecord.mp hown
        rw [node_of_cell ha] at heq hpos
        exact ⟨a, n, ha, heq, hpos⟩
      · obtain ⟨f, hf, hr⟩ := List.mem_flatMap.mp hbelow
        obtain ⟨⟨m, hm⟩, hpath⟩ := path_frames hw ha hf
        rw [← hpath] at hr
        exact ih f hf hm hr

/-- The weight of the records of one name list is the base count of the node there. -/
theorem tally_records (hw : Wired t.heap path) (ha : t.heap.cell a = some n)
    (hbase : 0 ≤ n.baseCount) : tally (· = path a) t.records = n.baseCount := by
  have hbelow : tally (· = path a) ((t.frames a).flatMap fun f =>
      t.recordsFrom f (path a ++ [(t.node f).name])) = 0 := by
    apply tally_eq_zero
    intro r hr heq
    obtain ⟨f, hf, hr⟩ := List.mem_flatMap.mp hr
    have hlen := (prefix_of_mem_recordsFrom hr).length_le
    rw [heq, List.length_append, List.length_singleton] at hlen
    omega
  have hfilter : tally (· = path a) t.records = tally (· = path a) (t.recordsFrom a (path a)) := by
    rw [← filter_records hw ha, tally, tally, List.filter_filter]
    congr 2
    apply List.filter_congr
    intro r _
    rw [eq_comm, Bool.and_eq_left_iff_imp, decide_eq_true_eq, decide_eq_true_eq]
    rintro heq
    rw [heq]
  rw [hfilter, recordsFrom_eq, tally_append, hbelow, add_zero, ownRecord, node_of_cell ha]
  split
  next => rw [tally_cons, if_pos rfl, tally_nil, add_zero]
  next hpos => rw [tally_nil]; omega

end Records

/-! ## The records carry the profile -/

section Profile

variable {t : CallFrameTree} {path : Nat → List Str} {samples : List (List Str × Int)} {a f : Nat}
  {n : CallFrameNode}

/-- There is a node for every stack. -/
theorem exists_node_of_mem (hp : Profile samples t.heap path) {s : List Str × Int}
    (hs : s ∈ samples) : ∃ b m, t.heap.cell b = some m ∧ path b = s.1 := by
  obtain ⟨root, hroot, -⟩ := hp.wired.root
  have hpre : path 0 ++ s.1 <+: s.1 := by rw [hp.wired.path_root, List.nil_append]
  obtain ⟨b, m, -, hm, hpath⟩ := nodesAt_of_visited hp hroot (.inr ⟨s, hs, hpre⟩)
  rw [hp.wired.path_root, List.nil_append] at hpath
  exact ⟨b, m, hm, hpath⟩

theorem baseCount_eq (hp : Profile samples t.heap path) (hne : ∀ s ∈ samples, s.1 ≠ [])
    (ha : t.heap.cell a = some n) : n.baseCount = tally (· = path a) samples := by
  rw [hp.baseCount a n ha]
  split
  next hroot =>
    rw [hroot]
    exact (tally_eq_zero hne).symm
  next => rfl

/-- **The records have the samples' stacks, with the same totals.** -/
theorem records_same (hp : Profile samples t.heap path) (hne : ∀ s ∈ samples, s.1 ≠ [])
    (hpos : ∀ s ∈ samples, 0 < s.2) : SameProfile samples t.records := by
  obtain ⟨root, hroot, -⟩ := hp.wired.root
  have htotal : ∀ a n, t.heap.cell a = some n →
      tally (· = path a) samples = tally (· = path a) t.records := by
    intro a n ha
    have hbase := baseCount_eq hp hne ha
    have hnonneg : 0 ≤ n.baseCount := by
      rw [hbase]
      exact tally_nonneg fun s hs => (hpos s hs).le
    rw [tally_records hp.wired ha hnonneg, hbase]
  have hrecord : ∀ r ∈ t.records, ∃ b m, t.heap.cell b = some m ∧ r = (path b, m.baseCount) ∧
      0 < m.baseCount := by
    intro r hr
    apply exists_of_mem_recordsFrom hp.wired hroot
    rw [hp.wired.path_root]
    exact hr
  constructor
  · intro s
    constructor
    · intro hs
      obtain ⟨x, hx, rfl⟩ := List.mem_map.mp hs
      obtain ⟨b, m, hm, hpath⟩ := exists_node_of_mem hp hx
      have hweight : 0 < tally (· = path b) samples := tally_pos hpos ⟨x, hx, hpath.symm⟩
      rw [htotal b m hm] at hweight
      obtain ⟨r, hr, heq⟩ := exists_of_tally_ne_zero hweight.ne'
      exact List.mem_map.mpr ⟨r, hr, heq.trans hpath⟩
    · intro hs
      obtain ⟨r, hr, rfl⟩ := List.mem_map.mp hs
      obtain ⟨b, m, hm, rfl, hbase⟩ := hrecord r hr
      rw [baseCount_eq hp hne hm] at hbase
      obtain ⟨x, hx, heq⟩ := exists_of_tally_ne_zero hbase.ne'
      exact List.mem_map.mpr ⟨x, hx, heq⟩
  · intro s
    by_cases hlive : ∃ a n, t.heap.cell a = some n ∧ path a = s
    · obtain ⟨a, n, ha, rfl⟩ := hlive
      exact htotal a n ha
    · rw [tally_eq_zero, tally_eq_zero]
      · rintro r hr rfl
        obtain ⟨b, m, hm, rfl, -⟩ := hrecord r hr
        exact hlive ⟨b, m, hm, rfl⟩
      · rintro x hx rfl
        exact hlive (exists_node_of_mem hp hx)

/-- **The order of the children is kept**: the records go on from a node in the order of its
children. -/
theorem nextNames_records (hp : Profile samples t.heap path) (hne : ∀ s ∈ samples, s.1 ≠ [])
    (hpos : ∀ s ∈ samples, 0 < s.2) (ha : t.heap.cell a = some n) :
    (t.records.filterMap fun r => nextName (path a) r.1).eraseDups
      = (t.frames a).map fun f => (t.node f).name := by
  have hrestrict : t.records.filterMap (fun r => nextName (path a) r.1)
      = (t.recordsFrom a (path a)).filterMap fun r => nextName (path a) r.1 := by
    rw [← filter_records hp.wired ha, List.filterMap_filter]
    apply List.filterMap_congr
    intro r _
    by_cases hpre : path a <+: r.1
    · simp [hpre]
    · simp [hpre, nextName]
  have hown : (t.ownRecord a (path a)).filterMap (fun r => nextName (path a) r.1) = [] := by
    rw [List.filterMap_eq_nil_iff]
    intro r hr
    rw [(mem_ownRecord.mp hr).1, nextName, if_pos List.prefix_rfl, List.drop_length]
    rfl
  have hchild : ∀ f ∈ t.frames a,
      (t.recordsFrom f (path a ++ [(t.node f).name])).filterMap (fun r => nextName (path a) r.1)
        = List.replicate (t.recordsFrom f (path a ++ [(t.node f).name])).length (t.node f).name := by
    intro f hf
    rw [← List.map_const', ← List.filterMap_eq_map]
    apply List.filterMap_congr
    intro r hr
    exact nextName_eq_some.mpr (prefix_of_mem_recordsFrom hr)
  rw [hrestrict, recordsFrom_eq, List.filterMap_append, hown, List.nil_append,
    List.filterMap_flatMap, List.flatMap_def, List.map_congr_left hchild, ← List.flatMap_def]
  apply eraseDups_runs
  · rw [frames_of_cell ha]
    exact hp.wired.distinct a n ha
  · -- some stack goes on by this child, so there is a record below it
    intro f hf
    obtain ⟨⟨m, hm⟩, hpath⟩ := path_frames hp.wired ha hf
    rw [← hpath, List.length_pos_iff, ← filter_records hp.wired hm]
    rw [frames_of_cell ha] at hf
    obtain ⟨s, hs, hpre⟩ := (hp.child_iff ha).mp ⟨f, hf, rfl⟩
    obtain ⟨r, hr, heq⟩ := List.mem_map.mp
      (((records_same hp hne hpos).keys s.1).mp (List.mem_map_of_mem hs))
    have hbelow : path f <+: r.1 := by
      rw [heq, hpath]
      exact hpre
    exact List.ne_nil_of_mem (List.mem_filter.mpr ⟨hr, decide_eq_true hbelow⟩)

end Profile

/-! ## The same tree -/

section Shape

variable {t t' : CallFrameTree} {path path' : Nat → List Str}
  {samples samples' : List (List Str × Int)} {a b : Nat}

/-- Samples with the same profile that go on from every node in the same order make the same tree. -/
theorem Mirror.shapeFrom_eq (hp : Profile samples t.heap path) (hp' : Profile samples' t'.heap path')
    (hsame : SameProfile samples samples')
    (horder : ∀ a n, t.heap.cell a = some n →
      (samples.filterMap fun s => nextName (path a) s.1).eraseDups
        = (samples'.filterMap fun s => nextName (path a) s.1).eraseDups)
    (hm : Mirror t t' path path' a b) : t.shapeFrom a = t'.shapeFrom b := by
  induction a using t.frames_induction generalizing b with
  | h a ih =>
      obtain ⟨n, hn⟩ := hm.left
      obtain ⟨n', hn'⟩ := hm.right
      have hbase : (t.node a).baseCount = (t'.node b).baseCount := by
        rw [node_of_cell hn, node_of_cell hn', hp.baseCount a n hn, hp'.baseCount b n' hn', hm.path,
          hsame.totals]
      have hnames : (t.frames a).map (fun f => (t.node f).name)
          = (t'.frames b).map fun f => (t'.node f).name := by
        have hleft := hp.names a n hn
        have hright := hp'.names b n' hn'
        rw [← frames_of_cell hn] at hleft
        rw [← frames_of_cell hn', ← hm.path, ← horder a n hn] at hright
        exact hleft.trans hright.symm
      rw [CallFrameTree.shapeFrom_eq, CallFrameTree.shapeFrom_eq, hm.name hp.wired hp'.wired,
        hm.count hsame hp hp', hbase]
      congr 1
      apply map_eq_of_forall₂ (forall₂_of_map_eq hnames)
      intro f hf g hg hfg
      obtain ⟨hf', hpath⟩ := path_frames hp.wired hn hf
      obtain ⟨hg', hpath'⟩ := path_frames hp'.wired hn' hg
      apply ih f hf
      exact ⟨hf', hg', by rw [hpath, hpath', hm.path, hfg.2.2]⟩

/-- **The records of a tree make the same tree again.** -/
theorem shape_ofSamples_records (hne : ∀ s ∈ samples, s.1 ≠ []) (hpos : ∀ s ∈ samples, 0 < s.2) :
    (CallFrameTree.ofSamples (CallFrameTree.ofSamples samples).records).shape
      = (CallFrameTree.ofSamples samples).shape := by
  obtain ⟨path, hp⟩ := ofSamples_profile samples
  obtain ⟨path', hp'⟩ := ofSamples_profile (CallFrameTree.ofSamples samples).records
  symm
  refine (mirror_head hp.wired hp'.wired).shapeFrom_eq hp hp' (records_same hp hne hpos) ?_
  intro a n ha
  rw [nextNames_records hp hne hpos ha, ← hp.names a n ha, frames_of_cell ha]
  rfl

end Shape

end LdbToolchain.Tfg
