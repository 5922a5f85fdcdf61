import LdbToolchain.Tfg.Tallied

/-!
# The call tree as the aggregate of the samples

From the record of all visits to the samples themselves: a path is visited once by every stack it is
a prefix of. `Profile` states the content of every node in these terms, `Aggregates` that of every
path, and `ofSamples_aggregates` says that the call tree of a list of samples is its aggregate.
-/

namespace LdbToolchain.Tfg

/-- The name that follows the prefix `p` in the stack `s`. -/
def nextName (p s : List Str) : Option Str := if p <+: s then (s.drop p.length).head? else none

theorem nextName_eq_some {p s : List Str} {name : Str} :
    nextName p s = some name ↔ p ++ [name] <+: s := by
  unfold nextName
  constructor
  · intro h
    split at h
    · next hp =>
        obtain ⟨rest, rfl⟩ := hp
        rw [List.drop_left] at h
        cases rest with
        | nil => cases h
        | cons x xs =>
            cases h
            exact ⟨xs, by simp⟩
    · cases h
  · rintro ⟨rest, rfl⟩
    have hp : p <+: p ++ [name] ++ rest := ⟨[name] ++ rest, by simp⟩
    rw [if_pos hp, List.append_assoc, List.drop_left]
    rfl

/-! ## The visits of one sample -/

theorem visits_eq_inits (pre s : List Str) (count : Int) :
    (pre, count) :: visits pre s count = s.inits.map fun p => (pre ++ p, count) := by
  induction s generalizing pre with
  | nil => simp [visits]
  | cons x s ih =>
      have hrest := ih (pre ++ [x])
      rw [List.inits_cons, List.map_cons, List.append_nil, List.map_map]
      show (pre, count) :: (pre ++ [x], count) :: visits (pre ++ [x]) s count = _
      rw [hrest]
      congr 1
      apply List.map_congr_left
      intro p _
      show _ = (pre ++ x :: p, count)
      rw [List.append_assoc, List.singleton_append]

theorem tally_inits (p s : List Str) (count : Int) :
    tally (· = p) (s.inits.map fun q => (q, count)) = if p <+: s then count else 0 := by
  induction s generalizing p with
  | nil =>
      rw [List.inits, List.map_singleton, tally_cons, tally_nil, add_zero]
      simp only [List.prefix_nil, eq_comm]
  | cons x s ih =>
      rw [List.inits_cons, List.map_cons, tally_cons, List.map_map]
      have hmap : (s.inits.map ((fun q => (q, count)) ∘ fun t => x :: t))
          = (s.inits.map fun q => (q, count)).map fun y => (x :: y.1, y.2) := by
        rw [List.map_map]
        rfl
      rw [hmap, tally_map]
      cases p with
      | nil =>
          rw [if_pos rfl, if_pos List.nil_prefix, tally_eq_zero (by simp), add_zero]
      | cons y p =>
          rw [if_neg (by simp), zero_add]
          simp only [List.cons_prefix_cons]
          by_cases hxy : x = y
          · subst hxy
            simp only [List.cons.injEq, true_and]
            exact ih p
          · rw [if_neg fun h => hxy h.1.symm]
            apply tally_eq_zero
            intro z _ hz
            exact hxy (List.cons.inj hz).1

theorem childName_nil (p : List Str) : childName p [] = none := by
  unfold childName
  split <;> rfl

theorem childName_cons_cons (x y : Str) (p q : List Str) :
    childName (y :: p) (x :: q) = if x = y then childName p q else none := by
  cases q with
  | nil =>
      rw [childName_nil, ite_self]
      rfl
  | cons z q =>
      unfold childName
      rw [List.dropLast_cons_cons, List.getLast?_cons_cons]
      by_cases hxy : x = y
      · simp only [hxy, List.cons.injEq, true_and, if_true]
      · simp only [hxy, List.cons.injEq, false_and, if_false]

theorem childName_nil_cons (x : Str) (q : List Str) :
    childName [] (x :: q) = if q = [] then some x else none := by
  cases q with
  | nil => rfl
  | cons y q => simp [childName]

/-- Only the first of the prefixes is empty. -/
theorem filterMap_inits_first (x : Str) (s : List Str) :
    s.inits.filterMap (fun q => if q = [] then some x else none) = [x] := by
  cases s with
  | nil => rfl
  | cons y s =>
      have hrest : (s.inits.map fun t => y :: t).filterMap
          (fun q => if q = [] then some x else none) = [] := by
        rw [List.filterMap_eq_nil_iff]
        intro q hq
        obtain ⟨t, -, rfl⟩ := List.mem_map.mp hq
        exact if_neg (List.cons_ne_nil y t)
      rw [List.inits_cons, List.filterMap_cons, if_pos rfl, hrest]

/-- **One prefix at most gives the next name**: the one that goes on from `p` by one. -/
theorem filterMap_inits (p s : List Str) :
    s.inits.filterMap (childName p) = (nextName p s).toList := by
  induction s generalizing p with
  | nil =>
      have hnext : nextName p [] = none := by
        unfold nextName
        simp
      rw [List.inits, List.filterMap_cons_none (childName_nil p), List.filterMap_nil, hnext]
      rfl
  | cons x s ih =>
      rw [List.inits_cons, List.filterMap_cons_none (childName_nil p), List.filterMap_map]
      cases p with
      | nil =>
          have hfirst : (childName [] ∘ fun t => x :: t)
              = fun q => if q = [] then some x else none := by
            funext q
            exact childName_nil_cons x q
          rw [hfirst, filterMap_inits_first]
          rfl
      | cons y p =>
          have hbelow : (childName (y :: p) ∘ fun t => x :: t)
              = fun q => if x = y then childName p q else none := by
            funext q
            exact childName_cons_cons x y p q
          rw [hbelow]
          by_cases hxy : x = y
          · subst hxy
            simp only [if_true]
            rw [ih p]
            congr 1
            unfold nextName
            simp [List.cons_prefix_cons]
          · have hnext : nextName (y :: p) (x :: s) = none := by
              unfold nextName
              rw [if_neg]
              intro h
              exact hxy (List.cons_prefix_cons.mp h).1.symm
            simp only [hxy, if_false, hnext]
            simp

/-! ## All samples -/

variable {samples : List (List Str × Int)}

theorem allVisits_cons (s : List Str × Int) (samples : List (List Str × Int)) :
    allVisits (s :: samples) = (s.1.inits.map fun p => (p, s.2)) ++ allVisits samples := by
  unfold allVisits
  rw [List.flatMap_cons, visits_eq_inits]
  rfl

/-- A path is visited once by every stack it is a prefix of. -/
theorem tally_allVisits (p : List Str) (samples : List (List Str × Int)) :
    tally (· = p) (allVisits samples) = tally (p <+: ·) samples := by
  induction samples with
  | nil => rfl
  | cons s samples ih => rw [allVisits_cons, tally_append, tally_inits, tally_cons, ih]

theorem tally_allEnds (p : List Str) (samples : List (List Str × Int)) :
    tally (· = p) (allEnds samples) = if p = [] then 0 else tally (· = p) samples := by
  have hne : ∀ x ∈ allEnds samples, x.1 ≠ [] := by
    intro x hx
    simpa using (List.mem_filter.mp hx).2
  by_cases hp : p = []
  · rw [if_pos hp]
    apply tally_eq_zero
    intro x hx hxp
    exact hne x hx (hxp.trans hp)
  · rw [if_neg hp]
    unfold tally allEnds
    rw [List.filter_filter]
    congr 2
    apply List.filter_congr
    intro x _
    by_cases hxp : x.1 = p
    · simp [hxp, hp]
    · simp [hxp]

theorem filterMap_allVisits (p : List Str) (samples : List (List Str × Int)) :
    ((allVisits samples).map Prod.fst).filterMap (childName p)
      = samples.filterMap fun s => nextName p s.1 := by
  induction samples with
  | nil => rfl
  | cons s samples ih =>
      have hinits : (s.1.inits.map fun p => (p, s.2)).map Prod.fst = s.1.inits := by
        rw [List.map_map]
        exact List.map_id _
      rw [allVisits_cons, List.map_append, List.filterMap_append, ih, hinits, filterMap_inits,
        List.filterMap_cons]
      cases nextName p s.1 <;> rfl

/-- The content of every node, in terms of the samples and its path. -/
structure Profile (samples : List (List Str × Int)) (h : CallHeap) (path : Nat → List Str) :
    Prop where
  wired : Wired h path
  count : ∀ a n, h.cell a = some n → n.count = tally (path a <+: ·) samples
  baseCount : ∀ a n, h.cell a = some n →
    n.baseCount = if path a = [] then 0 else tally (· = path a) samples
  names : ∀ a n, h.cell a = some n →
    n.frames.map (fun f => (frameAt h f).name)
      = (samples.filterMap fun s => nextName (path a) s.1).eraseDups

theorem ofSamples_profile (samples : List (List Str × Int)) :
    ∃ path, Profile samples (CallFrameTree.ofSamples samples).heap path := by
  obtain ⟨path, hr⟩ := ofSamples_recorded samples
  refine ⟨path, hr.wired, ?_, ?_, ?_⟩
  · intro a n ha
    rw [(hr.counted a n ha).1, tally_allVisits]
  · intro a n ha
    rw [(hr.counted a n ha).2, tally_allEnds]
  · intro a n ha
    rw [hr.named.names a n ha, filterMap_allVisits]

namespace Profile

variable {h : CallHeap} {path : Nat → List Str} {a b f : Nat} {n m : CallFrameNode} {name : Str}

/-- A node has a child of a name exactly when some stack goes on that way. -/
theorem child_iff (hp : Profile samples h path) (ha : h.cell a = some n) :
    (∃ f ∈ n.frames, (frameAt h f).name = name) ↔ ∃ s ∈ samples, path a ++ [name] <+: s.1 := by
  rw [← List.mem_map, hp.names a n ha, List.mem_eraseDups, List.mem_filterMap]
  simp only [nextName_eq_some]

/-- A stack that goes on from a node either ends there or has a next name. -/
theorem prefix_iff (p s : List Str) : p <+: s ↔ s = p ∨ (nextName p s).isSome = true := by
  constructor
  · rintro ⟨rest, rfl⟩
    cases rest with
    | nil => exact .inl (List.append_nil p)
    | cons x rest =>
        refine .inr (Option.isSome_iff_exists.mpr ⟨x, nextName_eq_some.mpr ⟨rest, ?_⟩⟩)
        rw [List.append_assoc, List.singleton_append]
  · intro h
    rcases h with rfl | h
    · exact List.prefix_rfl
    · obtain ⟨name, hname⟩ := Option.isSome_iff_exists.mp h
      exact (List.prefix_append p [name]).trans (nextName_eq_some.mp hname)

/-- The samples of the children are those that go on from the node. -/
theorem sum_children (hp : Profile samples h path) (ha : h.cell a = some n) :
    (n.frames.map fun f => (frameAt h f).count).sum
      = tally (fun s => (nextName (path a) s).isSome = true) samples := by
  have hchild : ∀ f ∈ n.frames, (frameAt h f).count
      = tally (fun s => nextName (path a) s = some (frameAt h f).name) samples := by
    intro f hf
    obtain ⟨m, hm, -, -, hpath⟩ := hp.wired.kid a n f ha hf
    rw [frameAt_of_cell hm, hp.count f m hm, hpath]
    apply tally_congr
    intro x _
    exact nextName_eq_some.symm
  rw [List.map_congr_left hchild]
  have hnames : n.frames.map (fun f =>
      tally (fun s => nextName (path a) s = some (frameAt h f).name) samples)
      = (n.frames.map fun f => (frameAt h f).name).map fun k =>
          tally (fun s => nextName (path a) s = some k) samples := by
    rw [List.map_map]
    rfl
  rw [hnames, sum_tally_fibers (nextName (path a)) (hp.wired.distinct a n ha)]
  intro x hx k hk
  rw [hp.names a n ha, List.mem_eraseDups, List.mem_filterMap]
  exact ⟨x, hx, hk⟩

/-- A node's count splits into the samples of its own path and those of the children. -/
theorem count_eq_tally (hp : Profile samples h path) (ha : h.cell a = some n) :
    n.count = tally (· = path a) samples + (n.frames.map fun f => (frameAt h f).count).sum := by
  rw [hp.count a n ha, hp.sum_children ha, tally_add]
  · apply tally_congr
    intro x _
    exact prefix_iff (path a) x.1
  · rintro s ⟨hs, hnext⟩
    obtain ⟨name, hname⟩ := Option.isSome_iff_exists.mp hnext
    have hlen := (nextName_eq_some.mp hname).length_le
    rw [hs, List.length_append, List.length_singleton] at hlen
    omega

/-- A node's count splits into the samples that end there and those of the children. -/
theorem count_eq (hp : Profile samples h path) (ha : h.cell a = some n)
    (hne : ∀ s ∈ samples, s.1 ≠ []) :
    n.count = n.baseCount + (n.frames.map fun f => (frameAt h f).count).sum := by
  have hbase : n.baseCount = tally (· = path a) samples := by
    rw [hp.baseCount a n ha]
    split
    · next hroot =>
        rw [hroot]
        exact (tally_eq_zero fun x hx => hne x hx).symm
    · rfl
  rw [hbase, hp.count_eq_tally ha]

end Profile

/-- No count is negative, and the counts of the children add up to no more than the parent's. -/
def CallFrameTree.Weighted (t : CallFrameTree) : Prop :=
  ∀ a, 0 ≤ (t.node a).count ∧
    ((t.frames a).map fun f => (t.node f).count).sum ≤ (t.node a).count

theorem tally_nonneg {P : List Str → Prop} [DecidablePred P]
    (hnonneg : ∀ s ∈ samples, 0 ≤ s.2) : 0 ≤ tally P samples := by
  unfold tally
  apply List.sum_nonneg
  intro x hx
  obtain ⟨s, hs, rfl⟩ := List.mem_map.mp hx
  exact hnonneg s (List.mem_filter.mp hs).1

/-- **Weights**: the call tree of stacks with non-negative counts is weighted. -/
theorem ofSamples_weighted_of_nonneg (hnonneg : ∀ s ∈ samples, 0 ≤ s.2) :
    (CallFrameTree.ofSamples samples).Weighted := by
  obtain ⟨path, hp⟩ := ofSamples_profile samples
  intro a
  unfold CallFrameTree.frames CallFrameTree.node
  cases ha : (CallFrameTree.ofSamples samples).heap.cell a with
  | none =>
      have hblank : frameAt (CallFrameTree.ofSamples samples).heap a = .init [] none := by
        unfold frameAt
        rw [ha]
        rfl
      rw [hblank]
      exact ⟨le_rfl, le_rfl⟩
  | some n =>
      rw [frameAt_of_cell ha]
      constructor
      · rw [hp.count a n ha]
        exact tally_nonneg hnonneg
      · have hown : 0 ≤ tally (· = path a) samples := tally_nonneg hnonneg
        rw [hp.count_eq_tally ha]
        omega

/-! ## Paths -/

section Paths

variable {t : CallFrameTree} {path : Nat → List Str} {a b : Nat} {n : CallFrameNode}

/-- Following the frames of a node. -/
theorem frames_of_cell (ha : t.heap.cell a = some n) : t.frames a = n.frames := by
  unfold CallFrameTree.frames CallFrameTree.node
  rw [frameAt_of_cell ha]

/-- What `nodesAt` finds is there, at that path. -/
theorem mem_nodesAt (hw : Wired t.heap path) {p : List Str} (ha : t.heap.cell a = some n)
    (hb : b ∈ t.nodesAt a p) : ∃ m, t.heap.cell b = some m ∧ path b = path a ++ p := by
  induction p generalizing a n with
  | nil =>
      rw [List.mem_singleton.mp hb]
      exact ⟨n, ha, (List.append_nil _).symm⟩
  | cons name p ih =>
      obtain ⟨f, hf, hb⟩ := List.mem_flatMap.mp hb
      obtain ⟨hmem, hname⟩ := List.mem_filter.mp hf
      rw [frames_of_cell ha] at hmem
      obtain ⟨k, hk, -, -, hpath⟩ := hw.kid a n f ha hmem
      obtain ⟨m, hm, hpathb⟩ := ih hk hb
      have hkname : k.name = name := by
        rw [← frameAt_of_cell hk]
        exact of_decide_eq_true hname
      refine ⟨m, hm, ?_⟩
      rw [hpathb, hpath, hkname, List.append_assoc, List.singleton_append]

/-- There is one node at a path that was visited. -/
theorem nodesAt_of_visited (hp : Profile samples t.heap path) {p : List Str}
    (ha : t.heap.cell a = some n) (hvisited : p = [] ∨ ∃ s ∈ samples, path a ++ p <+: s.1) :
    ∃ b m, t.nodesAt a p = [b] ∧ t.heap.cell b = some m ∧ path b = path a ++ p := by
  induction p generalizing a n with
  | nil => exact ⟨a, n, rfl, ha, (List.append_nil _).symm⟩
  | cons name p ih =>
      -- the next name leads to one child, and the rest of the path on from it
      obtain ⟨s, hs, hpre⟩ := hvisited.resolve_left (List.cons_ne_nil name p)
      rw [List.append_cons] at hpre
      have hfirst : path a ++ [name] <+: s.1 := (List.prefix_append _ p).trans hpre
      obtain ⟨f, hf, hname⟩ := (hp.child_iff ha).mpr ⟨s, hs, hfirst⟩
      obtain ⟨k, hk, -, -, hpath⟩ := hp.wired.kid a n f ha hf
      have hkname : k.name = name := by
        rw [← hname, frameAt_of_cell hk]
      obtain ⟨b, m, hnodes, hm, hpathb⟩ := ih hk (.inr ⟨s, hs, by rwa [hpath, hkname]⟩)
      have hfilter : (t.frames a).filter (fun f => (t.node f).name = name) = [f] := by
        rw [frames_of_cell ha, ← hname]
        exact filter_key_eq_singleton (hp.wired.distinct a n ha) hf
      refine ⟨b, m, ?_, hm, ?_⟩
      · rw [CallFrameTree.nodesAt, hfilter, List.flatMap_singleton, hnodes]
      · rw [hpathb, hpath, hkname, List.append_assoc, List.singleton_append]

/-- There is no node at a path that was not visited. -/
theorem nodesAt_of_not_visited (hp : Profile samples t.heap path) {p : List Str}
    (ha : t.heap.cell a = some n) (hne : p ≠ [])
    (hvisited : ¬ ∃ s ∈ samples, path a ++ p <+: s.1) : t.nodesAt a p = [] := by
  rw [List.eq_nil_iff_forall_not_mem]
  intro b hb
  -- a node found there would be the child of some node, so visited
  obtain ⟨m, hm, hpath⟩ := mem_nodesAt hp.wired ha hb
  have hb0 : b ≠ 0 := by
    intro h0
    rw [h0, hp.wired.path_root] at hpath
    exact hne (List.append_eq_nil_iff.mp hpath.symm).2
  obtain ⟨c, k, hc, hmem⟩ := hp.wired.hangs b m hm hb0
  obtain ⟨m', hm', -, -, hpathb⟩ := hp.wired.kid c k b hc hmem
  rw [hm] at hm'
  cases hm'
  obtain ⟨s, hs, hpre⟩ := (hp.child_iff hc).mp ⟨b, hmem, rfl⟩
  rw [frameAt_of_cell hm, ← hpathb, hpath] at hpre
  exact hvisited ⟨s, hs, hpre⟩

end Paths

/-! ## The aggregate -/

/-- The call tree `t` is the aggregate of the samples. -/
structure Aggregates (samples : List (List Str × Int)) (t : CallFrameTree) : Prop where
  /-- One node for every non-empty prefix of a stack, with the samples below and at its path. -/
  present : ∀ p ≠ [], (∃ s ∈ samples, p <+: s.1) → ∃ a, t.nodesAt t.head p = [a] ∧
    (t.node a).count = tally (p <+: ·) samples ∧ (t.node a).baseCount = tally (· = p) samples
  absent : ∀ p ≠ [], (¬ ∃ s ∈ samples, p <+: s.1) → t.nodesAt t.head p = []
  /-- Siblings have different names, in the order in which the samples first go that way. -/
  siblings : ∀ p, ∀ a ∈ t.nodesAt t.head p,
    ((t.frames a).map fun f => (t.node f).name).Nodup ∧
    (t.frames a).map (fun f => (t.node f).name)
      = (samples.filterMap fun s => nextName p s.1).eraseDups
  parent : ∀ p, ∀ a ∈ t.nodesAt t.head p, ∀ f ∈ t.frames a, (t.node f).parent = some a
  head : (t.node t.head).count = (samples.map Prod.snd).sum
  split : (∀ s ∈ samples, s.1 ≠ []) → ∀ p, ∀ a ∈ t.nodesAt t.head p,
    (t.node a).count = (t.node a).baseCount + ((t.frames a).map fun f => (t.node f).count).sum

/-- **The call tree of a list of samples is their aggregate.** -/
theorem ofSamples_aggregates (samples : List (List Str × Int)) :
    Aggregates samples (CallFrameTree.ofSamples samples) := by
  obtain ⟨path, hp⟩ := ofSamples_profile samples
  obtain ⟨root, hroot, -⟩ := hp.wired.root
  have hpath0 : ∀ p, path 0 ++ p = p := by
    intro p
    rw [hp.wired.path_root, List.nil_append]
  -- a node found from the head is there, at the path it was looked up at
  have hlive : ∀ p, ∀ a ∈ (CallFrameTree.ofSamples samples).nodesAt 0 p,
      ∃ n, (CallFrameTree.ofSamples samples).heap.cell a = some n ∧ path a = p := by
    intro p a ha
    obtain ⟨n, hn, hpath⟩ := mem_nodesAt hp.wired hroot ha
    exact ⟨n, hn, hpath.trans (hpath0 p)⟩
  constructor
  · intro p hne hvisited
    obtain ⟨b, m, hnodes, hm, hpath⟩ :=
      nodesAt_of_visited hp hroot (.inr (by rwa [hpath0]))
    rw [hpath0] at hpath
    refine ⟨b, hnodes, ?_, ?_⟩
    · show (frameAt _ b).count = _
      rw [frameAt_of_cell hm, hp.count b m hm, hpath]
    · show (frameAt _ b).baseCount = _
      rw [frameAt_of_cell hm, hp.baseCount b m hm, hpath, if_neg hne]
  · intro p hne hvisited
    have hnot : ¬ ∃ s ∈ samples, path 0 ++ p <+: s.1 := by rwa [hpath0]
    exact nodesAt_of_not_visited hp hroot hne hnot
  · intro p a ha
    obtain ⟨n, hn, hpath⟩ := hlive p a ha
    rw [frames_of_cell hn]
    exact ⟨hp.wired.distinct a n hn, hpath ▸ hp.names a n hn⟩
  · intro p a ha f hf
    obtain ⟨n, hn, -⟩ := hlive p a ha
    rw [frames_of_cell hn] at hf
    obtain ⟨m, hm, hparent, -⟩ := hp.wired.kid a n f hn hf
    show (frameAt _ f).parent = some a
    rw [frameAt_of_cell hm, hparent]
  · show (frameAt _ 0).count = _
    rw [frameAt_of_cell hroot, hp.count 0 root hroot, hp.wired.path_root]
    unfold tally
    simp
  · intro hne p a ha
    obtain ⟨n, hn, -⟩ := hlive p a ha
    rw [frames_of_cell hn]
    show (frameAt _ a).count = (frameAt _ a).baseCount + _
    rw [frameAt_of_cell hn]
    exact hp.count_eq hn hne

end LdbToolchain.Tfg
