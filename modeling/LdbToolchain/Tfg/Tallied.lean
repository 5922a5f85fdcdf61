import LdbToolchain.Lib.Tally
import LdbToolchain.Tfg.CallTree

/-!
# Counting visits

Adding a stack visits the head and then a node for each of its non-empty prefixes. A call tree is the
record of all visits so far: the count of a node is the tally of the visits at its path, its children
have the names that were visited below it, in the order of the first visit, and its base count
tallies the stacks that ended there. One step of `_insert_frame` adds one visit to the record
(`enterFrame_recorded`).
-/

namespace LdbToolchain.Tfg

/-- The last name of `q`, if the rest of it is `p`. -/
def childName (p q : List Str) : Option Str := if q.dropLast = p then q.getLast? else none

theorem childName_concat (p : List Str) (name : Str) : childName p (p ++ [name]) = some name := by
  unfold childName
  rw [List.dropLast_concat, if_pos rfl, List.getLast?_concat]

theorem childName_eq_some {p q : List Str} {name : Str} :
    childName p q = some name ↔ q = p ++ [name] := by
  constructor
  · intro h
    unfold childName at h
    split at h
    · next hp => rw [← hp, List.dropLast_append_getLast? name h]
    · cases h
  · rintro rfl
    exact childName_concat p name

/-- The children of every node have the names of the paths `N` below its own, oldest first. -/
structure Named (N : List (List Str)) (h : CallHeap) (path : Nat → List Str) : Prop where
  names : ∀ a n, h.cell a = some n →
    n.frames.map (fun f => (frameAt h f).name) = (N.filterMap (childName (path a))).eraseDups
  /-- Below the head, nothing is visited before what it hangs under. -/
  closed : ∀ q name, q ++ [name] ∈ N → q = [] ∨ q ∈ N

/-- The counts of every node tally the visits `V` at its path, and the ends `B`. -/
def Counted (V B : List (List Str × Int)) (h : CallHeap) (path : Nat → List Str) : Prop :=
  ∀ a n, h.cell a = some n → n.count = tally (· = path a) V ∧ n.baseCount = tally (· = path a) B

variable {h : CallHeap} {path : Nat → List Str} {N : List (List Str)}
  {V B : List (List Str × Int)} {a f : Nat} {n m : CallFrameNode} {name : Str}

/-! ## Names -/

theorem Named.modify_bump (hN : Named N h path) (f : Nat) (count base : Int) :
    Named N (h.modify f (.bump count base)) path where
  names := by
    intro b k hb
    obtain ⟨k', hk', hframes⟩ := exists_cell_of_bump hb
    simp only [frameAt_bump_name, hframes]
    exact hN.names b k' hk'
  closed := hN.closed

/-- The names below a path once another path was visited. -/
theorem filterMap_childName_concat (p q : List Str) (name : Str) :
    ((N ++ [p ++ [name]]).filterMap (childName q)).eraseDups =
      if q = p then
        if name ∈ N.filterMap (childName q) then (N.filterMap (childName q)).eraseDups
        else (N.filterMap (childName q)).eraseDups ++ [name]
      else (N.filterMap (childName q)).eraseDups := by
  rw [List.filterMap_append]
  split
  · next hqp =>
      subst hqp
      rw [List.filterMap_cons_some (childName_concat q name), List.filterMap_nil, eraseDups_concat]
  · next hqp =>
      have hnone : childName q (p ++ [name]) = none := by
        unfold childName
        rw [List.dropLast_concat, if_neg fun h => hqp h.symm]
      rw [List.filterMap_cons_none hnone, List.filterMap_nil, List.append_nil]

theorem mem_filterMap_childName {q : List Str} :
    name ∈ N.filterMap (childName q) ↔ q ++ [name] ∈ N := by
  rw [List.mem_filterMap]
  constructor
  · rintro ⟨p, hp, hname⟩
    exact childName_eq_some.mp hname ▸ hp
  · intro hmem
    exact ⟨_, hmem, childName_concat q name⟩

/-- A path was visited exactly when there is a child there. -/
theorem Named.visited_iff (hN : Named N h path) (ha : h.cell a = some n) :
    path a ++ [name] ∈ N ↔ ∃ f ∈ n.frames, (frameAt h f).name = name := by
  rw [← mem_filterMap_childName, ← List.mem_eraseDups, ← hN.names a n ha, List.mem_map]

theorem Named.visited (hN : Named N h path) (hw : Wired h path) (ha : h.cell a = some n) :
    path a = [] ∨ path a ∈ N := by
  by_cases h0 : a = 0
  · rw [h0]
    exact .inl hw.path_root
  · obtain ⟨b, k, hb, hmem⟩ := hw.hangs a n ha h0
    obtain ⟨n', hn', -, -, hpath⟩ := hw.kid b k a hb hmem
    rw [hpath]
    exact .inr ((hN.visited_iff hb).mpr ⟨a, hmem, by rw [frameAt_of_cell hn']⟩)

theorem Named.closed_concat (hN : Named N h path) (hw : Wired h path) (ha : h.cell a = some n)
    (name : Str) (q : List Str) (x : Str) (hq : q ++ [x] ∈ N ++ [path a ++ [name]]) :
    q = [] ∨ q ∈ N ++ [path a ++ [name]] := by
  have hbefore : q = [] ∨ q ∈ N := by
    rcases List.mem_append.mp hq with hq | hq
    · exact hN.closed q x hq
    · obtain ⟨rfl, -⟩ := List.append_inj' (List.mem_singleton.mp hq) rfl
      exact hN.visited hw ha
  exact hbefore.imp_right (List.mem_append_left _)

/-- A visit of an old node adds no name. -/
theorem Named.visit (hN : Named N h path) (hw : Wired h path) (ha : h.cell a = some n)
    (hf : f ∈ n.frames) (hm : h.cell f = some m) (hname : m.name = name) :
    Named (N ++ [path a ++ [name]]) h path where
  names := by
    intro b k hb
    rw [filterMap_childName_concat, hN.names b k hb]
    split
    · next hba =>
        have hsame := hw.path_inj hb ha hba
        subst hsame
        have hvisited := (hN.visited_iff ha).mpr ⟨f, hf, by rw [frameAt_of_cell hm, hname]⟩
        rw [if_pos (mem_filterMap_childName.mpr hvisited)]
    · rfl
  closed := hN.closed_concat hw ha name

/-- A new node adds its name at the end. -/
theorem Named.hang (hN : Named N h path) (hw : Wired h path) (ha : h.cell a = some n)
    (hnew : ∀ f ∈ n.frames, (frameAt h f).name ≠ name) :
    Named (N ++ [path a ++ [name]]) (hang h a name)
      (Function.update path h.next (path a ++ [name])) where
  names := by
    have hnotin : path a ++ [name] ∉ N := by
      rw [hN.visited_iff ha]
      rintro ⟨f, hf, hname⟩
      exact hnew f hf hname
    intro b k hb
    rw [filterMap_childName_concat]
    rcases cell_hang_cases ha hb with ⟨rfl, rfl⟩ | ⟨rfl, rfl⟩ | ⟨hba, hb⟩
    · -- nothing was visited below the new node
      have hempty : N.filterMap (childName (path a ++ [name])) = [] := by
        rw [List.eq_nil_iff_forall_not_mem]
        intro x hx
        rcases hN.closed _ x (mem_filterMap_childName.mp hx) with h0 | hmem
        · exact absurd h0 (by simp)
        · exact hnotin hmem
      rw [Function.update_self, if_neg (by simp), hempty]
      rfl
    · have hself : (frameAt (Tfg.hang h b name) h.next).name = name := by
        rw [frameAt_of_cell (cell_hang_next ha)]
        rfl
      rw [Function.update_of_ne (Heap.lt_next ha).ne, if_pos rfl,
        if_neg fun hx => hnotin (mem_filterMap_childName.mp hx), List.map_append,
        hw.names_hang ha name ha, hN.names b n ha, List.map_singleton, hself]
    · rw [Function.update_of_ne (Heap.lt_next hb).ne,
        if_neg fun hpath => hba (hw.path_inj hb ha hpath), hw.names_hang ha name hb]
      exact hN.names b k hb
  closed := hN.closed_concat hw ha name

/-! ## Counts -/

/-- Counting at a node, and at its end if `ends` says so. -/
theorem Counted.modify_bump (hC : Counted V B h path) (hw : Wired h path)
    (hm : h.cell f = some m) (count : Int) (ends : Prop) [Decidable ends] :
    Counted (V ++ [(path f, count)]) (B ++ if ends then [(path f, count)] else [])
      (h.modify f (.bump count (if ends then count else 0))) path := by
  intro b k hb
  rw [tally_append, tally_append, tally_cons, tally_nil, add_zero]
  rcases cell_bump_cases hb with ⟨rfl, k', hk', rfl⟩ | ⟨hbf, hb⟩
  · obtain ⟨hcount, hbase⟩ := hC b k' hk'
    refine ⟨?_, ?_⟩
    · rw [if_pos rfl, ← hcount]
      rfl
    · rw [← hbase]
      unfold CallFrameNode.bump
      split <;> simp [tally_cons]
  · have hpath : path f ≠ path b := fun hp => hbf (hw.path_inj hb hm hp.symm)
    obtain ⟨hcount, hbase⟩ := hC b k hb
    refine ⟨?_, ?_⟩
    · rw [if_neg hpath, add_zero, hcount]
    · rw [hbase]
      split <;> simp [tally_cons, hpath]

/-- A new node was never visited. -/
theorem Counted.hang (hC : Counted V B h path) (ha : h.cell a = some n)
    (hV : path a ++ [name] ∉ V.map Prod.fst) (hB : path a ++ [name] ∉ B.map Prod.fst) :
    Counted V B (hang h a name) (Function.update path h.next (path a ++ [name])) := by
  have hnever : ∀ l : List (List Str × Int), path a ++ [name] ∉ l.map Prod.fst →
      tally (· = path a ++ [name]) l = 0 := by
    intro l hl
    apply tally_eq_zero
    intro x hx hpath
    exact hl (hpath ▸ List.mem_map_of_mem hx)
  intro b k hb
  rcases cell_hang_cases ha hb with ⟨rfl, rfl⟩ | ⟨rfl, rfl⟩ | ⟨-, hb⟩
  · rw [Function.update_self, hnever V hV, hnever B hB]
    exact ⟨rfl, rfl⟩
  · rw [Function.update_of_ne (Heap.lt_next ha).ne]
    exact hC b n ha
  · rw [Function.update_of_ne (Heap.lt_next hb).ne]
    exact hC b k hb

/-! ## Records -/

/-- The heap is the record of the visits `V`, of which `B` ended a stack. -/
structure Recorded (V B : List (List Str × Int)) (h : CallHeap) (path : Nat → List Str) : Prop where
  wired : Wired h path
  named : Named (V.map Prod.fst) h path
  counted : Counted V B h path
  ends_visited : ∀ x ∈ B, x.1 ∈ V.map Prod.fst

/-- **A step adds one visit.** -/
theorem enterFrame_recorded (hr : Recorded V B h path) (ha : h.cell a = some n) (name : Str)
    (rest : List Str) (count : Int) :
    ∃ path' m,
      Recorded (V ++ [(path a ++ [name], count)])
        (B ++ if rest = [] then [(path a ++ [name], count)] else [])
        (enterFrame h a name rest count).2 path' ∧
      (enterFrame h a name rest count).2.cell (enterFrame h a name rest count).1 = some m ∧
      path' (enterFrame h a name rest count).1 = path a ++ [name] := by
  have hends : ∀ x ∈ B ++ (if rest = [] then [(path a ++ [name], count)] else []),
      x.1 ∈ (V ++ [(path a ++ [name], count)]).map Prod.fst := by
    intro x hx
    rw [List.map_append]
    rcases List.mem_append.mp hx with hx | hx
    · exact List.mem_append_left _ (hr.ends_visited x hx)
    · split at hx
      · rw [List.mem_singleton.mp hx]
        exact List.mem_append_right _ (List.mem_singleton_self _)
      · exact absurd hx List.not_mem_nil
  rcases hr.wired.enterFrame_cases ha name rest count with
    ⟨f, m, hmem, hm, hname, hpath, hstep⟩ | ⟨hnew, hstep⟩
  · have hcell := Heap.cell_modify_self h f (.bump count (if rest = [] then count else 0))
    rw [hm] at hcell
    have hnamed := hr.named.visit hr.wired ha hmem hm hname
    have hcounted := hr.counted.modify_bump hr.wired hm count (rest = [])
    rw [hpath] at hcounted
    rw [hstep]
    refine ⟨path, _, ⟨hr.wired.modify_bump f _ _, ?_, hcounted, hends⟩, hcell, hpath⟩
    rw [List.map_append]
    exact hnamed.modify_bump f _ _
  · have hself : (Tfg.hang h a name).cell h.next = _ := cell_hang_next ha
    have hcell := Heap.cell_modify_self (Tfg.hang h a name) h.next
      (.bump count (if rest = [] then count else 0))
    rw [hself] at hcell
    have hV : path a ++ [name] ∉ V.map Prod.fst := by
      rw [hr.named.visited_iff ha]
      rintro ⟨f, hf, hname⟩
      exact hnew f hf hname
    have hB : path a ++ [name] ∉ B.map Prod.fst := by
      intro hmem
      obtain ⟨x, hx, hpath⟩ := List.mem_map.mp hmem
      exact hV (hpath ▸ hr.ends_visited x hx)
    have hwired := hr.wired.hang ha hnew
    have hnamed := hr.named.hang hr.wired ha hnew
    have hcounted := (hr.counted.hang ha hV hB).modify_bump hwired hself count (rest = [])
    rw [Function.update_self] at hcounted
    rw [hstep]
    refine ⟨_, _, ⟨hwired.modify_bump h.next _ _, ?_, hcounted, hends⟩, hcell,
      Function.update_self ..⟩
    rw [List.map_append]
    exact hnamed.modify_bump h.next _ _

/-! ## Runs -/

/-- The visits of `_insert_frame` from a node at the path `pre`. -/
def visits (pre : List Str) : List Str → Int → List (List Str × Int)
  | [], _ => []
  | name :: rest, count => (pre ++ [name], count) :: visits (pre ++ [name]) rest count

theorem insertFrame_recorded (hr : Recorded V B h path) (ha : h.cell a = some n)
    (frames : List Str) (count : Int) :
    ∃ path', Recorded (V ++ visits (path a) frames count)
      (B ++ if frames = [] then [] else [(path a ++ frames, count)])
      (insertFrame h a frames count) path' := by
  induction frames generalizing V B h path a n with
  | nil =>
      refine ⟨path, ?_⟩
      rw [if_pos rfl, List.append_nil]
      show Recorded (V ++ []) B h path
      rw [List.append_nil]
      exact hr
  | cons name rest ih =>
      obtain ⟨path₁, m, hr₁, hm, hpath⟩ := enterFrame_recorded hr ha name rest count
      obtain ⟨path₂, hr₂⟩ := ih hr₁ hm
      rw [hpath, List.append_assoc, List.append_assoc, List.append_assoc, List.singleton_append,
        List.singleton_append] at hr₂
      refine ⟨path₂, ?_⟩
      have hends : (if rest = [] then [(path a ++ [name], count)] else []) ++
          (if rest = [] then [] else [(path a ++ name :: rest, count)])
          = if name :: rest = [] then [] else [(path a ++ name :: rest, count)] := by
        cases rest <;> rfl
      rw [hends] at hr₂
      exact hr₂

/-- The visits of a whole list of samples: the head, then the non-empty prefixes of the stack. -/
def allVisits (samples : List (List Str × Int)) : List (List Str × Int) :=
  samples.flatMap fun s => ([], s.2) :: visits [] s.1 s.2

/-- The samples that end below the head. -/
def allEnds (samples : List (List Str × Int)) : List (List Str × Int) :=
  samples.filter fun s => s.1 ≠ []

/-- A visit of the head. -/
theorem Recorded.head (hr : Recorded V B h path) (count : Int) :
    ∃ n, (h.modify 0 (.bump count 0)).cell 0 = some n ∧
      Recorded (V ++ [([], count)]) B (h.modify 0 (.bump count 0)) path := by
  obtain ⟨n, hn, -⟩ := hr.wired.root
  have hcell := Heap.cell_modify_self h 0 (.bump count 0)
  rw [hn] at hcell
  have hcounted := hr.counted.modify_bump hr.wired hn count False
  rw [if_neg not_false, if_neg not_false, List.append_nil, hr.wired.path_root] at hcounted
  refine ⟨_, hcell, hr.wired.modify_bump 0 _ _, ?_, hcounted, ?_⟩
  · have hnamed := hr.named.modify_bump 0 count 0
    rw [List.map_append]
    constructor
    · intro b k hb
      rw [hnamed.names b k hb, List.filterMap_append]
      -- the empty path is the child of no node
      show _ = (_ ++ List.filterMap (childName (path b)) [[]]).eraseDups
      have hnone : childName (path b) [] = none := by
        unfold childName
        split <;> rfl
      rw [List.filterMap_cons_none hnone, List.filterMap_nil, List.append_nil]
    · intro q x hq
      rcases List.mem_append.mp hq with hq | hq
      · exact (hnamed.closed q x hq).imp_right (List.mem_append_left _)
      · exact absurd (List.mem_singleton.mp hq) (by simp)
  · intro x hx
    rw [List.map_append]
    exact List.mem_append_left _ (hr.ends_visited x hx)

theorem addStack_recorded {t : CallFrameTree} (hr : Recorded V B t.heap path) (s : List Str)
    (count : Int) :
    ∃ path', Recorded (V ++ ([], count) :: visits [] s count)
      (B ++ if s = [] then [] else [(s, count)]) (t.addStack s count).heap path' := by
  obtain ⟨n, hn, hhead⟩ := hr.head count
  obtain ⟨path', hr'⟩ := insertFrame_recorded hhead hn s count
  rw [hr.wired.path_root, List.append_assoc, List.singleton_append, List.nil_append] at hr'
  refine ⟨path', ?_⟩
  show Recorded _ _ (insertFrame (t.heap.modify 0 fun n => { n with count := n.count + count }) 0 s
    count) path'
  rw [← CallFrameNode.bump_zero]
  exact hr'

/-- **A call tree is the record of its samples.** -/
theorem ofSamples_recorded (samples : List (List Str × Int)) :
    ∃ path, Recorded (allVisits samples) (allEnds samples) (CallFrameTree.ofSamples samples).heap
      path := by
  induction samples using List.reverseRecOn with
  | nil =>
      obtain ⟨path, hw⟩ := CallFrameTree.init.wired
      refine ⟨path, hw, ⟨?_, ?_⟩, ?_, ?_⟩
      · intro a n ha
        obtain ⟨-, rfl⟩ := cell_freshHeap ha
        rfl
      · intro q x hq
        exact absurd hq List.not_mem_nil
      · intro a n ha
        obtain ⟨-, rfl⟩ := cell_freshHeap ha
        exact ⟨rfl, rfl⟩
      · intro x hx
        exact absurd hx List.not_mem_nil
  | append_singleton samples s ih =>
      obtain ⟨path, hr⟩ := ih
      obtain ⟨path', hr'⟩ := addStack_recorded hr s.1 s.2
      have hvisits : allVisits (samples ++ [s])
          = allVisits samples ++ ([], s.2) :: visits [] s.1 s.2 := by
        unfold allVisits
        rw [List.flatMap_append, List.flatMap_singleton]
      have hends : allEnds (samples ++ [s])
          = allEnds samples ++ if s.1 = [] then [] else [(s.1, s.2)] := by
        unfold allEnds
        rw [List.filter_append]
        congr 1
        by_cases hs : s.1 = []
        · rw [if_pos hs, List.filter_cons_of_neg (by simp [hs]), List.filter_nil]
        · rw [if_neg hs, List.filter_cons_of_pos (by simp [hs]), List.filter_nil]
      refine ⟨path', ?_⟩
      rw [hvisits, hends]
      unfold CallFrameTree.ofSamples
      rw [List.foldl_append]
      exact hr'

end LdbToolchain.Tfg
