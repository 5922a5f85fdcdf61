import LdbToolchain.Lib.Rose

/-!
# Breadth-first traversal of a rose tree

The traversal with a queue: take the first node out, add its children at the end. Its order is by
depth, from one node to the next by at most one (`depth_bfsTraversal`), because the queue holds nodes
of two depths at most, the shallower ones first (`Staged`).

Nodes of the same depth come in the order of their addresses, so the whole traversal is in shortlex
order (`pairwise_bfsTraversal`); every node is in it (`mem_bfsTraversal`), and none twice.
-/

namespace LdbToolchain

/-- Each element with the one after it. -/
def pairwise {α : Type} (l : List α) : List (α × α) := l.zip l.tail

theorem map_fst_pairwise {α : Type} (l : List α) : (pairwise l).map Prod.fst = l.dropLast := by
  induction l with
  | nil => rfl
  | cons a l ih =>
      cases l with
      | nil => rfl
      | cons b l => exact congrArg (a :: ·) ih

theorem map_snd_pairwise {α : Type} (l : List α) : (pairwise l).map Prod.snd = l.tail := by
  apply List.map_snd_zip
  rw [List.length_tail]
  exact Nat.sub_le _ _

theorem rel_of_mem_pairwise {α : Type} {R : α → α → Prop} {l : List α} (h : l.IsChain R)
    {x y : α} (hxy : (x, y) ∈ pairwise l) : R x y := by
  induction l with
  | nil => cases hxy
  | cons a l ih =>
      cases l with
      | nil => cases hxy
      | cons b l =>
          rw [List.isChain_cons_cons] at h
          rw [pairwise, List.tail_cons, List.zip_cons_cons, List.mem_cons] at hxy
          rcases hxy with heq | hmem
          · cases heq
            exact h.1
          · exact ih h.2 hmem

theorem mem_of_mem_pairwise {α : Type} {l : List α} {x y : α} (hxy : (x, y) ∈ pairwise l) :
    x ∈ l ∧ y ∈ l :=
  ⟨(List.of_mem_zip hxy).1, List.mem_of_mem_tail (List.of_mem_zip hxy).2⟩

/-- In a list in order, nothing comes between an element and the one after it. -/
theorem rel_or_rel_of_mem_pairwise {α : Type} {R : α → α → Prop} {l : List α} (h : l.Pairwise R)
    {x y z : α} (hxy : (x, y) ∈ pairwise l) (hz : z ∈ l) (hzx : z ≠ x) (hzy : z ≠ y) :
    R z x ∨ R y z := by
  induction l with
  | nil => cases hxy
  | cons a l ih =>
      cases l with
      | nil => cases hxy
      | cons b l =>
          obtain ⟨hfirst, hrest⟩ := List.pairwise_cons.mp h
          rw [pairwise, List.tail_cons, List.zip_cons_cons, List.mem_cons] at hxy
          rcases hxy with heq | hmem
          · cases heq
            have hmem := ((List.mem_cons.mp hz).resolve_left hzx)
            have hlater := (List.mem_cons.mp hmem).resolve_left hzy
            exact Or.inr ((List.pairwise_cons.mp hrest).1 z hlater)
          · rcases List.mem_cons.mp hz with rfl | hz
            · exact Or.inl (hfirst x (mem_of_mem_pairwise hmem).1)
            · exact ih hrest hmem hz

theorem mem_of_lookup {α β : Type} [BEq α] [LawfulBEq α] {l : List (α × β)} {a : α} {b : β}
    (h : l.lookup a = some b) : (a, b) ∈ l := by
  obtain ⟨l₁, l₂, rfl, -⟩ := List.lookup_eq_some_iff.mp h
  exact List.mem_append_right l₁ (List.mem_cons_self ..)

theorem lookup_of_mem {α β : Type} [BEq α] [LawfulBEq α] {l : List (α × β)} {a : α} {b : β}
    (hnodup : (l.map Prod.fst).Nodup) (h : (a, b) ∈ l) : l.lookup a = some b := by
  induction l with
  | nil => cases h
  | cons x l ih =>
      rw [List.map_cons, List.nodup_cons] at hnodup
      rcases List.mem_cons.mp h with rfl | hmem
      · exact List.lookup_cons_self
      · have hne : a ≠ x.1 := by
          intro heq
          exact hnodup.1 (heq ▸ List.mem_map_of_mem hmem)
        rw [List.lookup_cons, beq_false_of_ne hne]
        exact ih hnodup.2 hmem

theorem mem_pairwise_of_getElem? {α : Type} {l : List α} {i : Nat} {x y : α} (hx : l[i]? = some x)
    (hy : l[i + 1]? = some y) : (x, y) ∈ pairwise l := by
  have hpair : (l.zip l.tail)[i]? = some (x, y) := by
    rw [List.getElem?_zip_eq_some]
    exact ⟨hx, by rwa [List.getElem?_tail]⟩
  exact List.mem_of_getElem? hpair

namespace Rose

variable {α : Type}

/-- The number of nodes. -/
def size : Rose α → Nat
  | node _ cs => 1 + (cs.map size).sum

theorem size_eq (t : Rose α) : t.size = 1 + (t.children.map size).sum := by
  cases t
  rw [size, children]

/-- The children of the node at `p`, with their addresses. -/
def kids (p : List Nat) (t : Rose α) : List (List Nat × Rose α) :=
  t.children.zipIdx.map fun x => (p ++ [x.2], x.1)

theorem sum_size_kids (p : List Nat) (t : Rose α) :
    ((kids p t).map fun x => x.2.size).sum + 1 = t.size := by
  have hmap : (kids p t).map (fun x => x.2.size) = t.children.map size := by
    rw [kids, List.map_map]
    conv_rhs => rw [← List.zipIdx_map_fst 0 t.children, List.map_map]
    rfl
  rw [hmap, size_eq t, Nat.add_comm]

/-- The nodes that come out of a queue. -/
def bfs : List (List Nat × Rose α) → List (List Nat × Rose α)
  | [] => []
  | x :: queue => x :: bfs (queue ++ kids x.1 x.2)
termination_by queue => (queue.map fun x => x.2.size).sum
decreasing_by
  have h := sum_size_kids x.1 x.2
  rw [List.map_append, List.sum_append, List.map_cons, List.sum_cons]
  omega

/-- The addresses of a tree, breadth first. -/
def bfsTraversal (t : Rose α) : List (List Nat) := (bfs [([], t)]).map Prod.fst

theorem bfs_cons (x : List Nat × Rose α) (queue : List (List Nat × Rose α)) :
    bfs (x :: queue) = x :: bfs (queue ++ kids x.1 x.2) := by rw [bfs]

theorem bfs_nil : bfs ([] : List (List Nat × Rose α)) = [] := by rw [bfs]

theorem head?_bfs (queue : List (List Nat × Rose α)) : (bfs queue).head? = queue.head? := by
  cases queue with
  | nil => rw [bfs_nil]
  | cons x queue => rw [bfs_cons, List.head?_cons, List.head?_cons]

theorem mem_kids {p : List Nat} {t : Rose α} {x : List Nat × Rose α} (hx : x ∈ kids p t) :
    ∃ i, x.1 = p ++ [i] ∧ t.children[i]? = some x.2 := by
  obtain ⟨y, hy, rfl⟩ := List.mem_map.mp hx
  exact ⟨y.2, rfl, List.mem_zipIdx_iff_getElem?.mp hy⟩

/-- What holds of the addresses below `p` holds of the children. -/
theorem forall_mem_kids {P : List Nat → Prop} {p : List Nat} (h : ∀ i, P (p ++ [i])) (t : Rose α) :
    ∀ x ∈ kids p t, P x.1 := by
  intro x hx
  obtain ⟨i, hp, -⟩ := mem_kids hx
  rw [hp]
  exact h i

/-- What comes out of a queue of nodes of a tree are nodes of it. -/
theorem subtree?_of_mem_bfs {t : Rose α} {queue : List (List Nat × Rose α)}
    (hqueue : ∀ x ∈ queue, t.subtree? x.1 = some x.2) :
    ∀ x ∈ bfs queue, t.subtree? x.1 = some x.2 := by
  fun_induction bfs queue with
  | case1 => exact hqueue
  | case2 x queue ih =>
      have hrest : ∀ y ∈ queue ++ kids x.1 x.2, t.subtree? y.1 = some y.2 := by
        intro y hy
        rcases List.mem_append.mp hy with hy | hy
        · exact hqueue y (List.mem_cons_of_mem x hy)
        · obtain ⟨i, hp, hi⟩ := mem_kids hy
          rw [hp, subtree?_append, hqueue x (List.mem_cons_self ..), Option.bind_some]
          exact subtree?_child hi
      intro y hy
      rcases List.mem_cons.mp hy with rfl | hy
      · exact hqueue y (List.mem_cons_self ..)
      · exact ih hrest y hy

theorem exists_subtree_of_mem_bfsTraversal {t : Rose α} {p : List Nat}
    (hp : p ∈ t.bfsTraversal) : ∃ s, t.subtree? p = some s := by
  obtain ⟨x, hx, rfl⟩ := List.mem_map.mp hp
  refine ⟨x.2, subtree?_of_mem_bfs ?_ x hx⟩
  intro y hy
  rw [List.mem_singleton.mp hy]
  rfl

/-! ## By depth -/

/-- A queue of nodes of two depths at most, the shallower ones first. -/
def Staged (queue : List (List Nat × Rose α)) : Prop :=
  ∃ d near far, queue = near ++ far ∧ (∀ x ∈ near, x.1.length = d) ∧
    ∀ x ∈ far, x.1.length = d + 1

/-- Taking a node out and adding its children keeps a queue staged, and the node taken out was not
deeper than the next one, nor less deep by more than one. -/
theorem Staged.next {x : List Nat × Rose α} {queue : List (List Nat × Rose α)}
    (h : Staged (x :: queue)) :
    Staged (queue ++ kids x.1 x.2) ∧ ∀ y ∈ (queue ++ kids x.1 x.2).head?,
      y.1.length = x.1.length ∨ y.1.length = x.1.length + 1 := by
  -- the node is one of the last of its depth, and the deeper ones follow, or not
  obtain ⟨near, far, hqueue, hnear, hfar⟩ : ∃ near far, queue = near ++ far ∧
      (∀ y ∈ near, y.1.length = x.1.length) ∧ ∀ y ∈ far, y.1.length = x.1.length + 1 := by
    obtain ⟨d, near, far, hsplit, hnear, hfar⟩ := h
    cases near with
    | nil =>
        rw [List.nil_append] at hsplit
        subst hsplit
        have hx := hfar x (List.mem_cons_self ..)
        refine ⟨queue, [], (List.append_nil _).symm, ?_, by simp⟩
        intro y hy
        rw [hx, hfar y (List.mem_cons_of_mem x hy)]
    | cons z near =>
        rw [List.cons_append, List.cons.injEq] at hsplit
        obtain ⟨rfl, rfl⟩ := hsplit
        have hx := hnear x (List.mem_cons_self ..)
        refine ⟨near, far, rfl, ?_, ?_⟩
        · intro y hy
          rw [hx, hnear y (List.mem_cons_of_mem x hy)]
        · intro y hy
          rw [hx, hfar y hy]
  have hkids : ∀ y ∈ kids x.1 x.2, y.1.length = x.1.length + 1 := by
    apply forall_mem_kids (P := fun p => p.length = x.1.length + 1)
    intro i
    rw [List.length_append, List.length_singleton]
  subst hqueue
  constructor
  · refine ⟨x.1.length, near, far ++ kids x.1 x.2, List.append_assoc .., hnear, ?_⟩
    exact List.forall_mem_append.mpr ⟨hfar, hkids⟩
  · intro y hy
    have hmem := List.mem_of_mem_head? hy
    grind

theorem depth_bfs {queue : List (List Nat × Rose α)} (h : Staged queue) :
    ((bfs queue).map Prod.fst).IsChain fun p q =>
      q.length = p.length ∨ q.length = p.length + 1 := by
  fun_induction bfs queue with
  | case1 => exact List.IsChain.nil
  | case2 x queue ih =>
      obtain ⟨hstaged, hnext⟩ := h.next
      rw [List.map_cons, List.isChain_cons]
      refine ⟨?_, ih hstaged⟩
      intro q hq
      rw [List.head?_map, head?_bfs, Option.mem_map] at hq
      obtain ⟨y, hy, rfl⟩ := hq
      exact hnext y hy

/-- **Breadth first is by depth**: the next node is as deep as the last, or deeper by one. -/
theorem depth_bfsTraversal (t : Rose α) :
    t.bfsTraversal.IsChain fun p q => q.length = p.length ∨ q.length = p.length + 1 := by
  apply depth_bfs
  refine ⟨0, [([], t)], [], rfl, ?_, by simp⟩
  intro x hx
  rw [List.mem_singleton.mp hx]
  rfl

/-! ## By address -/

/-- Shorter addresses come first, and addresses of the same length in lexicographic order. -/
def Before : List Nat → List Nat → Prop := List.Shortlex (· < ·)

theorem before_iff {p q : List Nat} :
    Before p q ↔ p.length < q.length ∨ p.length = q.length ∧ List.Lex (· < ·) p q :=
  List.shortlex_def

theorem Before.trans {p q r : List Nat} (hpq : Before p q) (hqr : Before q r) : Before p r := by
  rw [before_iff] at *
  rcases hpq with hpq | ⟨hlen, hpq⟩
  · left
    omega
  · rcases hqr with hqr | ⟨hlen', hqr⟩
    · left
      omega
    · right
      exact ⟨hlen.trans hlen', List.lex_trans (fun h₁ h₂ => Nat.lt_trans h₁ h₂) hpq hqr⟩

theorem Before.ne {p q : List Nat} (h : Before p q) : p ≠ q := by
  rintro rfl
  exact absurd h (Std.Asymm.asymm (r := List.Shortlex (· < ·)) p p h)

theorem before_concat (p : List Nat) (i : Nat) : Before p (p ++ [i]) := by
  apply List.Shortlex.of_length_lt
  rw [List.length_append, List.length_singleton]
  exact Nat.lt_succ_self _

theorem lex_append {p q : List Nat} (h : List.Lex (· < ·) p q) (hlen : p.length = q.length)
    (r s : List Nat) : List.Lex (· < ·) (p ++ r) (q ++ s) := by
  induction h with
  | nil => cases hlen
  | rel hlt => exact List.Lex.rel hlt
  | cons _ ih => exact List.Lex.cons (ih (Nat.succ.inj hlen))

/-- Children come in the order of their parents. -/
theorem Before.concat_concat {p q : List Nat} (h : Before p q) (i j : Nat) :
    Before (p ++ [i]) (q ++ [j]) := by
  rw [before_iff, List.length_append, List.length_append, List.length_singleton,
    List.length_singleton]
  rcases before_iff.mp h with hlt | ⟨hlen, hlex⟩
  · left
    omega
  · right
    exact ⟨by omega, lex_append hlex hlen [i] [j]⟩

theorem pairwise_kids (p : List Nat) (t : Rose α) :
    (kids p t).Pairwise fun x y => Before x.1 y.1 := by
  unfold kids
  rw [List.pairwise_map, List.pairwise_iff_getElem]
  intro i j hi hj hij
  rw [List.getElem_zipIdx, List.getElem_zipIdx]
  apply List.Shortlex.append_left
  rw [List.shortlex_singleton_iff]
  omega

/-- A queue in the order of its addresses, that stays in order when children are added to it. -/
structure Ordered (queue : List (List Nat × Rose α)) : Prop where
  pairwise : queue.Pairwise fun x y => Before x.1 y.1
  child : ∀ x ∈ queue, ∀ y ∈ queue, ∀ i, Before x.1 (y.1 ++ [i])

/-- Taking a node out and adding its children keeps a queue in order. -/
theorem Ordered.next {x : List Nat × Rose α} {queue : List (List Nat × Rose α)}
    (h : Ordered (x :: queue)) : Ordered (queue ++ kids x.1 x.2) where
  pairwise := by
    obtain ⟨-, hqueue⟩ := List.pairwise_cons.mp h.pairwise
    refine List.pairwise_append.mpr ⟨hqueue, pairwise_kids x.1 x.2, ?_⟩
    intro y hy
    apply forall_mem_kids
    exact h.child y (List.mem_cons_of_mem x hy) x List.mem_cons_self
  child := by
    obtain ⟨hfirst, -⟩ := List.pairwise_cons.mp h.pairwise
    intro y hy z hz i
    rcases List.mem_append.mp hy with hy | hy
    · rcases List.mem_append.mp hz with hz | hz
      · exact h.child y (List.mem_cons_of_mem x hy) z (List.mem_cons_of_mem x hz) i
      · obtain ⟨j, hz, -⟩ := mem_kids hz
        rw [hz]
        exact (h.child y (List.mem_cons_of_mem x hy) x List.mem_cons_self j).trans
          (before_concat _ i)
    · obtain ⟨j, hy, -⟩ := mem_kids hy
      rw [hy]
      rcases List.mem_append.mp hz with hz | hz
      · exact (hfirst z hz).concat_concat j i
      · obtain ⟨k, hz, -⟩ := mem_kids hz
        rw [hz]
        exact (before_concat x.1 k).concat_concat j i

/-- What is before all of a queue is before all that comes out of it. -/
theorem before_of_mem_bfs {p : List Nat} {queue : List (List Nat × Rose α)}
    (h : ∀ x ∈ queue, Before p x.1) : ∀ x ∈ bfs queue, Before p x.1 := by
  fun_induction bfs queue with
  | case1 => exact h
  | case2 x queue ih =>
      have hx := h x List.mem_cons_self
      have hkids := forall_mem_kids (fun i => hx.trans (before_concat x.1 i)) x.2
      have hrest : ∀ y ∈ queue ++ kids x.1 x.2, Before p y.1 :=
        List.forall_mem_append.mpr ⟨(List.forall_mem_cons.mp h).2, hkids⟩
      intro y hy
      rcases List.mem_cons.mp hy with rfl | hy
      · exact hx
      · exact ih hrest y hy

theorem pairwise_bfs {queue : List (List Nat × Rose α)} (h : Ordered queue) :
    (bfs queue).Pairwise fun x y => Before x.1 y.1 := by
  fun_induction bfs queue with
  | case1 => exact List.Pairwise.nil
  | case2 x queue ih =>
      refine List.pairwise_cons.mpr ⟨?_, ih h.next⟩
      apply before_of_mem_bfs
      have hkids := forall_mem_kids (before_concat x.1) x.2
      exact List.forall_mem_append.mpr ⟨(List.pairwise_cons.mp h.pairwise).1, hkids⟩

/-- **Breadth first is by address**: a node comes before those that are deeper, and before those of
its depth that are further on. -/
theorem pairwise_bfsTraversal (t : Rose α) : t.bfsTraversal.Pairwise Before := by
  rw [bfsTraversal, List.pairwise_map]
  apply pairwise_bfs
  refine ⟨List.pairwise_singleton _ _, ?_⟩
  intro x hx y hy i
  rw [List.mem_singleton.mp hx, List.mem_singleton.mp hy]
  exact before_concat [] i

theorem nodup_bfsTraversal (t : Rose α) : t.bfsTraversal.Nodup :=
  (pairwise_bfsTraversal t).imp Before.ne

theorem head?_bfsTraversal (t : Rose α) : t.bfsTraversal.head? = some [] := by
  rw [bfsTraversal, List.head?_map, head?_bfs]
  rfl

/-- Every node below one of the queue comes out of it. -/
theorem mem_bfs_of_subtree? {queue : List (List Nat × Rose α)} {x : List Nat × Rose α}
    (hx : x ∈ queue) {p : List Nat} {s : Rose α} (hs : x.2.subtree? p = some s) :
    (x.1 ++ p, s) ∈ bfs queue := by
  fun_induction bfs queue generalizing x p with
  | case1 => cases hx
  | case2 y queue ih =>
      rcases List.mem_cons.mp hx with rfl | hx
      · cases p with
        | nil =>
            cases hs
            rw [List.append_nil]
            exact List.mem_cons_self
        | cons i p =>
            obtain ⟨c, hc, hs⟩ := subtree?_cons_eq_some.mp hs
            have hkid : (x.1 ++ [i], c) ∈ kids x.1 x.2 := by
              refine List.mem_map.mpr ⟨(c, i), ?_, rfl⟩
              exact List.mem_zipIdx_iff_getElem?.mpr hc
            have hmem := ih (List.mem_append_right queue hkid) hs
            rw [List.append_assoc] at hmem
            exact List.mem_cons_of_mem x hmem
      · exact List.mem_cons_of_mem y (ih (List.mem_append_left _ hx) hs)

/-- **Breadth first comes to every node.** -/
theorem mem_bfsTraversal {t : Rose α} {p : List Nat} :
    p ∈ t.bfsTraversal ↔ ∃ s, t.subtree? p = some s := by
  constructor
  · exact exists_subtree_of_mem_bfsTraversal
  · intro h
    obtain ⟨s, hs⟩ := h
    have hmem : (([] : List Nat) ++ p, s) ∈ bfs [([], t)] :=
      mem_bfs_of_subtree? List.mem_cons_self hs
    exact List.mem_map.mpr ⟨_, hmem, rfl⟩

end Rose

end LdbToolchain
