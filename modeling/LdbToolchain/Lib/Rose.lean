import Mathlib

/-!
# Rose trees

A node is named by its address, the list of child indices on the way down to it. `Everywhere P t`
says that `P` holds of every node and its list of children; it is proved node by node with
`everywhere_node` and inherited by subtrees, `Everywhere.subtree`.

Two consequences of such local facts are global: a quantity that grows by one from parent to child is
the depth (`rank_eq_depth`), and what relates the regions of siblings, if regions are nested from
parent to child, relates them along every row (`rel_of_same_depth`, `disjoint_of_same_depth`).
-/

namespace LdbToolchain

inductive Rose (α : Type) where
  | node (label : α) (children : List (Rose α))

namespace Rose

variable {α β : Type}

def label : Rose α → α
  | node a _ => a

def children : Rose α → List (Rose α)
  | node _ cs => cs

@[simp] theorem label_node (a : α) (cs : List (Rose α)) : (node a cs).label = a := rfl

@[simp] theorem children_node (a : α) (cs : List (Rose α)) : (node a cs).children = cs := rfl

/-! ## Addresses -/

/-- The subtree at an address. -/
def subtree? (t : Rose α) : List Nat → Option (Rose α)
  | [] => some t
  | i :: p => t.children[i]?.bind fun c => c.subtree? p

@[simp] theorem subtree?_nil (t : Rose α) : t.subtree? [] = some t := rfl

theorem subtree?_cons (t : Rose α) (i : Nat) (p : List Nat) :
    t.subtree? (i :: p) = t.children[i]?.bind fun c => c.subtree? p := rfl

theorem subtree?_cons_eq_some {t s : Rose α} {i : Nat} {p : List Nat} :
    t.subtree? (i :: p) = some s ↔ ∃ c, t.children[i]? = some c ∧ c.subtree? p = some s :=
  Option.bind_eq_some_iff

/-- A child is the subtree at its index. -/
theorem subtree?_child {t c : Rose α} {i : Nat} (hc : t.children[i]? = some c) :
    t.subtree? [i] = some c := by
  rw [subtree?_cons, hc]
  rfl

theorem subtree?_append (t : Rose α) (p q : List Nat) :
    t.subtree? (p ++ q) = (t.subtree? p).bind fun s => s.subtree? q := by
  induction p generalizing t with
  | nil => rfl
  | cons i p ih =>
      rw [List.cons_append, subtree?_cons, subtree?_cons]
      cases t.children[i]? with
      | none => rfl
      | some c => exact ih c

/-- The labels on the way from the root to an address, both included. -/
def spine (t : Rose α) : List Nat → Option (List α)
  | [] => some [t.label]
  | i :: p => t.children[i]?.bind fun c => (c.spine p).map (t.label :: ·)

/-- The way down ends at the node. -/
theorem spine_of_subtree? {t s : Rose α} {p : List Nat} (hs : t.subtree? p = some s) :
    ∃ labels, t.spine p = some labels ∧ labels.getLast? = some s.label := by
  induction p generalizing t with
  | nil =>
      cases hs
      exact ⟨[_], rfl, rfl⟩
  | cons i p ih =>
      obtain ⟨c, hc, hs⟩ := subtree?_cons_eq_some.mp hs
      obtain ⟨labels, hlabels, hlast⟩ := ih hs
      refine ⟨t.label :: labels, ?_, ?_⟩
      · rw [spine, hc, Option.bind_some, hlabels]
        rfl
      · rw [List.getLast?_cons, hlast]
        rfl

theorem length_spine {t : Rose α} {p : List Nat} {labels : List α}
    (h : t.spine p = some labels) : labels.length = p.length + 1 := by
  induction p generalizing t labels with
  | nil =>
      cases h
      rfl
  | cons i p ih =>
      rw [spine, Option.bind_eq_some_iff] at h
      obtain ⟨c, -, h⟩ := h
      obtain ⟨rest, hrest, rfl⟩ := Option.map_eq_some_iff.mp h
      rw [List.length_cons, ih hrest, List.length_cons]

/-- There is a way down only to a node. -/
theorem spine_eq_none {t : Rose α} {p : List Nat} (hs : t.subtree? p = none) :
    t.spine p = none := by
  induction p generalizing t with
  | nil => cases hs
  | cons i p ih =>
      rw [subtree?_cons] at hs
      rw [spine]
      cases hc : t.children[i]? with
      | none => rfl
      | some c =>
          rw [hc, Option.bind_some] at hs
          rw [Option.bind_some, ih hs]
          rfl

/-! ## Relabelling -/

def map (f : α → β) : Rose α → Rose β
  | node a cs => node (f a) (cs.map (map f))

theorem map_node (f : α → β) (a : α) (cs : List (Rose α)) :
    (node a cs).map f = node (f a) (cs.map (map f)) := by rw [map]

/-! ## Local properties -/

/-- `P` holds of the label and the children of every node. -/
def Everywhere (P : α → List (Rose α) → Prop) (t : Rose α) : Prop :=
  ∀ p s, t.subtree? p = some s → P s.label s.children

variable {P Q : α → List (Rose α) → Prop} {t s : Rose α} {p q : List Nat}

theorem everywhere_node (a : α) (cs : List (Rose α)) :
    Everywhere P (node a cs) ↔ P a cs ∧ ∀ c ∈ cs, Everywhere P c := by
  constructor
  · intro h
    refine ⟨h [] _ rfl, fun c hc p s hs => ?_⟩
    obtain ⟨i, hi⟩ := List.mem_iff_getElem?.mp hc
    exact h (i :: p) s (subtree?_cons_eq_some.mpr ⟨c, hi, hs⟩)
  · rintro ⟨hroot, hchildren⟩ p s hs
    cases p with
    | nil =>
        cases hs
        exact hroot
    | cons i p =>
        obtain ⟨c, hc, hs⟩ := subtree?_cons_eq_some.mp hs
        exact hchildren c (List.mem_of_getElem? hc) p s hs

theorem Everywhere.subtree (h : Everywhere P t) (hs : t.subtree? p = some s) : Everywhere P s := by
  intro q u hu
  apply h (p ++ q) u
  rw [subtree?_append, hs]
  exact hu

theorem Everywhere.mono (h : Everywhere P t) (himp : ∀ a cs, P a cs → Q a cs) : Everywhere Q t :=
  fun p s hs => himp _ _ (h p s hs)

/-! ## Depth -/

/-- A quantity that grows by one from parent to child measures the depth. -/
theorem rank_eq_depth (rank : α → Int)
    (h : Everywhere (fun a cs => ∀ c ∈ cs, rank c.label = rank a + 1) t)
    (hs : t.subtree? p = some s) : rank s.label = rank t.label + p.length := by
  induction p generalizing t with
  | nil =>
      cases hs
      exact (Int.add_zero _).symm
  | cons i p ih =>
      obtain ⟨c, hc, hs⟩ := subtree?_cons_eq_some.mp hs
      have hchild := h [] t rfl c (List.mem_of_getElem? hc)
      rw [ih (h.subtree (subtree?_child hc)) hs, hchild, List.length_cons]
      omega

/-! ## Regions -/

variable {region : α → Set β}

/-- The region of a node lies in the root's. -/
theorem region_subset
    (hnested : Everywhere (fun a cs => ∀ c ∈ cs, region c.label ⊆ region a) t)
    (hs : t.subtree? p = some s) : region s.label ⊆ region t.label := by
  induction p generalizing t with
  | nil =>
      cases hs
      exact subset_rfl
  | cons i p ih =>
      obtain ⟨c, hc, hs⟩ := subtree?_cons_eq_some.mp hs
      have hbelow := ih (hnested.subtree (subtree?_child hc)) hs
      exact hbelow.trans (hnested [] t rfl c (List.mem_of_getElem? hc))

/-- **Rows are in the order of their siblings**: if regions are nested from parent to child and
siblings are related one to the next, and a relation between regions is one between their parts, then
two nodes of the same depth are related in the order of their addresses. -/
theorem rel_of_same_depth (region : α → Set β) {R : Set β → Set β → Prop} {u : Rose α}
    (hparts : ∀ {S S' T T'}, S' ⊆ S → T' ⊆ T → R S T → R S' T')
    (hnested : Everywhere (fun a cs => ∀ c ∈ cs, region c.label ⊆ region a) t)
    (hsiblings : Everywhere
      (fun _ cs => cs.Pairwise fun c d => R (region c.label) (region d.label)) t)
    (hs : t.subtree? p = some s) (hu : t.subtree? q = some u)
    (hlen : p.length = q.length) (hlt : List.Lex (· < ·) p q) :
    R (region s.label) (region u.label) := by
  induction hlt generalizing t with
  | nil => cases hlen
  | @rel i p j q hij =>
      -- the ways part here, below two siblings
      obtain ⟨c, hc, hs⟩ := subtree?_cons_eq_some.mp hs
      obtain ⟨d, hd, hu⟩ := subtree?_cons_eq_some.mp hu
      have hbelow := region_subset (hnested.subtree (subtree?_child hc)) hs
      have hbelow' := region_subset (hnested.subtree (subtree?_child hd)) hu
      apply hparts hbelow hbelow'
      obtain ⟨hi, rfl⟩ := List.getElem?_eq_some_iff.mp hc
      obtain ⟨hj, rfl⟩ := List.getElem?_eq_some_iff.mp hd
      exact List.pairwise_iff_getElem.mp (hsiblings [] t rfl) i j hi hj hij
  | @cons i p q _ ih =>
      obtain ⟨c, hc, hs⟩ := subtree?_cons_eq_some.mp hs
      obtain ⟨d, hd, hu⟩ := subtree?_cons_eq_some.mp hu
      rw [hc] at hd
      cases hd
      have hi := subtree?_child hc
      exact ih (hnested.subtree hi) (hsiblings.subtree hi) hs hu (Nat.succ.inj hlen)

/-- **Rows do not overlap**: if regions are nested from parent to child and disjoint between
siblings, then two nodes of the same depth have disjoint regions. -/
theorem disjoint_of_same_depth (region : α → Set β) {u : Rose α}
    (hnested : Everywhere (fun a cs => ∀ c ∈ cs, region c.label ⊆ region a) t)
    (hsiblings : Everywhere
      (fun _ cs => cs.Pairwise fun c d => Disjoint (region c.label) (region d.label)) t)
    (hs : t.subtree? p = some s) (hu : t.subtree? q = some u)
    (hlen : p.length = q.length) (hne : p ≠ q) : Disjoint (region s.label) (region u.label) := by
  have hparts : ∀ {S S' T T' : Set β}, S' ⊆ S → T' ⊆ T → Disjoint S T → Disjoint S' T' :=
    fun hS hT h => h.mono hS hT
  rcases lt_or_gt_of_ne hne with hlt | hlt
  · exact rel_of_same_depth region hparts hnested hsiblings hs hu hlen hlt
  · exact (rel_of_same_depth region hparts hnested hsiblings hu hs hlen.symm hlt).symm

end Rose

end LdbToolchain
