import Mathlib.Data.List.Nodup
import Mathlib.Tactic.Cases

/-!
# Doubly linked lists

Links are two partial functions, `next` and `prev`. A segment with the elements `as` starts at
`start`, has `before` in front of it, and ends where `next` is null; a list is a segment with nothing
in front of it and no element twice.

A list is what one gets by following `next` from its head (`visits`), its reverse is what one gets by
following `prev` from its last element (`visits_back`), and the two functions are inverse to each
other on it (`inverse`). `linkUp` links the elements of a list one to the next.
-/

namespace LdbToolchain.Linked

variable {β : Type}

/-- Following `step` from `start`, one comes to the elements of the list in turn, and then to an
end. -/
def Visits (step : β → Option β) : Option β → List β → Prop
  | start, [] => start = none
  | start, a :: as => start = some a ∧ Visits step (step a) as

/-- The elements from `start` on are linked both ways. -/
def Segment (next prev : β → Option β) : Option β → Option β → List β → Prop
  | _, start, [] => start = none
  | before, start, a :: as =>
    start = some a ∧ prev a = before ∧ Segment next prev (some a) (next a) as

structure DoublyLinked (next prev : β → Option β) (head : Option β) (as : List β) : Prop where
  segment : Segment next prev none head as
  nodup : as.Nodup

variable {next prev next' prev' : β → Option β} {before start : Option β} {as : List β}

theorem DoublyLinked.nil : DoublyLinked next prev none [] := ⟨rfl, List.nodup_nil⟩

/-- A walk is about the steps from its elements. -/
theorem Visits.congr {step step' : β → Option β} (h : Visits step start as)
    (hstep : ∀ a ∈ as, step' a = step a) : Visits step' start as := by
  induction as generalizing start with
  | nil => exact h
  | cons a as ih =>
      refine ⟨h.1, ?_⟩
      rw [hstep a List.mem_cons_self]
      exact ih h.2 fun b hb => hstep b (List.mem_cons_of_mem _ hb)

/-- A segment is about the links of its elements. -/
theorem Segment.congr (h : Segment next prev before start as) (hnext : ∀ a ∈ as, next' a = next a)
    (hprev : ∀ a ∈ as, prev' a = prev a) : Segment next' prev' before start as := by
  induction as generalizing before start with
  | nil => exact h
  | cons a as ih =>
      obtain ⟨hstart, hbefore, hrest⟩ := h
      refine ⟨hstart, ?_, ?_⟩
      · rw [hprev a List.mem_cons_self, hbefore]
      · rw [hnext a List.mem_cons_self]
        exact ih hrest (fun b hb => hnext b (List.mem_cons_of_mem _ hb))
          fun b hb => hprev b (List.mem_cons_of_mem _ hb)

theorem Segment.visits (h : Segment next prev before start as) : Visits next start as := by
  induction as generalizing before start with
  | nil => exact h
  | cons a as ih => exact ⟨h.1, ih h.2.2⟩

/-- Backwards from the last element, and on with what is in front of the segment. -/
theorem Segment.visits_back {bs : List β} (h : Segment next prev before start as)
    (hbefore : Visits prev before bs) :
    Visits prev (as.getLast?.or before) (as.reverse ++ bs) := by
  induction as generalizing before start bs with
  | nil => exact hbefore
  | cons a as ih =>
      obtain ⟨-, hprev, hrest⟩ := h
      have hmore : Visits prev (some a) (a :: bs) := by
        refine ⟨rfl, ?_⟩
        rw [hprev]
        exact hbefore
      have hback := ih hrest hmore
      rw [List.reverse_cons, List.append_assoc, List.singleton_append]
      cases as with
      | nil => exact hback
      | cons b as =>
          rw [List.getLast?_cons_cons]
          rw [List.getLast?_eq_some_getLast (List.cons_ne_nil b as)] at hback ⊢
          exact hback

theorem Segment.start_eq (h : Segment next prev before start as) : start = as.head? := by
  cases as with
  | nil => exact h
  | cons a as => exact h.1

/-- The link forward of an element, by its place. -/
theorem Segment.next_getElem (h : Segment next prev before start as) (i : Nat)
    (hi : i < as.length) : next as[i] = as[i + 1]? := by
  induction as generalizing before start i with
  | nil => exact absurd hi (Nat.not_lt_zero i)
  | cons a as ih =>
      obtain ⟨-, -, hrest⟩ := h
      cases i with
      | zero =>
          rw [List.getElem_cons_zero, hrest.start_eq, List.getElem?_cons_succ, List.head?_eq_getElem?]
      | succ i =>
          rw [List.getElem_cons_succ, List.getElem?_cons_succ]
          exact ih hrest i _

/-- The link back of an element, by its place. -/
theorem Segment.prev_getElem (h : Segment next prev before start as) (i : Nat)
    (hi : i < as.length) : prev as[i] = if i = 0 then before else as[i - 1]? := by
  induction as generalizing before start i with
  | nil => exact absurd hi (Nat.not_lt_zero i)
  | cons a as ih =>
      obtain ⟨-, hprev, hrest⟩ := h
      cases i with
      | zero =>
          rw [List.getElem_cons_zero, if_pos rfl]
          exact hprev
      | succ i =>
          rw [List.getElem_cons_succ, ih hrest i, if_neg (Nat.succ_ne_zero i)]
          cases i with
          | zero => rfl
          | succ i => simp

namespace DoublyLinked

variable {head : Option β}

theorem visits (h : DoublyLinked next prev head as) : Visits next head as := h.segment.visits

theorem visits_back (h : DoublyLinked next prev head as) :
    Visits prev as.getLast? as.reverse := by
  have hnone : Visits prev none [] := rfl
  have hback := h.segment.visits_back hnone
  rw [Option.or_none, List.append_nil] at hback
  exact hback

/-- **The links are inverse to each other.** -/
theorem inverse (h : DoublyLinked next prev head as) {a b : β} (ha : a ∈ as) (hb : b ∈ as) :
    next a = some b ↔ prev b = some a := by
  obtain ⟨i, hi, rfl⟩ := List.mem_iff_getElem.mp ha
  obtain ⟨j, hj, rfl⟩ := List.mem_iff_getElem.mp hb
  rw [h.segment.next_getElem i hi, h.segment.prev_getElem j hj]
  have hplace : ∀ k l (hl : l < as.length), as[k]? = some as[l] ↔ k = l := by
    intro k l hl
    rw [List.getElem?_eq_some_iff]
    constructor
    · rintro ⟨hk, heq⟩
      exact h.nodup.getElem_inj_iff.mp heq
    · rintro rfl
      exact ⟨hl, rfl⟩
  rw [hplace]
  cases j with
  | zero => simp
  | succ j =>
      rw [if_neg (Nat.succ_ne_zero j), Nat.add_sub_cancel, hplace]
      omega

/-- Nothing is in front of the head. -/
theorem prev_head (h : DoublyLinked next prev head as) {a : β} (ha : head = some a) :
    prev a = none := by
  cases as with
  | nil =>
      have hnone : head = none := h.segment
      rw [hnone] at ha
      cases ha
  | cons b as =>
      obtain ⟨hb, hprev, -⟩ := h.segment
      rw [hb] at ha
      cases ha
      exact hprev

/-- **A new element at the head**: the link back of the old head is set to it. -/
theorem push [DecidableEq β] (h : DoublyLinked next prev head as) {a : β} (hnew : a ∉ as) (hnext : next' a = head)
    (hprev : prev' a = none) (hkeep : ∀ b ∈ as, next' b = next b)
    (hback : ∀ b ∈ as, prev' b = if head = some b then some a else prev b) :
    DoublyLinked next' prev' (some a) (a :: as) := by
  refine ⟨⟨rfl, hprev, ?_⟩, List.nodup_cons.mpr ⟨hnew, h.nodup⟩⟩
  rw [hnext]
  cases as with
  | nil => exact h.segment
  | cons b as =>
      obtain ⟨hb, -, hrest⟩ := h.segment
      have hnodup := List.nodup_cons.mp h.nodup
      refine ⟨hb, ?_, ?_⟩
      · rw [hback b List.mem_cons_self, if_pos hb]
      · rw [hkeep b List.mem_cons_self]
        apply hrest.congr
        · exact fun c hc => hkeep c (List.mem_cons_of_mem _ hc)
        · intro c hc
          rw [hback c (List.mem_cons_of_mem _ hc), if_neg]
          intro heq
          rw [hb] at heq
          cases heq
          exact hnodup.1 hc

end DoublyLinked

/-! ## Linking up a list -/

structure Links (β : Type) where
  next : β → Option β
  prev : β → Option β

namespace Links

/-- No links at all. -/
def empty : Links β := ⟨fun _ => none, fun _ => none⟩

variable [DecidableEq β] {links : Links β} {pairs : List (β × β)} {a b c : β}

/-- `b` comes after `a` from now on. -/
def link (links : Links β) (a b : β) : Links β where
  next := Function.update links.next a (some b)
  prev := Function.update links.prev b (some a)

@[simp] theorem link_next_self : (links.link a b).next a = some b := Function.update_self ..

@[simp] theorem link_prev_self : (links.link a b).prev b = some a := Function.update_self ..

theorem link_next_of_ne (h : c ≠ a) : (links.link a b).next c = links.next c :=
  Function.update_of_ne h _ _

theorem link_prev_of_ne (h : c ≠ b) : (links.link a b).prev c = links.prev c :=
  Function.update_of_ne h _ _

/-- A link for each of these pairs in turn. -/
def linkUp (links : Links β) (pairs : List (β × β)) : Links β :=
  pairs.foldl (fun links pair => links.link pair.1 pair.2) links

theorem linkUp_cons (links : Links β) (pair : β × β) (pairs : List (β × β)) :
    links.linkUp (pair :: pairs) = (links.link pair.1 pair.2).linkUp pairs := rfl

/-- The links the other way round. -/
def flip (links : Links β) : Links β := ⟨links.prev, links.next⟩

theorem flip_linkUp : (links.linkUp pairs).flip = links.flip.linkUp (pairs.map Prod.swap) := by
  induction pairs generalizing links with
  | nil => rfl
  | cons pair pairs ih => exact ih

theorem linkUp_next_of_forall_ne (h : ∀ pair ∈ pairs, c ≠ pair.1) :
    (links.linkUp pairs).next c = links.next c := by
  induction pairs generalizing links with
  | nil => rfl
  | cons pair pairs ih =>
      rw [linkUp_cons, ih fun q hq => h q (List.mem_cons_of_mem _ hq)]
      exact link_next_of_ne (h pair List.mem_cons_self)

theorem linkUp_prev_of_forall_ne (h : ∀ pair ∈ pairs, c ≠ pair.2) :
    (links.linkUp pairs).prev c = links.prev c := by
  show (links.linkUp pairs).flip.next c = links.flip.next c
  rw [flip_linkUp, linkUp_next_of_forall_ne]
  intro pair hpair
  obtain ⟨q, hq, rfl⟩ := List.mem_map.mp hpair
  exact h q hq

/-- The first link from an element is its only one, when the pairs begin with different elements. -/
theorem linkUp_next_eq_lookup [BEq β] [LawfulBEq β] (h : (pairs.map Prod.fst).Nodup) :
    (links.linkUp pairs).next c = (pairs.lookup c).or (links.next c) := by
  induction pairs generalizing links with
  | nil => rfl
  | cons pair pairs ih =>
      obtain ⟨hnew, hrest⟩ := List.nodup_cons.mp h
      obtain ⟨a, b⟩ := pair
      by_cases heq : c = a
      · subst heq
        rw [List.lookup_cons_self, Option.some_or, linkUp_cons, linkUp_next_of_forall_ne,
          link_next_self]
        intro q hq hfst
        exact hnew (List.mem_map.mpr ⟨q, hq, hfst.symm⟩)
      · rw [linkUp_cons, ih hrest, link_next_of_ne heq, List.lookup_cons, beq_false_of_ne heq]

theorem linkUp_prev_eq_lookup [BEq β] [LawfulBEq β] (h : (pairs.map Prod.snd).Nodup) :
    (links.linkUp pairs).prev c = ((pairs.map Prod.swap).lookup c).or (links.prev c) := by
  show (links.linkUp pairs).flip.next c = _
  rw [flip_linkUp, linkUp_next_eq_lookup]
  · rfl
  · rw [List.map_map]
    exact h

/-- A link forward was there before, or comes from one of the pairs. -/
theorem mem_of_linkUp_next (h : (links.linkUp pairs).next a = some b) :
    links.next a = some b ∨ (a, b) ∈ pairs := by
  induction pairs generalizing links with
  | nil => exact Or.inl h
  | cons pair pairs ih =>
      rw [linkUp_cons] at h
      rcases ih h with hbefore | hmem
      · by_cases heq : a = pair.1
        · subst heq
          rw [link_next_self] at hbefore
          cases hbefore
          exact Or.inr List.mem_cons_self
        · rw [link_next_of_ne heq] at hbefore
          exact Or.inl hbefore
      · exact Or.inr (List.mem_cons_of_mem pair hmem)

/-- A link back was there before, or comes from one of the pairs. -/
theorem mem_of_linkUp_prev (h : (links.linkUp pairs).prev b = some a) :
    links.prev b = some a ∨ (a, b) ∈ pairs := by
  have hflip : (links.flip.linkUp (pairs.map Prod.swap)).next b = some a := by
    rw [← flip_linkUp]
    exact h
  rcases mem_of_linkUp_next hflip with hbefore | hmem
  · exact Or.inl hbefore
  · obtain ⟨q, hq, heq⟩ := List.mem_map.mp hmem
    cases heq
    exact Or.inr hq

/-- The elements of a list without duplicates, linked up behind whatever the first one has in front
of it. -/
theorem segment_linkUp {as : List β} (hnodup : (a :: as).Nodup)
    (hend : ∀ b ∈ a :: as, links.next b = none) :
    Segment (links.linkUp ((a :: as).zip as)).next (links.linkUp ((a :: as).zip as)).prev
      (links.prev a) (some a) (a :: as) := by
  induction as generalizing a links with
  | nil => exact ⟨rfl, rfl, hend a List.mem_cons_self⟩
  | cons b as ih =>
      obtain ⟨hnew, hrest⟩ := List.nodup_cons.mp hnodup
      have hne : ∀ c ∈ b :: as, a ≠ c := by
        rintro c hc rfl
        exact hnew hc
      have hend' : ∀ c ∈ b :: as, (links.link a b).next c = none := by
        intro c hc
        rw [link_next_of_ne (hne c hc).symm]
        exact hend c (List.mem_cons_of_mem a hc)
      have hsegment := ih hrest hend'
      rw [link_prev_self] at hsegment
      rw [List.zip_cons_cons, linkUp_cons]
      have hnext : (((links.link a b).linkUp ((b :: as).zip as)).next a) = some b := by
        rw [linkUp_next_of_forall_ne, link_next_self]
        intro pair hpair
        exact hne _ (List.of_mem_zip hpair).1
      have hprev : (((links.link a b).linkUp ((b :: as).zip as)).prev a) = links.prev a := by
        rw [linkUp_prev_of_forall_ne, link_prev_of_ne (hne b List.mem_cons_self)]
        intro pair hpair
        exact hne _ (List.mem_cons_of_mem b (List.of_mem_zip hpair).2)
      refine ⟨rfl, hprev, ?_⟩
      rw [hnext]
      exact hsegment

/-- **A list without duplicates, linked up from no links, is a doubly linked list.** -/
theorem doublyLinked_linkUp {as : List β} (h : as.Nodup) :
    DoublyLinked (empty.linkUp (as.zip as.tail)).next (empty.linkUp (as.zip as.tail)).prev
      as.head? as := by
  cases as with
  | nil => exact DoublyLinked.nil
  | cons a as => exact ⟨segment_linkUp h fun _ _ => rfl, h⟩

/-- Its links are inverse to each other, also where there are none. -/
theorem linkUp_inverse {as : List β} (h : as.Nodup) :
    (empty.linkUp (as.zip as.tail)).next a = some b ↔
      (empty.linkUp (as.zip as.tail)).prev b = some a := by
  constructor
  · intro hnext
    have hpair := (mem_of_linkUp_next hnext).resolve_left (by simp [empty])
    obtain ⟨ha, hb⟩ := List.of_mem_zip hpair
    exact ((doublyLinked_linkUp h).inverse ha (List.mem_of_mem_tail hb)).mp hnext
  · intro hprev
    have hpair := (mem_of_linkUp_prev hprev).resolve_left (by simp [empty])
    obtain ⟨ha, hb⟩ := List.of_mem_zip hpair
    exact ((doublyLinked_linkUp h).inverse ha (List.mem_of_mem_tail hb)).mpr hprev

end Links

end LdbToolchain.Linked
