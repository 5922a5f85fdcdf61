import Mathlib.Data.Finset.Card
import Mathlib.Data.Finset.Insert
import Mathlib.Logic.Relation

/-!
# Depth-first search over a table of marks

An object's edges are walked in order. An edge is followed, which visits its target, or only noted,
which marks its target and leaves it alone. One table of marks serves a list of starting objects,
and each of them is unmarked again when its visit is over. What the table holds at the end is what
was found from the starting objects, less these objects (`mem_sweep_iff`), as long as none of them
is found from another one and what is noted has no edges.
-/

namespace LdbToolchain.MarkedSearch

/-- What an object says about another one. -/
inductive Edge (α : Type) where
  /-- The target is visited in turn. -/
  | follow (target : α)
  /-- The target is marked, and not visited. -/
  | note (target : α)
deriving DecidableEq, Repr

def Edge.target {α : Type} : Edge α → α
  | follow b => b
  | note b => b

variable {α : Type}

/-! ## What there is to find -/

/-- One edge to follow. -/
def Follows (edges : α → List (Edge α)) (a b : α) : Prop := .follow b ∈ edges a

/-- Any number of edges to follow. -/
def Reaches (edges : α → List (Edge α)) : α → α → Prop := Relation.ReflTransGen (Follows edges)

/-- Reached, or noted by an object that is. -/
def Found (edges : α → List (Edge α)) (a x : α) : Prop :=
  Reaches edges a x ∨ ∃ o, Reaches edges a o ∧ .note x ∈ edges o

/-- What an edge leads to. -/
def Edge.Finds (edges : α → List (Edge α)) : Edge α → α → Prop
  | follow b, x => Found edges b x
  | note b, x => x = b

/-- The objects noted by what is reached from `a` have no edges. -/
def NotedAreLeaves (edges : α → List (Edge α)) (a : α) : Prop :=
  ∀ o x, Reaches edges a o → .note x ∈ edges o → edges x = []

variable {edges : α → List (Edge α)}

theorem Found.of_follows {a b x : α} (hab : Follows edges a b) (hbx : Found edges b x) :
    Found edges a x := by
  rcases hbx with hreach | ⟨o, hreach, hnote⟩
  · exact .inl (.head hab hreach)
  · exact .inr ⟨o, .head hab hreach, hnote⟩

theorem Edge.Finds.found {a x : α} {e : Edge α} (he : e ∈ edges a) (hx : e.Finds edges x) :
    Found edges a x := by
  cases e with
  | follow b => exact .of_follows he hx
  | note b =>
      cases hx
      exact .inr ⟨a, .refl, he⟩

theorem NotedAreLeaves.of_follows {a b : α} (h : NotedAreLeaves edges a)
    (hab : Follows edges a b) : NotedAreLeaves edges b :=
  fun o x hreach hnote => h o x (.head hab hreach) hnote

/-- The starting objects do not meet: none is found from another one, or noted at all. -/
structure Apart (edges : α → List (Edge α)) (args : List α) : Prop where
  reach : ∀ a ∈ args, ∀ c ∈ args, Reaches edges a c → c = a
  note : ∀ a ∈ args, ∀ c ∈ args, ∀ o, Reaches edges a o → .note c ∉ edges o
  leaves : ∀ a ∈ args, NotedAreLeaves edges a

theorem Apart.eq_of_found {args : List α} (h : Apart edges args) {a c : α} (ha : a ∈ args)
    (hc : c ∈ args) (hac : Found edges a c) : c = a := by
  rcases hac with hreach | ⟨o, hreach, hnote⟩
  · exact h.reach a ha c hc hreach
  · exact absurd hnote (h.note a ha c hc o hreach)

/-- The targets of what was found are found. -/
theorem Apart.found_target {args : List α} (h : Apart edges args) {p x : α} (hp : p ∈ args)
    (hx : Found edges p x) {e : Edge α} (he : e ∈ edges x) : Found edges p e.target := by
  rcases hx with hreach | ⟨o, hreach, hnote⟩
  · cases e with
    | follow b => exact .inl (hreach.tail he)
    | note b => exact .inr ⟨x, hreach, he⟩
  · rw [h.leaves p hp o x hreach hnote] at he
    cases he

theorem Apart.of_same {args args' : List α} (hsame : ∀ a, a ∈ args' ↔ a ∈ args)
    (h : Apart edges args) : Apart edges args' where
  reach := fun a ha c hc => h.reach a ((hsame a).mp ha) c ((hsame c).mp hc)
  note := fun a ha c hc => h.note a ((hsame a).mp ha) c ((hsame c).mp hc)
  leaves := fun a ha => h.leaves a ((hsame a).mp ha)

/-! ## What a walk does to the marks -/

/-- What a walk has done to the marks: every mark it made was to be found, and every object that it
marked has its targets marked too. -/
structure Extends (edges : α → List (Edge α)) (Finds : α → Prop) (seen seen' : Finset α) :
    Prop where
  subset : seen ⊆ seen'
  sound : ∀ x ∈ seen', x ∉ seen → Finds x
  closed : ∀ x ∈ seen', x ∉ seen → ∀ e ∈ edges x, e.target ∈ seen'

theorem Extends.refl (Finds : α → Prop) (seen : Finset α) : Extends edges Finds seen seen :=
  ⟨Finset.Subset.refl _, fun _ hx hnx => absurd hx hnx, fun _ hx hnx => absurd hx hnx⟩

theorem Extends.trans {P Q R : α → Prop} {s₁ s₂ s₃ : Finset α} (h₁ : Extends edges P s₁ s₂)
    (h₂ : Extends edges Q s₂ s₃) (hP : ∀ x, P x → R x) (hQ : ∀ x, Q x → R x) :
    Extends edges R s₁ s₃ where
  subset := h₁.subset.trans h₂.subset
  sound := by
    intro x hx hnew
    by_cases hmid : x ∈ s₂
    · exact hP x (h₁.sound x hmid hnew)
    · exact hQ x (h₂.sound x hx hmid)
  closed := by
    intro x hx hnew e he
    by_cases hmid : x ∈ s₂
    · exact h₂.subset (h₁.closed x hmid hnew e he)
    · exact h₂.closed x hx hmid e he

variable [DecidableEq α]

/-! ## The search -/

/-- Visit an object: nothing to do if it is marked, otherwise mark it and walk its edges. -/
def visit (edges : α → List (Edge α)) : Nat → α → Finset α → Option (Finset α)
  | 0, _, _ => none
  | n + 1, a, seen =>
    if a ∈ seen then some seen
    else (edges a).foldlM (fun s e =>
      match e with
      | .follow b => visit edges n b s
      | .note b => some (insert b s)) (insert a seen)

/-- Walk one edge. -/
def walk (edges : α → List (Edge α)) (n : Nat) (s : Finset α) : Edge α → Option (Finset α)
  | .follow b => visit edges n b s
  | .note b => some (insert b s)

theorem visit_succ (n : Nat) (a : α) (seen : Finset α) :
    visit edges (n + 1) a seen
      = if a ∈ seen then some seen else (edges a).foldlM (walk edges n) (insert a seen) := by
  rw [visit]
  congr 2

/-- Visit the starting objects in turn, and unmark each of them after its visit. -/
def sweep (edges : α → List (Edge α)) (n : Nat) (args : List α) : Option (Finset α) :=
  args.foldlM (fun seen a => (visit edges n a seen).map (·.erase a)) ∅

/-! ## One visit -/

/-- A note marks its target, which has no targets of its own. -/
theorem Extends.insert_leaf {b : α} (hleaf : edges b = []) (seen : Finset α) :
    Extends edges (· = b) seen (insert b seen) where
  subset := Finset.subset_insert b seen
  sound := by
    intro x hx hnew
    exact (Finset.mem_insert.mp hx).resolve_right hnew
  closed := by
    intro x hx hnew e he
    rw [(Finset.mem_insert.mp hx).resolve_right hnew, hleaf] at he
    cases he

/-- What a visit of `a` leaves behind. -/
structure Visited (edges : α → List (Edge α)) (a : α) (seen seen' : Finset α) : Prop extends
    Extends edges (Found edges a) seen seen' where
  mem : a ∈ seen'

/-- The step: what the edges of one object do, when visits with this fuel do what they should. -/
theorem foldlM_walk {n : Nat} {U : Finset α} (es : List (Edge α))
    (hvisit : ∀ b, .follow b ∈ es → ∀ s, U ⊆ s →
      ∃ s', visit edges n b s = some s' ∧ Visited edges b s s')
    (hleaf : ∀ b, .note b ∈ es → edges b = []) (s : Finset α) (hU : U ⊆ s) :
    ∃ s', es.foldlM (walk edges n) s = some s' ∧ (∀ e ∈ es, e.target ∈ s') ∧
      Extends edges (fun x => ∃ e ∈ es, e.Finds edges x) s s' := by
  induction es generalizing s with
  | nil => exact ⟨s, rfl, fun e he => absurd he List.not_mem_nil, .refl _ s⟩
  | cons e es ih =>
      have hwalk : ∃ s₁, walk edges n s e = some s₁ ∧ e.target ∈ s₁ ∧
          Extends edges (e.Finds edges) s s₁ := by
        cases e with
        | follow b =>
            obtain ⟨s₁, hrun, hdone⟩ := hvisit b List.mem_cons_self s hU
            exact ⟨s₁, hrun, hdone.mem, hdone.toExtends⟩
        | note b =>
            exact ⟨insert b s, rfl, Finset.mem_insert_self b s,
              .insert_leaf (hleaf b List.mem_cons_self) s⟩
      obtain ⟨s₁, hrun₁, hmem₁, hext₁⟩ := hwalk
      obtain ⟨s₂, hrun₂, hmem₂, hext₂⟩ := ih
        (fun b hb => hvisit b (List.mem_cons_of_mem e hb))
        (fun b hb => hleaf b (List.mem_cons_of_mem e hb)) s₁ (hU.trans hext₁.subset)
      refine ⟨s₂, ?_, ?_, hext₁.trans hext₂ ?_ ?_⟩
      · rw [List.foldlM_cons, hrun₁]
        exact hrun₂
      · intro e' he'
        rcases List.mem_cons.mp he' with rfl | htail
        · exact hext₂.subset hmem₁
        · exact hmem₂ e' htail
      · exact fun x hx => ⟨e, List.mem_cons_self, hx⟩
      · exact fun x hx => hx.imp fun e' h => ⟨List.mem_cons_of_mem e h.1, h.2⟩

/-- Fuel beyond the number of unmarked objects is enough for a visit, because every visit that goes
on marks one more. -/
theorem visit_spec {O : Finset α} (hO : ∀ o ∈ O, ∀ b, Follows edges o b → b ∈ O) (n : Nat)
    (a : α) (seen : Finset α) (ha : a ∈ O) (hleaf : NotedAreLeaves edges a)
    (hfuel : (O \ seen).card < n) :
    ∃ seen', visit edges n a seen = some seen' ∧ Visited edges a seen seen' := by
  induction n generalizing a seen with
  | zero => exact absurd hfuel (Nat.not_lt_zero _)
  | succ n ih =>
      rw [visit_succ]
      by_cases hmarked : a ∈ seen
      · rw [if_pos hmarked]
        exact ⟨seen, rfl, .refl _ seen, hmarked⟩
      · rw [if_neg hmarked]
        have hless : (O \ insert a seen).card < (O \ seen).card := by
          apply Finset.card_lt_card
          refine ⟨Finset.sdiff_subset_sdiff (Finset.Subset.refl O) (Finset.subset_insert a seen),
            fun h => ?_⟩
          have := h (Finset.mem_sdiff.mpr ⟨ha, hmarked⟩)
          grind
        have hvisit : ∀ b, .follow b ∈ edges a → ∀ s, insert a seen ⊆ s →
            ∃ s', visit edges n b s = some s' ∧ Visited edges b s s' := by
          intro b hb s hs
          apply ih b s (hO a ha b hb) (hleaf.of_follows hb)
          have := Finset.card_le_card (Finset.sdiff_subset_sdiff (Finset.Subset.refl O) hs)
          omega
        obtain ⟨seen', hrun, hmem, hext⟩ := foldlM_walk (edges a) hvisit
          (fun b hb => hleaf a b .refl hb) (insert a seen) (Finset.Subset.refl _)
        refine ⟨seen', hrun, ⟨?_, ?_, ?_⟩, ?_⟩
        · exact (Finset.subset_insert a seen).trans hext.subset
        · intro x hx hnew
          by_cases heq : x = a
          · rw [heq]
            exact .inl .refl
          · obtain ⟨e, he, hfinds⟩ := hext.sound x hx (by grind)
            exact hfinds.found he
        · intro x hx hnew
          by_cases heq : x = a
          · rw [heq]
            exact hmem
          · exact hext.closed x hx (by grind)
        · exact hext.subset (Finset.mem_insert_self a seen)

/-! ## The sweep -/

/-- The marks after the visits of the starting objects `done`. -/
def Marked (edges : α → List (Edge α)) (done : List α) (seen : Finset α) : Prop :=
  ∀ x, x ∈ seen ↔ (∃ p ∈ done, Found edges p x) ∧ x ∉ done

/-- A visit of the next starting object finds everything, although it stops at what is marked from
before: the targets of a marked object are marked already, or are starting objects. -/
theorem Apart.complete {done : List α} {a : α} (h : Apart edges (done ++ [a]))
    {seen seen' : Finset α} (hseen : Marked edges done seen) (hdone : Visited edges a seen seen')
    {x : α} (hx : Found edges a x) : x ∈ seen' := by
  have ha : a ∈ done ++ [a] := List.mem_append_right _ (List.mem_singleton_self a)
  have htarget : ∀ y, Reaches edges a y → y ∈ seen' → ∀ e ∈ edges y, e.target ∈ seen' := by
    intro y hreach hy e he
    by_cases hold : y ∈ seen
    · obtain ⟨⟨p, hp, hfound⟩, -⟩ := (hseen y).mp hold
      by_cases hstart : e.target ∈ done
      · -- a starting object that is found from `a` is `a`
        have heq := h.eq_of_found ha (List.mem_append_left _ hstart)
          (h.found_target ha (.inl hreach) he)
        rw [heq]
        exact hdone.mem
      · apply hdone.subset
        exact (hseen _).mpr
          ⟨⟨p, hp, h.found_target (List.mem_append_left _ hp) hfound he⟩, hstart⟩
    · exact hdone.closed y hy hold e he
  have hreached : ∀ y, Reaches edges a y → y ∈ seen' := by
    intro y hreach
    induction hreach with
    | refl => exact hdone.mem
    | tail hfirst hlast ih => exact htarget _ hfirst ih _ hlast
  rcases hx with hreach | ⟨o, hreach, hnote⟩
  · exact hreached x hreach
  · exact htarget o hreach (hreached o hreach) _ hnote

/-- The step of the sweep: a visit, and the mark of its starting object taken away. -/
theorem Marked.erase {done : List α} {a : α} (h : Apart edges (done ++ [a]))
    {seen seen' : Finset α} (hseen : Marked edges done seen) (hdone : Visited edges a seen seen') :
    Marked edges (done ++ [a]) (seen'.erase a) := by
  have ha : a ∈ done ++ [a] := List.mem_append_right _ (List.mem_singleton_self a)
  intro x
  rw [Finset.mem_erase]
  constructor
  · rintro ⟨hne, hx⟩
    by_cases hold : x ∈ seen
    · obtain ⟨⟨p, hp, hfound⟩, hstart⟩ := (hseen x).mp hold
      exact ⟨⟨p, List.mem_append_left _ hp, hfound⟩, by grind⟩
    · have hfound := hdone.sound x hx hold
      exact ⟨⟨a, ha, hfound⟩, fun hstart => hne (h.eq_of_found ha hstart hfound)⟩
  · rintro ⟨⟨p, hp, hfound⟩, hstart⟩
    refine ⟨by grind, ?_⟩
    rcases List.mem_append.mp hp with hp | hp
    · exact hdone.subset ((hseen x).mpr ⟨⟨p, hp, hfound⟩, by grind⟩)
    · rw [List.mem_singleton.mp hp] at hfound
      exact h.complete hseen hdone hfound

theorem foldlM_visit {O : Finset α} (hO : ∀ o ∈ O, ∀ b, Follows edges o b → b ∈ O) {n : Nat}
    (hfuel : O.card < n) (args done : List α) (seen : Finset α) (hargs : ∀ a ∈ args, a ∈ O)
    (h : Apart edges (done ++ args)) (hseen : Marked edges done seen) :
    ∃ seen', args.foldlM (fun s a => (visit edges n a s).map (·.erase a)) seen = some seen' ∧
      Marked edges (done ++ args) seen' := by
  induction args generalizing done seen with
  | nil =>
      rw [List.append_nil]
      exact ⟨seen, rfl, hseen⟩
  | cons a args ih =>
      have happ : done ++ a :: args = done ++ [a] ++ args := by
        rw [List.append_assoc, List.singleton_append]
      rw [happ] at h ⊢
      have hfirst : Apart edges (done ++ [a]) :=
        ⟨fun p hp c hc => h.reach p (List.mem_append_left _ hp) c (List.mem_append_left _ hc),
          fun p hp c hc => h.note p (List.mem_append_left _ hp) c (List.mem_append_left _ hc),
          fun p hp => h.leaves p (List.mem_append_left _ hp)⟩
      have hroom : (O \ seen).card < n :=
        Nat.lt_of_le_of_lt (Finset.card_le_card Finset.sdiff_subset) hfuel
      obtain ⟨s₁, hrun, hdone⟩ := visit_spec hO n a seen (hargs a List.mem_cons_self)
        (hfirst.leaves a (List.mem_append_right _ (List.mem_singleton_self a))) hroom
      obtain ⟨s₂, hrest, hmarked⟩ := ih (done ++ [a]) (s₁.erase a)
        (fun c hc => hargs c (List.mem_cons_of_mem a hc)) h (hseen.erase hfirst hdone)
      refine ⟨s₂, ?_, hmarked⟩
      rw [List.foldlM_cons, hrun]
      exact hrest

/-- The sweep comes to an end, and leaves marked what is found from the starting objects and is not
one of them. -/
theorem mem_sweep_iff {O : Finset α} (hO : ∀ o ∈ O, ∀ b, Follows edges o b → b ∈ O) {n : Nat}
    (hfuel : O.card < n) {args : List α} (hargs : ∀ a ∈ args, a ∈ O) (h : Apart edges args) :
    ∃ marks, sweep edges n args = some marks ∧
      ∀ x, x ∈ marks ↔ (∃ a ∈ args, Found edges a x) ∧ x ∉ args := by
  have hnone : Marked edges [] (∅ : Finset α) := by
    intro x
    simp
  exact foldlM_visit hO hfuel args [] ∅ hargs h hnone

end LdbToolchain.MarkedSearch
