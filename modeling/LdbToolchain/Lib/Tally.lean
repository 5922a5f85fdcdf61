import Mathlib

/-!
# Tallies

A list of keys with weights, and the sum of the weights of the keys that satisfy a predicate. Sorting
the keys into classes splits a tally (`sum_tally_fibers`); two lists that give each key the same
weight give every predicate the same tally (`tally_eq_of_same`).

Also the distinct keys of a list, in the order in which they first occur: `List.eraseDups`.
-/

namespace LdbToolchain

section Tally

variable {κ ι M : Type} [AddCommMonoid M]

/-- The total weight of the keys that satisfy `P`. -/
def tally (P : κ → Prop) [DecidablePred P] (l : List (κ × M)) : M :=
  ((l.filter fun x => P x.1).map Prod.snd).sum

variable {P Q : κ → Prop} [DecidablePred P] [DecidablePred Q]

@[simp] theorem tally_nil : tally P ([] : List (κ × M)) = 0 := rfl

theorem tally_cons (x : κ × M) (l : List (κ × M)) :
    tally P (x :: l) = (if P x.1 then x.2 else 0) + tally P l := by
  unfold tally
  by_cases h : P x.1
  · rw [List.filter_cons_of_pos (by simpa using h), List.map_cons, List.sum_cons, if_pos h]
  · rw [List.filter_cons_of_neg (by simpa using h), if_neg h, zero_add]

theorem tally_append (l l' : List (κ × M)) : tally P (l ++ l') = tally P l + tally P l' := by
  unfold tally
  rw [List.filter_append, List.map_append, List.sum_append]

theorem tally_congr {l : List (κ × M)} (h : ∀ x ∈ l, P x.1 ↔ Q x.1) : tally P l = tally Q l := by
  unfold tally
  congr 2
  apply List.filter_congr
  intro x hx
  rw [decide_eq_decide]
  exact h x hx

theorem tally_eq_zero {l : List (κ × M)} (h : ∀ x ∈ l, ¬ P x.1) : tally P l = 0 := by
  unfold tally
  rw [List.filter_eq_nil_iff.mpr fun x hx => by simpa using h x hx]
  rfl

theorem tally_map {ι : Type} (f : ι → κ) (l : List (ι × M)) :
    tally P (l.map fun x => (f x.1, x.2)) = tally (fun x => P (f x)) l := by
  induction l with
  | nil => rfl
  | cons x l ih => rw [List.map_cons, tally_cons, tally_cons, ih]

/-- Splitting a tally in two. -/
theorem tally_add (l : List (κ × M)) (hdisj : ∀ x, ¬ (P x ∧ Q x)) :
    tally P l + tally Q l = tally (fun x => P x ∨ Q x) l := by
  induction l with
  | nil => exact add_zero 0
  | cons x l ih =>
      rw [tally_cons, tally_cons, tally_cons, ← ih, add_add_add_comm]
      congr 1
      by_cases hP : P x.1
      · have hQ : ¬ Q x.1 := fun hQ => hdisj x.1 ⟨hP, hQ⟩
        simp [hP, hQ]
      · simp [hP]

/-- **Splitting a tally by a classification** `f` of the keys: the classes that occur are among the
distinct `ks`. -/
theorem sum_tally_fibers [DecidableEq ι] (f : κ → Option ι) {ks : List ι} (hnodup : ks.Nodup)
    {l : List (κ × M)} (hks : ∀ x ∈ l, ∀ k, f x.1 = some k → k ∈ ks) :
    (ks.map fun k => tally (fun x => f x = some k) l).sum
      = tally (fun x => (f x).isSome = true) l := by
  induction l with
  | nil => simp
  | cons x l ih =>
      have hrest := ih fun y hy => hks y (List.mem_cons_of_mem x hy)
      simp only [tally_cons, List.sum_map_add, hrest]
      congr 1
      -- `x` falls into no class, or into one of `ks`
      cases hx : f x.1 with
      | none => simp
      | some k =>
          have hk : k ∈ ks := hks x (List.mem_cons_self ..) k hx
          rw [← List.sum_toFinset _ hnodup]
          simp [hk]

/-- **Tallies depend on the keys' weights only.** -/
theorem tally_eq_of_same [DecidableEq κ] {l l' : List (κ × M)}
    (hkeys : ∀ k, k ∈ l.map Prod.fst ↔ k ∈ l'.map Prod.fst)
    (hweights : ∀ k, tally (· = k) l = tally (· = k) l') : tally P l = tally P l' := by
  have hsplit : ∀ m : List (κ × M), (∀ k, k ∈ m.map Prod.fst → k ∈ l.map Prod.fst) →
      tally P m = ((l.map Prod.fst).dedup.map fun k =>
        if P k then tally (· = k) m else 0).sum := by
    intro m hm
    -- the keys that satisfy `P`, each a class of its own
    let f : κ → Option κ := fun x => if P x then some x else none
    have hf : ∀ x k, f x = some k ↔ P x ∧ x = k := by
      intro x k
      by_cases hP : P x <;> simp [f, hP]
    have hfibers := sum_tally_fibers f (l.map Prod.fst).nodup_dedup (l := m) fun x hx k hk => by
      rw [List.mem_dedup, ← ((hf x.1 k).mp hk).2]
      exact hm x.1 (List.mem_map_of_mem hx)
    have htotal : tally (fun x => (f x).isSome = true) m = tally P m := by
      apply tally_congr
      intro x _
      by_cases hP : P x.1 <;> simp [f, hP]
    rw [← htotal, ← hfibers]
    congr 1
    apply List.map_congr_left
    intro k _
    by_cases hP : P k
    · rw [if_pos hP]
      apply tally_congr
      intro x _
      rw [hf]
      exact ⟨fun h => h.2, fun h => ⟨h ▸ hP, h⟩⟩
    · rw [if_neg hP]
      apply tally_eq_zero
      intro x _ hx
      obtain ⟨hPx, rfl⟩ := (hf x.1 k).mp hx
      exact hP hPx
  rw [hsplit l fun _ h => h, hsplit l' fun k h => (hkeys k).mpr h]
  congr 1
  apply List.map_congr_left
  intro k _
  rw [hweights]

end Tally

/-! ## Positive weights -/

section Positive

variable {κ : Type} {P Q : κ → Prop} [DecidablePred P] [DecidablePred Q] {l : List (κ × Int)}

theorem exists_of_tally_ne_zero (h : tally P l ≠ 0) : ∃ x ∈ l, P x.1 := by
  by_contra hnone
  apply h
  apply tally_eq_zero
  intro x hx hP
  exact hnone ⟨x, hx, hP⟩

theorem tally_pos (hpos : ∀ x ∈ l, 0 < x.2) (h : ∃ x ∈ l, P x.1) : 0 < tally P l := by
  obtain ⟨x, hx, hP⟩ := h
  apply List.sum_pos
  · intro y hy
    obtain ⟨z, hz, rfl⟩ := List.mem_map.mp hy
    exact hpos z (List.mem_filter.mp hz).1
  · intro hnil
    have hmem : x ∈ l.filter fun x => P x.1 := List.mem_filter.mpr ⟨hx, decide_eq_true hP⟩
    rw [List.map_eq_nil_iff.mp hnil] at hmem
    cases hmem

/-- What holds of more keys weighs more. -/
theorem tally_lt (hpos : ∀ x ∈ l, 0 < x.2) (hsub : ∀ x ∈ l, P x.1 → Q x.1)
    (hmore : ∃ x ∈ l, Q x.1 ∧ ¬ P x.1) : tally P l < tally Q l := by
  calc tally P l < tally P l + tally (fun x => Q x ∧ ¬ P x) l :=
        lt_add_of_pos_right _ (tally_pos hpos hmore)
    _ = tally (fun x => P x ∨ Q x ∧ ¬ P x) l := tally_add l fun x h => h.2.2 h.1
    _ = tally Q l := by
        apply tally_congr
        intro x hx
        have := hsub x hx
        grind

/-- **Two measures of the keys, one below the other, that have the same tallies are the same.** -/
theorem measure_eq_of_tally_eq {u v : κ → Nat} (hpos : ∀ x ∈ l, 0 < x.2)
    (hle : ∀ x ∈ l, u x.1 ≤ v x.1)
    (htally : ∀ i, tally (fun k => i < u k) l = tally (fun k => i < v k) l) :
    ∀ x ∈ l, u x.1 = v x.1 := by
  intro x hx
  by_contra hne
  have hlt : tally (fun k => u x.1 < u k) l < tally (fun k => u x.1 < v k) l := by
    apply tally_lt hpos
    · intro y hy hyu
      exact hyu.trans_le (hle y hy)
    · exact ⟨x, hx, lt_of_le_of_ne (hle x hx) hne, lt_irrefl _⟩
  exact hlt.ne (htally (u x.1))

end Positive

/-! ## Distinct keys -/

/-- An element of a list with distinct keys is the only one with its key. -/
theorem filter_key_eq_singleton {α κ : Type} [DecidableEq κ] {key : α → κ} {l : List α}
    (hnodup : (l.map key).Nodup) {x : α} (hx : x ∈ l) :
    l.filter (fun y => key y = key x) = [x] := by
  induction l with
  | nil => cases hx
  | cons y l ih =>
      rw [List.map_cons, List.nodup_cons] at hnodup
      obtain ⟨hy, hnodup⟩ := hnodup
      rcases List.mem_cons.mp hx with rfl | hx
      · rw [List.filter_cons_of_pos (by simp), List.filter_eq_nil_iff.mpr]
        intro z hz hkey
        exact hy (of_decide_eq_true hkey ▸ List.mem_map_of_mem hz)
      · rw [List.filter_cons_of_neg, ih hnodup hx]
        intro hkey
        exact hy (of_decide_eq_true hkey ▸ List.mem_map_of_mem hx)

/-- Of distinct elements, one contributes. -/
theorem flatMap_eq_of_unique {α β : Type} {l : List α} (hnodup : l.Nodup) {g : α → List β} {x : α}
    (hx : x ∈ l) (h : ∀ y ∈ l, y ≠ x → g y = []) : l.flatMap g = g x := by
  induction l with
  | nil => cases hx
  | cons y l ih =>
      rw [List.nodup_cons] at hnodup
      rw [List.flatMap_cons]
      rcases List.mem_cons.mp hx with rfl | hmem
      · have hrest : l.flatMap g = [] := by
          rw [List.flatMap_eq_nil_iff]
          intro z hz
          apply h z (List.mem_cons_of_mem x hz)
          rintro rfl
          exact hnodup.1 hz
        rw [hrest, List.append_nil]
      · have hne : y ≠ x := by
          rintro rfl
          exact hnodup.1 hmem
        rw [h y List.mem_cons_self hne, List.nil_append]
        exact ih hnodup.2 hmem fun z hz => h z (List.mem_cons_of_mem y hz)

/-! ## First occurrences -/

section EraseDups

variable {κ : Type} [BEq κ] [LawfulBEq κ]

/-- A key is added at the end, unless it is there already. -/
theorem eraseDups_concat [DecidableEq κ] (l : List κ) (a : κ) :
    (l ++ [a]).eraseDups = if a ∈ l then l.eraseDups else l.eraseDups ++ [a] := by
  rw [List.eraseDups_append]
  by_cases h : a ∈ l
  · simp [h, List.removeAll]
  · simp [h, List.removeAll, List.eraseDups_cons]

/-- Runs of different keys: each key once, in the order of the runs. -/
theorem eraseDups_runs [DecidableEq κ] {ι : Type} {l : List ι} {key : ι → κ} {len : ι → Nat}
    (hnodup : (l.map key).Nodup) (hpos : ∀ x ∈ l, 0 < len x) :
    (l.flatMap fun x => List.replicate (len x) (key x)).eraseDups = l.map key := by
  induction l with
  | nil => rfl
  | cons x l ih =>
      rw [List.map_cons, List.nodup_cons] at hnodup
      obtain ⟨k, hk⟩ : ∃ k, len x = k + 1 := ⟨len x - 1, by have := hpos x List.mem_cons_self; omega⟩
      have hrest : ((List.replicate k (key x) ++ l.flatMap fun x => List.replicate (len x) (key x)
          ).filter fun b => !b == key x) = l.flatMap fun x => List.replicate (len x) (key x) := by
        rw [List.filter_append, List.filter_eq_nil_iff.mpr, List.nil_append, List.filter_eq_self]
        · intro y hy
          obtain ⟨z, hz, hy⟩ := List.mem_flatMap.mp hy
          rw [(List.mem_replicate.mp hy).2]
          have hne : key z ≠ key x := fun h => hnodup.1 (h ▸ List.mem_map_of_mem hz)
          simpa using hne
        · intro y hy
          rw [(List.mem_replicate.mp hy).2]
          simp
      rw [List.flatMap_cons, hk, List.replicate_succ, List.cons_append, List.eraseDups_cons, hrest,
        ih hnodup.2 fun y hy => hpos y (List.mem_cons_of_mem x hy), List.map_cons]

end EraseDups

end LdbToolchain
