import Mathlib.Data.List.Basic

/-!
# Splitting at a separator

`List.splitOn` cuts a list at every occurrence of a separator and `List.intercalate` puts one between
lists. That they are inverse to each other is known; what is added is which elements the pieces have,
and how both behave when a list is extended or filtered.
-/

namespace LdbToolchain.Split

variable {α : Type} {sep : α}

/-! ## Joined lists -/

theorem mem_intercalate {parts : List (List α)} {c : α} (hc : c ∈ [sep].intercalate parts) :
    c = sep ∨ ∃ part ∈ parts, c ∈ part := by
  induction parts with
  | nil => cases hc
  | cons part parts ih =>
      by_cases hparts : parts = []
      · rw [hparts, List.intercalate_singleton] at hc
        exact .inr ⟨part, List.mem_cons_self, hc⟩
      · rw [List.intercalate_cons_of_ne_nil hparts] at hc
        grind

theorem mem_intercalate_of_mem {parts : List (List α)} {part : List α} (hpart : part ∈ parts) {c : α}
    (hc : c ∈ part) : c ∈ [sep].intercalate parts := by
  induction parts with
  | nil => cases hpart
  | cons first parts ih =>
      by_cases hparts : parts = []
      · rw [hparts, List.mem_singleton] at hpart
        rw [hparts, List.intercalate_singleton, ← hpart]
        exact hc
      · rw [List.intercalate_cons_of_ne_nil hparts]
        grind

/-- What comes after a joined list goes to its last part. -/
theorem intercalate_concat_append (parts : List (List α)) (last s : List α) :
    [sep].intercalate (parts ++ [last]) ++ s = [sep].intercalate (parts ++ [last ++ s]) := by
  induction parts with
  | nil => rw [List.nil_append, List.nil_append, List.intercalate_singleton,
      List.intercalate_singleton]
  | cons part parts ih =>
      rw [List.cons_append, List.cons_append, List.intercalate_cons_of_ne_nil (by simp),
        List.intercalate_cons_of_ne_nil (by simp), List.append_assoc, ih]

theorem intercalate_concat {parts : List (List α)} (hparts : parts ≠ []) (last : List α) :
    [sep].intercalate (parts ++ [last]) = [sep].intercalate parts ++ sep :: last := by
  induction parts with
  | nil => exact absurd rfl hparts
  | cons part parts ih =>
      rw [List.cons_append, List.intercalate_cons_of_ne_nil (by simp)]
      by_cases hrest : parts = []
      · rw [hrest, List.nil_append, List.intercalate_singleton, List.intercalate_singleton,
          List.append_assoc]
        rfl
      · rw [ih hrest, List.intercalate_cons_of_ne_nil hrest, List.append_assoc, List.append_assoc,
          List.append_assoc]

theorem prefix_intercalate (parts : List (List α)) (last : List α) :
    [sep].intercalate parts <+: [sep].intercalate (parts ++ [last]) := by
  by_cases hparts : parts = []
  · rw [hparts]
    exact List.nil_prefix
  · rw [intercalate_concat hparts]
    exact List.prefix_append _ _

/-! ## Pieces of a list -/

theorem modifyHead_nil_append (parts : List (List α)) : parts.modifyHead ([] ++ ·) = parts := by
  cases parts with
  | nil => rfl
  | cons part parts => rfl

variable [BEq α] [LawfulBEq α]

theorem notMem_of_mem_splitOn {s part : List α} (hpart : part ∈ s.splitOn sep) : sep ∉ part := by
  induction s generalizing part with
  | nil =>
      rw [List.splitOn_nil, List.mem_singleton] at hpart
      rw [hpart]
      exact List.not_mem_nil
  | cons c s ih =>
      rw [List.splitOn_cons_eq_if_modifyHead] at hpart
      obtain ⟨first, rest, hsplit⟩ := List.exists_cons_of_ne_nil (List.splitOn_ne_nil sep s)
      rw [hsplit] at hpart ih
      split at hpart
      next =>
        rcases List.mem_cons.mp hpart with rfl | hpart
        · exact List.not_mem_nil
        · exact ih hpart
      next hc =>
        rw [List.modifyHead_cons] at hpart
        rcases List.mem_cons.mp hpart with rfl | hpart
        · have := ih List.mem_cons_self
          grind
        · exact ih (List.mem_cons_of_mem first hpart)

theorem mem_of_mem_splitOn {s part : List α} (hpart : part ∈ s.splitOn sep) {c : α}
    (hc : c ∈ part) : c ∈ s := by
  have hjoined : c ∈ [sep].intercalate (s.splitOn sep) := mem_intercalate_of_mem hpart hc
  rwa [List.intercalate_splitOn] at hjoined

/-- A list that is all one piece has no separator. -/
theorem notMem_of_length_splitOn {s : List α} (h : (s.splitOn sep).length = 1) : sep ∉ s := by
  obtain ⟨part, hpart⟩ := List.length_eq_one_iff.mp h
  have hjoined : [sep].intercalate (s.splitOn sep) = s := List.intercalate_splitOn sep
  rw [hpart, List.intercalate_singleton] at hjoined
  rw [← hjoined]
  apply notMem_of_mem_splitOn
  rw [hpart]
  exact List.mem_cons_self

/-- Leaving elements out of a list leaves them out of its pieces. -/
theorem splitOn_filter {keep : α → Bool} (hsep : keep sep = true) (s : List α) :
    (s.filter keep).splitOn sep = (s.splitOn sep).map (List.filter keep) := by
  induction s with
  | nil => rfl
  | cons c s ih =>
      obtain ⟨first, rest, hsplit⟩ := List.exists_cons_of_ne_nil (List.splitOn_ne_nil sep s)
      rw [hsplit, List.map_cons] at ih
      by_cases hc : c = sep
      · rw [hc, List.filter_cons_of_pos hsep, List.splitOn_cons_eq_if_modifyHead,
          List.splitOn_cons_eq_if_modifyHead, ih, hsplit]
        simp
      · by_cases hkeep : keep c = true
        · rw [List.filter_cons_of_pos hkeep, List.splitOn_cons_eq_if_modifyHead,
            List.splitOn_cons_eq_if_modifyHead, ih, hsplit]
          simp [hc, hkeep]
        · rw [List.filter_cons_of_neg hkeep, List.splitOn_cons_eq_if_modifyHead, ih, hsplit]
          simp [hc, hkeep]

/-- A joined list falls apart into the pieces of its parts. -/
theorem splitOn_intercalate_flatMap {parts : List (List α)} (hparts : parts ≠ []) :
    ([sep].intercalate parts).splitOn sep = parts.flatMap (List.splitOn sep) := by
  induction parts with
  | nil => exact absurd rfl hparts
  | cons part parts ih =>
      by_cases hrest : parts = []
      · rw [hrest, List.intercalate_singleton, List.flatMap_singleton]
      · rw [List.intercalate_cons_of_ne_nil hrest, List.append_assoc, List.singleton_append,
          List.splitOn_append_cons_self, ih hrest, List.flatMap_cons]

end LdbToolchain.Split
