import Mathlib

/-!
# Runs of equal rank

A list is cut into runs whose elements have the rank of the first of them. If ranks go up by at most
one from an element to the next, then the runs are the classes of equal rank, one for every rank from
the first to the last (`runsFrom_eq`).
-/

namespace LdbToolchain.Levels

variable {α : Type} {rank : α → Int}

/-- The runs of a list, after the elements `run` of the first one. -/
def runsFrom (rank : α → Int) (run : List α) : List α → List (List α)
  | [] => if run = [] then [] else [run]
  | a :: l =>
    if run.head?.map rank = some (rank a) then runsFrom rank (run ++ [a]) l
    else run :: runsFrom rank [a] l

/-- The runs of a list. -/
def runs (rank : α → Int) : List α → List (List α)
  | [] => []
  | a :: l => runsFrom rank [a] l

/-- Ranks stay the same from an element to the next, or go up by one. -/
def Climbs (rank : α → Int) (l : List α) : Prop :=
  l.IsChain fun a b => rank b = rank a ∨ rank b = rank a + 1

theorem Climbs.le {a : α} {l : List α} (h : Climbs rank (a :: l)) : ∀ b ∈ l, rank a ≤ rank b := by
  induction l generalizing a with
  | nil => exact fun b hb => absurd hb List.not_mem_nil
  | cons b l ih =>
      obtain ⟨hstep, hrest⟩ := List.isChain_cons_cons.mp h
      have hab : rank a ≤ rank b := by omega
      intro c hc
      rcases List.mem_cons.mp hc with rfl | hc
      · exact hab
      · exact hab.trans (ih hrest c hc)

theorem filter_of_rank {l : List α} {k : Int} (h : ∀ a ∈ l, rank a = k) :
    l.filter (rank · = k) = l := by
  rw [List.filter_eq_self]
  intro a ha
  exact decide_eq_true (h a ha)

theorem filter_of_rank_ne {l : List α} {k : Int} (h : ∀ a ∈ l, rank a ≠ k) :
    l.filter (rank · = k) = [] := by
  rw [List.filter_eq_nil_iff]
  intro a ha hk
  exact h a ha (of_decide_eq_true hk)

/-- The elements of rank `k` before those of higher ranks are the first of the classes. -/
theorem classes_append {run l : List α} {k : Int} (hrun : ∀ a ∈ run, rank a = k)
    (hlater : ∀ a ∈ l, k < rank a) (n : Nat) :
    run :: (List.range n).map (fun i : Nat => l.filter (rank · = k + 1 + i))
      = (List.range (n + 1)).map (fun i : Nat => (run ++ l).filter (rank · = k + i)) := by
  have hnext : ∀ a ∈ l, rank a ≠ k := fun a ha => (hlater a ha).ne'
  rw [List.range_succ_eq_map, List.map_cons, List.map_map]
  congr 1
  · rw [List.filter_append, Nat.cast_zero, Int.add_zero, filter_of_rank hrun,
      filter_of_rank_ne hnext, List.append_nil]
  · apply List.map_congr_left
    intro i _
    have hindex : k + ((i + 1 : Nat) : Int) = k + 1 + i := by omega
    show _ = (run ++ l).filter (rank · = k + ((i + 1 : Nat) : Int))
    rw [List.filter_append, hindex, filter_of_rank_ne (l := run), List.nil_append]
    intro c hc
    rw [hrun c hc]
    omega

/-- The runs of a list that climbs from the rank `k` are its classes of rank `k`, `k + 1` and so on up
to the highest. -/
theorem runsFrom_eq {run l : List α} {k : Int} (hne : run ≠ []) (hrun : ∀ a ∈ run, rank a = k)
    {last : α} (hlast : run.getLast? = some last) (hclimbs : Climbs rank (last :: l)) :
    ∃ n : Nat, runsFrom rank run l
        = (List.range (n + 1)).map (fun i : Nat => (run ++ l).filter (rank · = k + i)) ∧
      (∀ a ∈ run ++ l, rank a ≤ k + n) ∧ ∃ a ∈ run ++ l, rank a = k + n := by
  have hfirst : run.head?.map rank = some k := by
    obtain ⟨a, rest, rfl⟩ := List.exists_cons_of_ne_nil hne
    rw [List.head?_cons, Option.map_some, hrun a List.mem_cons_self]
  have hlastRank : rank last = k := hrun last (List.mem_of_getLast? hlast)
  induction l generalizing run k last with
  | nil =>
      refine ⟨0, ?_, ?_, last, ?_, ?_⟩
      · rw [runsFrom, if_neg hne, List.append_nil]
        simp [filter_of_rank hrun]
      · intro a ha
        rw [List.append_nil] at ha
        rw [hrun a ha]
        omega
      · rw [List.append_nil]
        exact List.mem_of_getLast? hlast
      · rw [hlastRank]
        omega
  | cons a l ih =>
      obtain ⟨hstep, hrest⟩ := List.isChain_cons_cons.mp hclimbs
      rw [runsFrom, hfirst]
      by_cases hsame : rank a = k
      · -- the run goes on
        rw [if_pos (by rw [hsame])]
        have hrun' : ∀ b ∈ run ++ [a], rank b = k :=
          List.forall_mem_append.mpr ⟨hrun, List.forall_mem_singleton.mpr hsame⟩
        obtain ⟨n, heq, hle, hmax⟩ := ih (show run ++ [a] ≠ [] by simp) hrun'
          List.getLast?_concat hrest (by rwa [List.head?_append_of_ne_nil _ hne]) hsame
        rw [List.append_assoc, List.singleton_append] at heq hle hmax
        exact ⟨n, heq, hle, hmax⟩
      · -- a run of the next rank begins
        have hnext : rank a = k + 1 := by omega
        rw [if_neg (fun h => hsame (Option.some.inj h).symm)]
        obtain ⟨n, heq, hle, b, hb, hbmax⟩ := ih (show [a] ≠ [] by simp)
          (List.forall_mem_singleton.mpr hnext) rfl hrest (by rw [← hnext]; rfl) hnext
        rw [List.singleton_append] at heq hle hb
        have hlater : ∀ c ∈ a :: l, k < rank c := by
          intro c hc
          rcases List.mem_cons.mp hc with rfl | hc
          · omega
          · have := Climbs.le hrest c hc
            omega
        refine ⟨n + 1, ?_, ?_, b, List.mem_append_right run hb, by omega⟩
        · rw [heq, classes_append hrun hlater]
        · intro c hc
          rcases List.mem_append.mp hc with hc | hc
          · rw [hrun c hc]
            omega
          · have := hle c hc
            omega

/-- **The runs of a list that climbs are its classes**, one for every rank from the first to the
highest. -/
theorem runs_eq {l : List α} {first : α} (hfirst : l.head? = some first) (h : Climbs rank l) :
    ∃ n : Nat, runs rank l
        = (List.range (n + 1)).map (fun i : Nat => l.filter (rank · = rank first + i)) ∧
      (∀ a ∈ l, rank a ≤ rank first + n) ∧ ∃ a ∈ l, rank a = rank first + n := by
  cases l with
  | nil => cases hfirst
  | cons a l =>
      cases hfirst
      exact runsFrom_eq (show [first] ≠ [] by simp) (List.forall_mem_singleton.mpr rfl) rfl h

end LdbToolchain.Levels
