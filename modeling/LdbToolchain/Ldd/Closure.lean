import LdbToolchain.Lib.MarkedSearch
import LdbToolchain.Ldd.Basic

/-!
# What ldd-recursive prints

The lines of `ldd` are the edges of a graph, which the script searches with its table as the marks
(`recurseLibs_eq_visit`). So it prints the libraries reached from its arguments and the names on the
short lines of what it visits, less the arguments (`script_prints`).
-/

namespace LdbToolchain.Ldd

open MarkedSearch

/-! ## Lines as edges -/

/-- What a line says. -/
inductive Entry where
  /-- The file has no libraries: the lines that follow are not looked at. -/
  | noLibraries
  /-- A missing library, the vdso, or nothing at all. -/
  | nothing
  /-- A line that names something, and is not of the form `name => path (addr)`. -/
  | short (name : Str)
  /-- `name => path (addr)`. -/
  | mapped (path : Str)
deriving DecidableEq, Repr

def entry (raw : Str) : Entry :=
  if isFalse raw then .nothing
  else if staticallyLinked.occurs (strip raw) || notDynamic.occurs (strip raw) then .noLibraries
  else if notFound.occurs (strip raw) || linuxVdso.occurs (strip raw) then .nothing
  else if (split (strip raw)).length < 4 then .short ((split (strip raw)).headD [])
  else .mapped ((split (strip raw)).getD 2 [])

/-- What the output of `ldd` says of a file: the library on a mapped line is visited, the name on a
short line is only marked. -/
def dependencies : List Str → List (Edge Str)
  | [] => []
  | raw :: libraries =>
    match entry raw with
    | .noLibraries => []
    | .nothing => dependencies libraries
    | .short name => .note name :: dependencies libraries
    | .mapped path => .follow path :: dependencies libraries

/-! ## The script as a search -/

theorem scanLines_cons (recurse : Str → Finset Str → Option (Finset Str)) (raw : Str)
    (libraries : List Str) (uniq : Finset Str) :
    scanLines recurse (raw :: libraries) uniq =
      match entry raw with
      | .noLibraries => some uniq
      | .nothing => scanLines recurse libraries uniq
      | .short name => scanLines recurse libraries (insert name uniq)
      | .mapped path => (recurse path uniq).bind (scanLines recurse libraries) := by
  rw [scanLines, entry]
  dsimp only
  split_ifs <;> rfl

theorem scanLines_eq_foldlM {edges : Str → List (Edge Str)} {n : Nat}
    {recurse : Str → Finset Str → Option (Finset Str)} (h : recurse = visit edges n)
    (libraries : List Str) (uniq : Finset Str) :
    scanLines recurse libraries uniq
      = (dependencies libraries).foldlM (walk edges n) uniq := by
  induction libraries generalizing uniq with
  | nil => rfl
  | cons raw libraries ih =>
      rw [scanLines_cons, dependencies]
      cases entry raw with
      | noLibraries => rfl
      | nothing => exact ih uniq
      | short name => exact ih (insert name uniq)
      | mapped path =>
          have hwalk : walk edges n uniq (.follow path) = recurse path uniq := by rw [h, walk]
          rw [List.foldlM_cons, hwalk]
          exact congrArg (recurse path uniq).bind (funext ih)

/-- The step of the script is the step of the search. -/
theorem recurseLibs_eq_visit (ldd : Str → List Str) (fuel : Nat) :
    recurseLibs ldd fuel = visit (fun o => dependencies (ldd o)) fuel := by
  induction fuel with
  | zero => rfl
  | succ fuel ih =>
      funext filename uniq
      rw [recurseLibs, visit_succ, scanLines_eq_foldlM ih]

theorem recurseArgs_eq_sweep (ldd : Str → List Str) (fuel : Nat) (args : List Str) :
    recurseArgs ldd fuel args = sweep (fun o => dependencies (ldd o)) fuel args := by
  rw [recurseArgs, sweep, recurseLibs_eq_visit]

/-! ## What is printed -/

variable {ldd : Str → List Str}

/-- What the search has to find: the libraries on the way from an argument, and the names on the
short lines of these. -/
abbrev Library (ldd : Str → List Str) : Str → Str → Prop := Found fun o => dependencies (ldd o)

theorem exists_uniq {O : Finset Str}
    (hO : ∀ o ∈ O, ∀ path, .follow path ∈ dependencies (ldd o) → path ∈ O) {args : List Str}
    (hargs : ∀ a ∈ args, a ∈ O) (happart : Apart (fun o => dependencies (ldd o)) args) :
    ∃ uniq : Finset Str, (∀ fuel, O.card < fuel → recurseArgs ldd fuel args = some uniq) ∧
      ∀ x, x ∈ uniq ↔ (∃ a ∈ args, Library ldd a x) ∧ x ∉ args := by
  obtain ⟨uniq, -, hmem⟩ := mem_sweep_iff hO (Nat.lt_succ_self _) hargs happart
  refine ⟨uniq, ?_, hmem⟩
  intro fuel hfuel
  obtain ⟨uniq', hrun, hmem'⟩ := mem_sweep_iff hO hfuel hargs happart
  have heq : uniq' = uniq := Finset.ext fun x => (hmem' x).trans (hmem x).symm
  rw [recurseArgs_eq_sweep, hrun, heq]

/-- The script ends, and prints once each of the libraries of its arguments that are not arguments
themselves. The same arguments in another order, or given more than once, have the same libraries. -/
theorem script_prints {O : Finset Str}
    (hO : ∀ o ∈ O, ∀ path, .follow path ∈ dependencies (ldd o) → path ∈ O) {args : List Str}
    (hargs : ∀ a ∈ args, a ∈ O) (happart : Apart (fun o => dependencies (ldd o)) args)
    {keys : Finset Str → List Str} (hkeys : ListsKeys keys) :
    ∃ names : List Str, names.Nodup ∧
      (∀ x, x ∈ names ↔ (∃ a ∈ args, Library ldd a x) ∧ x ∉ args) ∧
      (∃ depth, ∀ fuel, depth < fuel → script keys ldd fuel args = some (printed names)) ∧
      ∀ args', (∀ a, a ∈ args' ↔ a ∈ args) → ∀ keys', ListsKeys keys' →
        ∃ names', names'.Perm names ∧
          ∃ depth, ∀ fuel, depth < fuel →
            script keys' ldd fuel args' = some (printed names') := by
  obtain ⟨uniq, hrun, hmem⟩ := exists_uniq hO hargs happart
  refine ⟨keys uniq, (hkeys uniq).1, ?_, ⟨O.card, ?_⟩, ?_⟩
  · intro x
    rw [(hkeys uniq).2 x]
    exact hmem x
  · intro fuel hfuel
    rw [script, hrun fuel hfuel]
    rfl
  · intro args' hsame keys' hkeys'
    obtain ⟨uniq', hrun', hmem'⟩ := exists_uniq hO (fun a ha => hargs a ((hsame a).mp ha))
      (happart.of_same hsame)
    have hmarks : uniq' = uniq := by
      apply Finset.ext
      intro x
      rw [hmem' x, hmem x]
      simp only [hsame]
    refine ⟨keys' uniq', ?_, O.card, ?_⟩
    · apply (List.perm_ext_iff_of_nodup (hkeys' uniq').1 (hkeys uniq).1).mpr
      intro x
      rw [(hkeys' uniq').2, (hkeys uniq).2, hmarks]
    · intro fuel hfuel
      rw [script, hrun' fuel hfuel]
      rfl

/-- Two files that need each other, and the loader on a line of its own. -/
def twoFiles (filename : Str) : List Str :=
  if filename = ['a'] then [" b => b (0)".toList, "ld (0)".toList]
  else if filename = ['b'] then ["c => not found".toList, " a => a (0)".toList] else []

theorem dependencies_a : dependencies (twoFiles ['a']) = [.follow ['b'], .note ['l', 'd']] := by
  decide

theorem dependencies_b : dependencies (twoFiles ['b']) = [.follow ['a']] := by decide

theorem reaches_twoFiles {o : Str}
    (h : Reaches (fun o => dependencies (twoFiles o)) ['a'] o) : o = ['a'] ∨ o = ['b'] := by
  induction h with
  | refl => exact .inl rfl
  | tail hfirst hlast ih =>
      rcases ih with rfl | rfl
      · rw [Follows, dependencies_a] at hlast
        grind
      · rw [Follows, dependencies_b] at hlast
        grind

/-- A cycle that starts at an argument, which is given twice. -/
theorem script_prints_twoFiles :
    ∃ names : List Str, names.Nodup ∧ ['b'] ∈ names ∧ ['l', 'd'] ∈ names ∧ ['a'] ∉ names ∧
      ∃ depth, ∀ fuel, depth < fuel →
        script Finset.toList twoFiles fuel [['a'], ['a']] = some (printed names) := by
  have hO : ∀ o ∈ ({['a'], ['b']} : Finset Str), ∀ path,
      .follow path ∈ dependencies (twoFiles o) → path ∈ ({['a'], ['b']} : Finset Str) := by
    intro o ho path hpath
    rw [Finset.mem_insert, Finset.mem_singleton] at ho
    rcases ho with rfl | rfl
    · rw [dependencies_a] at hpath
      grind
    · rw [dependencies_b] at hpath
      grind
  have hloader : ∀ o x, Reaches (fun o => dependencies (twoFiles o)) ['a'] o →
      .note x ∈ dependencies (twoFiles o) → x = ['l', 'd'] := by
    intro o x hreach hnote
    rcases reaches_twoFiles hreach with rfl | rfl
    · rw [dependencies_a] at hnote
      grind
    · rw [dependencies_b] at hnote
      grind
  have happart : Apart (fun o => dependencies (twoFiles o)) [['a'], ['a']] := by
    refine ⟨?_, ?_, ?_⟩
    · intro a ha c hc _
      grind
    · intro a ha c hc o hreach hnote
      obtain rfl : a = ['a'] := by grind
      have := hloader o c hreach hnote
      grind
    · intro a ha o x hreach hnote
      obtain rfl : a = ['a'] := by grind
      rw [hloader o x hreach hnote]
      decide
  obtain ⟨names, hnodup, hmem, hrun, -⟩ := script_prints hO
    (by decide) happart (show ListsKeys Finset.toList from
    fun uniq => ⟨uniq.nodup_toList, fun name => Finset.mem_toList⟩)
  have hb : Reaches (fun o => dependencies (twoFiles o)) ['a'] ['b'] := by
    apply Relation.ReflTransGen.single
    rw [Follows, dependencies_a]
    exact List.mem_cons_self
  refine ⟨names, hnodup, ?_, ?_, ?_, hrun⟩
  · exact (hmem _).mpr ⟨⟨['a'], List.mem_cons_self, .inl hb⟩, by decide⟩
  · refine (hmem _).mpr ⟨⟨['a'], List.mem_cons_self, .inr ⟨['a'], .refl, ?_⟩⟩, by decide⟩
    show _ ∈ dependencies (twoFiles ['a'])
    rw [dependencies_a]
    decide
  · exact fun h => ((hmem _).mp h).2 List.mem_cons_self

end LdbToolchain.Ldd
