import LdbToolchain.Glob.Errors
import LdbToolchain.Glob.Matches

/-!
# The list over several calls

`glob` puts the names that a scan found on the list of its `glob_t`, or the pattern itself, or
nothing. With `GLOB_APPEND` the names of one call come after those of the calls before, sorted by
themselves. So after any number of calls the list is the reserved slots, the names of each call, and a
null pointer; `globfree` frees these names, each once.
-/

namespace LdbToolchain.Glob

open LdbToolchain

/-! ## The order of the names -/

/-- The order of the names of one call. -/
def listed (flags : Flags) (names : List Str) : List Str :=
  if flags.nosort then names else names.mergeSort strcmpLe

theorem strcmpLe_total (a b : Str) : (strcmpLe a b || strcmpLe b a) = true := by
  fun_induction strcmpLe a b with
  | case1 => rfl
  | case2 => rfl
  | case3 x a y ih => simpa [strcmpLe] using ih
  | case4 a x b y hne =>
      rw [strcmpLe, if_neg (Ne.symm hne), ← Bool.decide_or, decide_eq_true_eq]
      exact lt_or_gt_of_ne hne

theorem strcmpLe_trans (a b c : Str) (hab : strcmpLe a b = true) (hbc : strcmpLe b c = true) :
    strcmpLe a c = true := by
  induction a generalizing b c with
  | nil => rw [strcmpLe]
  | cons x a ih =>
      cases b with
      | nil => cases hab
      | cons y b =>
          cases c with
          | nil => cases hbc
          | cons z c =>
              rw [strcmpLe] at hab hbc ⊢
              by_cases hxy : x = y <;> by_cases hyz : y = z
              · rw [if_pos hxy] at hab
                rw [if_pos hyz] at hbc
                rw [if_pos (hxy.trans hyz)]
                exact ih b c hab hbc
              · rw [if_neg hyz, decide_eq_true_eq] at hbc
                rw [hxy, if_neg hyz, decide_eq_true_eq]
                exact hbc
              · rw [if_neg hxy, decide_eq_true_eq] at hab
                rw [← hyz, if_neg hxy, decide_eq_true_eq]
                exact hab
              · rw [if_neg hxy, decide_eq_true_eq] at hab
                rw [if_neg hyz, decide_eq_true_eq] at hbc
                have hlt := lt_trans hab hbc
                rw [if_neg hlt.ne, decide_eq_true_eq]
                exact hlt

/-- The names of one call are those it lists, in the order of `strcmp` unless it asks for none. -/
theorem listed_spec (flags : Flags) (names : List Str) :
    (listed flags names).Perm names ∧
      (flags.nosort = false → (listed flags names).Pairwise fun a b => strcmpLe a b = true) := by
  rw [listed]
  split
  next hnosort => exact ⟨.refl names, fun h => absurd (hnosort.symm.trans h) (by simp)⟩
  next =>
    refine ⟨List.mergeSort_perm names strcmpLe, fun _ => ?_⟩
    exact List.pairwise_mergeSort (fun a b c => strcmpLe_trans a b c) strcmpLe_total names

/-! ## One call -/

/-- The value of `offs`. -/
def offsOf (flags : Flags) (g : GlobT) : Nat := if flags.dooffs then g.offs else 0

/-- `g` when the scan starts. -/
def GlobT.start (flags : Flags) (g : GlobT) : GlobT :=
  if flags.append then g else ⟨0, [], offsOf flags g⟩

/-- `g` with these names on its list; no names leave it alone. -/
def GlobT.extend (g : GlobT) (flags : Flags) (offs : Nat) (names : List Str) : GlobT :=
  if names = [] then g else g.store flags offs names

/-- The names that a call that returns `code` puts on the list, for a pattern with these hits: the
hits, the first of them when the scan was stopped, or the pattern itself when there are none. -/
def Lists (hs : List Hit) (nocheck : Bool) (pat : Str) (names : List Str) : Code → Prop
  | .ok => (hs ≠ [] ∧ List.Forall₂ Hit.Names hs names) ∨
      (hs = [] ∧ nocheck = true ∧ names = [pat])
  | .aborted => (∃ done, done <+: hs ∧ done ≠ [] ∧ List.Forall₂ Hit.Names done names) ∨
      (nocheck = true ∧ names = [pat])
  | .noMatch => nocheck = false ∧ names = []
  | .noSpace => names = []

theorem forall₂_ne_nil {α β : Type} {R : α → β → Prop} {l : List α} {m : List β}
    (h : List.Forall₂ R l m) (hm : m ≠ []) : l ≠ [] := by
  intro hnil
  rw [hnil, List.forall₂_nil_left_iff] at h
  exact hm h

/-- What comes after the scan. -/
theorem collect_lists {w : World} {flags : Flags} {hs : List Hit} {s₀ s : Scan} {code : Code}
    (h : Finds hs s₀ code s) (hempty : s₀.found = []) (pat : Str) (offs : Nat) (g : GlobT) :
    ∃ names, Lists hs flags.nocheck pat names (collect w flags pat offs g code s).1 ∧
      (collect w flags pat offs g code s).2.1 = g.extend flags offs names ∧
      ((collect w flags pat offs g code s).1 = .noMatch → code = .ok → hs = []) ∧
      ((collect w flags pat offs g code s).1 = .aborted → code = .aborted) ∧
      ((collect w flags pat offs g code s).1 = .noSpace →
        code = .noSpace ∨ ∃ n, w.malloc n = false) := by
  obtain ⟨hmatch, done, names, hfound, hdone, hnames, hall⟩ := h
  rw [hempty, List.nil_append] at hfound
  rw [collect]
  by_cases hspace : code = .noSpace
  · rw [if_pos hspace]
    exact ⟨[], rfl, rfl, by simp, by simp, fun _ => .inl hspace⟩
  rw [if_neg hspace]
  by_cases hnone : s.found = []
  · -- no hits, or none before the scan was stopped
    have hdonenil : done = [] := by
      rw [hfound] at hnone
      rw [hnone, List.forall₂_nil_right_iff] at hnames
      exact hnames
    have hhits : code = .ok → hs = [] := fun hcode => (hall hcode).symm.trans hdonenil
    cases hcheck : flags.nocheck with
    | false =>
        rw [if_pos ⟨hnone, rfl⟩]
        exact ⟨[], ⟨rfl, rfl⟩, rfl, fun _ => hhits, by simp, by simp⟩
    | true =>
        rw [if_neg (by simp), if_pos hnone]
        dsimp only
        cases happend : w.malloc s.calls with
        | false =>
            rw [if_pos (by simp [append, happend])]
            exact ⟨[], rfl, rfl, by simp, by simp, fun _ => .inr ⟨_, happend⟩⟩
        | true =>
            have hpat : (append w pat false s).2.found = [pat] := by
              rw [append, if_pos happend, hnone]
              rfl
            rw [if_neg (by simp [append, happend]), hpat]
            cases hstore : w.malloc (append w pat false s).2.calls with
            | false =>
                rw [if_neg (by simp)]
                exact ⟨[], rfl, rfl, by simp, by simp, fun _ => .inr ⟨_, hstore⟩⟩
            | true =>
                rw [if_pos rfl]
                refine ⟨[pat], ?_, by simp [GlobT.extend], fun hno => absurd hno hmatch, id,
                  fun hno => absurd hno hspace⟩
                cases code with
                | ok => exact .inr ⟨hhits rfl, rfl, rfl⟩
                | aborted => exact .inr ⟨rfl, rfl⟩
                | noMatch => exact absurd rfl hmatch
                | noSpace => exact absurd rfl hspace
  · rw [if_neg (by simp [hnone]), if_neg hnone]
    dsimp only
    rw [if_neg (by simp), hfound]
    rw [hfound] at hnone
    have hdonene := forall₂_ne_nil hnames hnone
    cases hstore : w.malloc s.calls with
    | false =>
        rw [if_neg (by simp)]
        exact ⟨[], rfl, rfl, by simp, by simp, fun _ => .inr ⟨_, hstore⟩⟩
    | true =>
        rw [if_pos rfl]
        refine ⟨names, ?_, by rw [GlobT.extend, if_neg hnone], fun hno => absurd hno hmatch, id,
          fun hno => absurd hno hspace⟩
        cases code with
        | ok =>
            cases hall rfl
            exact .inl ⟨hdonene, hnames⟩
        | aborted => exact .inl ⟨done, hdone, hdonene, hnames⟩
        | noMatch => exact absurd rfl hmatch
        | noSpace => exact absurd rfl hspace

theorem finds_glob (w : World) (flags : Flags) (errfunc : Errfunc) (pat : Str) (s : Scan) :
    Finds (globHits w flags pat) s
      (if pat = [] then (.ok, s) else matchInDir w flags errfunc
        (if pat.head? = some '/' then ['/'] else []) (pat.dropWhile (· = '/')) s).1
      (if pat = [] then (.ok, s) else matchInDir w flags errfunc
        (if pat.head? = some '/' then ['/'] else []) (pat.dropWhile (· = '/')) s).2 := by
  rw [globHits]
  by_cases hpat : pat = []
  · rw [if_pos hpat, if_pos hpat]
    exact finds_none rfl (by simp) fun _ => rfl
  · rw [if_neg hpat, if_neg hpat]
    exact matchInDir_finds ..

/-- A scan from the start that was stopped had a fatal report. -/
theorem Logs.exists_fatal {w : World} {flags : Flags} {errfunc : Errfunc} {errno : Int} {s : Scan}
    {code : Code} (h : Logs w flags errfunc ⟨errno, 0, [], [], []⟩ code s)
    (hcode : code = .aborted) :
    ∃ before v after error, s.visits = before ++ v :: after ∧ v.reported = some error ∧
      Fatal flags errfunc (reportsOf before ++ [(v.dir, error)]) := by
  obtain ⟨new, hadds⟩ := h
  obtain ⟨before, v, after, error, hnew, hv, hfatal⟩ := hadds.trail.exists_fatal hcode
  exact ⟨before, v, after, error, hadds.visits.trans hnew, hv, hfatal⟩

/-- What a call of `glob` does. -/
structure Globs (w : World) (flags : Flags) (errfunc : Option Errfunc) (pat : Str) (g : GlobT)
    (names : List Str) (run : Code × GlobT × Scan) : Prop where
  lists : Lists (globHits w flags pat) flags.nocheck pat names run.1
  list : run.2.1 = (g.start flags).extend flags (offsOf flags g) names
  order : (listed flags names).Perm names ∧
    (flags.nosort = false → (listed flags names).Pairwise fun a b => strcmpLe a b = true)
  /-- Hits are left out only when a report was fatal, by `GLOB_ERR` or by what `errfunc` returned. -/
  stopped : run.1 = .aborted ∨ run.1 = .noMatch ∧ globHits w flags pat ≠ [] →
    ∃ before v after error, run.2.2.visits = before ++ v :: after ∧ v.reported = some error ∧
      Fatal flags (errfunc.getD ignoreErr) (reportsOf before ++ [(v.dir, error)])
  noSpace : run.1 = .noSpace →
    PATH_MAX < (pat.dropWhile (· = '/')).length ∨ ∃ n, w.malloc n = false

/-- Without a callback and without `GLOB_ERR` nothing is left out. -/
theorem Globs.unstopped {w : World} {flags : Flags} {pat : Str} {g : GlobT} {names : List Str}
    {run : Code × GlobT × Scan} (h : Globs w flags none pat g names run) (herr : flags.err = false) :
    run.1 ≠ .aborted ∧ (run.1 = .noMatch → globHits w flags pat = []) := by
  have hgoes : ¬ (run.1 = .aborted ∨ run.1 = .noMatch ∧ globHits w flags pat ≠ []) := by
    intro hcut
    obtain ⟨before, v, after, error, -, -, hfatal⟩ := h.stopped hcut
    rcases hfatal with hfatal | hfatal
    · rw [herr] at hfatal
      cases hfatal
    · cases hfatal
  refine ⟨fun haborted => hgoes (.inl haborted), fun hno => ?_⟩
  by_contra hhits
  exact hgoes (.inr ⟨hno, hhits⟩)

/-- **What `glob` lists.** For every file tree, set of flags, callback and pattern: the call lists the
paths that match the pattern, in the order of the directories, with the marks that `GLOB_MARK` asks
for. When it returns `GLOB_ABORTED`, a report was fatal and these are the first of them. When it
returns `GLOB_NOMATCH` it lists nothing, since there are none or since a report was fatal before the
first one; with `GLOB_NOCHECK` it lists the pattern instead. When it returns `GLOB_NOSPACE`, memory ran
out or the pattern is too long, and nothing is listed. -/
theorem glob_lists (w : World) (flags : Flags) (errfunc : Option Errfunc) (pat : Str) (g : GlobT)
    (errno : Int) :
    ∃ names, Globs w flags errfunc pat g names (glob w flags errfunc pat g errno) := by
  rw [glob]
  dsimp only
  by_cases hlong : (pat.dropWhile (· = '/')).length > PATH_MAX
  · rw [if_pos hlong]
    exact ⟨[], rfl, rfl, listed_spec flags [], by simp, fun _ => .inl hlong⟩
  · rw [if_neg hlong]
    have hfinds := finds_glob w flags (errfunc.getD ignoreErr) pat ⟨errno, 0, [], [], []⟩
    have hlogs : Logs w flags (errfunc.getD ignoreErr) ⟨errno, 0, [], [], []⟩
        (if pat = [] then (.ok, ⟨errno, 0, [], [], []⟩) else matchInDir w flags
          (errfunc.getD ignoreErr) (if pat.head? = some '/' then ['/'] else [])
          (pat.dropWhile (· = '/')) ⟨errno, 0, [], [], []⟩).1
        (if pat = [] then (.ok, ⟨errno, 0, [], [], []⟩) else matchInDir w flags
          (errfunc.getD ignoreErr) (if pat.head? = some '/' then ['/'] else [])
          (pat.dropWhile (· = '/')) ⟨errno, 0, [], [], []⟩).2 := by
      split
      next => exact logs_still rfl rfl unstopped_ok
      next => exact matchInDir_logs ..
    generalize (if pat = [] then (Code.ok, (⟨errno, 0, [], [], []⟩ : Scan)) else
      matchInDir w flags (errfunc.getD ignoreErr) (if pat.head? = some '/' then ['/'] else [])
        (pat.dropWhile (· = '/')) ⟨errno, 0, [], [], []⟩) = result at hfinds hlogs ⊢
    obtain ⟨code, s⟩ := result
    obtain ⟨names, hlists, hlist, hnoMatch, haborted, hnoSpace⟩ :=
      collect_lists hfinds rfl pat (offsOf flags g) (g.start flags)
    refine ⟨names, hlists, hlist, listed_spec flags names, ?_, ?_⟩
    · intro hcut
      have hcode : code = .aborted := by
        rcases hcut with habort | ⟨hno, hhits⟩
        · exact haborted habort
        · cases hok : code with
          | ok => exact absurd (hnoMatch hno hok) hhits
          | aborted => rfl
          | noMatch => exact absurd hok hfinds.1
          | noSpace =>
              have hstays : (collect w flags pat (offsOf flags g) (g.start flags) code s).1
                  = .noSpace := by
                rw [collect, if_pos hok]
              cases hstays.symm.trans hno
      obtain ⟨before, v, after, error, hvisits, hv, hfatal⟩ := hlogs.exists_fatal hcode
      exact ⟨before, v, after, error, (collect_returns ..).visits.trans hvisits, hv, hfatal⟩
    · intro hspace
      rcases hnoSpace hspace with hcode | hmalloc
      · obtain ⟨new, hadds⟩ := hlogs
        exact .inr (hadds.memory hcode)
      · exact .inr hmalloc

/-! ## Several calls -/

/-- The arguments of a call, and what it meets. -/
structure Call where
  world : World
  flags : Flags
  errfunc : Option Errfunc
  pat : Str
  errno : Int

def Call.run (c : Call) (g : GlobT) : Code × GlobT × Scan :=
  glob c.world c.flags c.errfunc c.pat g c.errno

/-- `g` after these calls. -/
def runCalls (g : GlobT) (calls : List Call) : GlobT :=
  calls.foldl (fun g c => (c.run g).2.1) g

/-- `globfree`: what it frees besides the array, and what is left. -/
def globfree (g : GlobT) : List Slot × GlobT :=
  ((List.range g.pathc).map fun i => g.pathv.getD (g.offs + i) .unset,
    { g with pathc := 0, pathv := [] })

/-- The list holds these names after the reserved slots, or there is no array yet. -/
structure Holds (offs : Nat) (names : List Str) (g : GlobT) : Prop where
  reserved : g.offs = offs
  count : g.pathc = names.length
  list : g.pathv = List.replicate offs .null ++ names.map .name ++ [.null] ∨
    (offs = 0 ∧ g.pathv = [] ∧ names = [])

theorem length_listed (flags : Flags) (names : List Str) :
    (listed flags names).length = names.length := by
  rw [listed]
  split
  next => rfl
  next => exact (List.mergeSort_perm names strcmpLe).length_eq

theorem listed_nil (flags : Flags) : listed flags [] = [] :=
  List.length_eq_zero_iff.mp (length_listed flags [])

/-- More names on a list. -/
theorem Holds.extend {offs : Nat} {names : List Str} {g : GlobT} (h : Holds offs names g)
    {flags : Flags} (happend : flags.append = true) (more : List Str) :
    Holds offs (names ++ listed flags more) (g.extend flags offs more) := by
  rw [GlobT.extend]
  by_cases hnil : more = []
  · rw [if_pos hnil, hnil, listed_nil, List.append_nil]
    exact h
  · rw [if_neg hnil]
    have hbefore : firstSlots (offs + g.pathc) g.pathv
        = List.replicate offs .null ++ names.map .name := by
      rw [firstSlots, h.count]
      rcases h.list with hlist | ⟨hzero, hlist, hnames⟩
      · -- all of them are there
        have hlength : offs + names.length ≤ g.pathv.length := by
          rw [hlist]
          simp
        rw [Nat.sub_eq_zero_of_le hlength, List.replicate_zero, List.append_nil, hlist,
          List.take_left' (by simp)]
      · simp [hlist, hnames, hzero]
    refine ⟨h.reserved, ?_, .inl ?_⟩
    · show g.pathc + more.length = (names ++ listed flags more).length
      rw [h.count, List.length_append, length_listed]
    · show (if flags.append then _ else _) ++ (listed flags more).map Slot.name ++ [.null] = _
      rw [if_pos happend, hbefore, List.map_append, List.append_assoc _ (names.map Slot.name)]

/-- The first names. -/
theorem holds_first {flags : Flags} (happend : flags.append = false) {offs : Nat}
    {names : List Str} (hnames : offs = 0 ∨ names ≠ []) :
    Holds offs (listed flags names) ((⟨0, [], offs⟩ : GlobT).extend flags offs names) := by
  rw [GlobT.extend]
  by_cases hnil : names = []
  · rw [if_pos hnil, hnil, listed_nil]
    exact ⟨rfl, rfl, .inr ⟨hnames.resolve_right (not_not.mpr hnil), rfl, rfl⟩⟩
  · rw [if_neg hnil]
    refine ⟨rfl, ?_, .inl ?_⟩
    · show 0 + names.length = (listed flags names).length
      rw [length_listed, Nat.zero_add]
    · show (if flags.append then _ else _) ++ (listed flags names).map Slot.name ++ [.null] = _
      rw [if_neg (by simp [happend])]

/-- `globfree` frees the names on the list, each once. -/
theorem Holds.globfree {offs : Nat} {names : List Str} {g : GlobT} (h : Holds offs names g) :
    (Glob.globfree g).1 = names.map .name := by
  have hget : ∀ i (hi : i < names.length), g.pathv[g.offs + i]? = some (.name names[i]) := by
    intro i hi
    rcases h.list with hlist | ⟨-, -, hnames⟩
    · rw [hlist, h.reserved, List.append_assoc, List.getElem?_append_right (by simp),
        List.length_replicate, Nat.add_sub_cancel_left, List.getElem?_append_left (by simpa using hi)]
      simp
    · rw [hnames] at hi
      cases hi
  apply List.ext_getElem
  · simp [Glob.globfree, h.count]
  · intro i hleft hright
    have hi : i < names.length := by simpa using hright
    simp [Glob.globfree, hget i hi]

/-! ## Every run -/

/-- A call after the first one. -/
theorem Holds.call {offs : Nat} {names : List Str} {g : GlobT} (h : Holds offs names g) {c : Call}
    (happend : c.flags.append = true) (hoffs : c.flags.dooffs = true ∨ offs = 0) :
    ∃ more, Globs c.world c.flags c.errfunc c.pat g more (c.run g) ∧
      Holds offs (names ++ listed c.flags more) (c.run g).2.1 := by
  obtain ⟨more, hglobs⟩ := glob_lists c.world c.flags c.errfunc c.pat g c.errno
  have hstart : g.start c.flags = g := by
    rw [GlobT.start, if_pos happend]
  have hsame : offsOf c.flags g = offs := by
    rw [offsOf, h.reserved]
    split
    next => rfl
    next hno => exact (hoffs.resolve_left hno).symm
  refine ⟨more, hglobs, ?_⟩
  have hlist := hglobs.list
  rw [hstart, hsame] at hlist
  rw [Call.run, hlist]
  exact h.extend happend more

/-- The names that each of some calls lists, one after the other. -/
inductive ListsEach : GlobT → List Call → List (List Str) → Prop where
  | nil (g : GlobT) : ListsEach g [] []
  | cons {g : GlobT} {c : Call} {calls : List Call} {names : List Str} {later : List (List Str)}
      (first : Globs c.world c.flags c.errfunc c.pat g names (c.run g))
      (rest : ListsEach (c.run g).2.1 calls later) : ListsEach g (c :: calls) (names :: later)

/-- The names on the list after these calls. -/
def allListed (calls : List Call) (each : List (List Str)) : List Str :=
  (List.zipWith (fun c names => listed c.flags names) calls each).flatten

theorem Holds.calls {offs : Nat} {names : List Str} {g : GlobT} (h : Holds offs names g)
    (calls : List Call) (hcalls : ∀ c ∈ calls, c.flags.append = true ∧
      (c.flags.dooffs = true ∨ offs = 0)) :
    ∃ each, ListsEach g calls each ∧ Holds offs (names ++ allListed calls each) (runCalls g calls) := by
  induction calls generalizing g names with
  | nil =>
      refine ⟨[], .nil g, ?_⟩
      rw [allListed, List.zipWith_nil_left, List.flatten_nil, List.append_nil]
      exact h
  | cons c calls ih =>
      obtain ⟨⟨happend, hoffs⟩, hrest⟩ := List.forall_mem_cons.mp hcalls
      obtain ⟨more, hglobs, hheld⟩ := h.call happend hoffs
      obtain ⟨each, heach, hend⟩ := ih hheld hrest
      refine ⟨more :: each, .cons hglobs heach, ?_⟩
      rw [allListed, List.zipWith_cons_cons, List.flatten_cons, ← List.append_assoc]
      exact hend

/-- **Appending keeps the list.** After a call without `GLOB_APPEND` and any number of calls with it,
all with or all without `GLOB_DOOFFS`, whatever trees and patterns they meet and however they end: the
list is the reserved slots, all null, then the names of each call in its own order, then a null
pointer; `gl_pathc` is the number of the names, and `globfree` frees each of them once. With
`GLOB_DOOFFS` the first call has to list something: the reserved slots of an array that a later call
allocates are never set. -/
theorem append_holds (first : Call) (calls : List Call) (g : GlobT)
    (hfirst : first.flags.append = false)
    (hcalls : ∀ c ∈ calls, c.flags.append = true ∧ c.flags.dooffs = first.flags.dooffs)
    (hreserved : first.flags.dooffs = false ∨ (first.run g).1 = .ok ∨ (first.run g).1 = .aborted) :
    ∃ each, ListsEach g (first :: calls) each ∧
      Holds (offsOf first.flags g) (allListed (first :: calls) each) (runCalls g (first :: calls)) ∧
      (globfree (runCalls g (first :: calls))).1 = (allListed (first :: calls) each).map .name := by
  obtain ⟨names, hglobs⟩ := glob_lists first.world first.flags first.errfunc first.pat g first.errno
  have hnames : offsOf first.flags g = 0 ∨ names ≠ [] := by
    rcases hreserved with hno | hcode
    · exact .inl (by rw [offsOf, hno]; rfl)
    · right
      have hlists := hglobs.lists
      rintro rfl
      rcases hcode with hcode | hcode <;> rw [Call.run] at hcode <;> rw [hcode] at hlists
      · rcases hlists with ⟨hne, hnil⟩ | ⟨-, -, hnil⟩
        · exact hne (List.forall₂_nil_right_iff.mp hnil)
        · cases hnil
      · rcases hlists with ⟨done, -, hne, hnil⟩ | ⟨-, hnil⟩
        · exact hne (List.forall₂_nil_right_iff.mp hnil)
        · cases hnil
  have hheld : Holds (offsOf first.flags g) (listed first.flags names) (first.run g).2.1 := by
    rw [Call.run, hglobs.list, GlobT.start, if_neg (by simp [hfirst])]
    exact holds_first hfirst hnames
  obtain ⟨each, heach, hend⟩ := hheld.calls calls (by
    intro c hc
    obtain ⟨happend, hsame⟩ := hcalls c hc
    refine ⟨happend, ?_⟩
    rw [hsame, offsOf]
    cases first.flags.dooffs with
    | true => exact .inl rfl
    | false => exact .inr rfl)
  have hall : Holds (offsOf first.flags g) (allListed (first :: calls) (names :: each))
      (runCalls g (first :: calls)) := by
    rw [allListed, List.zipWith_cons_cons, List.flatten_cons]
    exact hend
  exact ⟨names :: each, .cons hglobs heach, hall, hall.globfree⟩

/-- `x` twice. -/
theorem append_holds_oneFile :
    ∃ names, Holds 0 names (runCalls ⟨0, [], 0⟩ [⟨oneFile, noFlags, none, ['x'], 0⟩,
      ⟨oneFile, { noFlags with append := true }, none, ['x'], 0⟩]) := by
  obtain ⟨each, -, hholds, -⟩ := append_holds ⟨oneFile, noFlags, none, ['x'], 0⟩
    [⟨oneFile, { noFlags with append := true }, none, ['x'], 0⟩] ⟨0, [], 0⟩ rfl
    (by
      intro c hc
      rw [List.mem_singleton.mp hc]
      exact ⟨rfl, rfl⟩)
    (.inl rfl)
  exact ⟨_, hholds⟩

end LdbToolchain.Glob
