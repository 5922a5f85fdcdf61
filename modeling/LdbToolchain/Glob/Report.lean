import LdbToolchain.Glob.Basic

/-!
# The visits of a scan

What a scan does is a list of visits. A visit reports an error when its directory could not be
opened, or when the local variable `error` is not 0 after the loop over the entries. That variable
holds what `errno` was before the directory was opened, or 0 once an entry has been descended into
(`readLoop_logs`), and never what `readdir` left. A report that `errfunc` or `GLOB_ERR` makes fatal
ends the scan: the visits that are not over yet end where they are (`Trail`).
-/

namespace LdbToolchain.Glob

open LdbToolchain

/-! ## What there is to report -/

/-- How the visit ended is what the directory does. -/
def Visit.Agrees (w : World) (v : Visit) : Prop :=
  match v.ending with
  | .unopened error => w.opendir (openName v.dir) = .error error
  | .matched => ∃ dir, w.opendir (openName v.dir) = .ok dir
  | .read failure => ∃ entries, w.opendir (openName v.dir) = .ok ⟨entries, failure⟩
  | .interrupted => ∃ dir, w.opendir (openName v.dir) = .ok dir

/-- The error of a directory: the opening failed, other than for a file that is no directory or one
that the pattern ends at, or the reading failed. -/
def Visit.failure (w : World) (v : Visit) : Option Int :=
  match v.ending with
  | .unopened error =>
    if error = Errno.ENOTDIR.val ∨
      error = Errno.EACCES.val ∧ v.pattern = [] ∧ w.stat v.dir = some true then none
    else some error
  | .read failure => if failure = 0 then none else some failure
  | .matched => none
  | .interrupted => none

def entriesOf (w : World) (d : Str) : List Dirent :=
  match w.opendir (openName d) with
  | .ok dir => dir.entries
  | .error _ => []

/-- Whether the visit goes into one of the entries. -/
def Visit.descends (w : World) (flags : Flags) (v : Visit) : Bool :=
  v.deep && (entriesOf w v.dir).any (passes w flags v.pattern true)

/-- The variable `error` after the loop over the entries. -/
def Visit.error (w : World) (flags : Flags) (v : Visit) : Int :=
  if v.descends w flags then 0 else v.errno

/-- What the code reports. -/
def Visit.Told (w : World) (flags : Flags) (v : Visit) : Prop :=
  v.reported = match v.ending with
    | .read _ => if v.error w flags = 0 then none else some (v.error w flags)
    | _ => v.failure w

/-- The value that `error` has at the end of a directory, or where reading it failed, is the error
of the read. -/
def Visit.Fresh (w : World) (flags : Flags) (v : Visit) : Prop :=
  ∀ failure, v.ending = .read failure → v.error w flags = failure

theorem Visit.Told.honest_iff {w : World} {flags : Flags} {v : Visit} (h : v.Told w flags) :
    v.reported = v.failure w ↔ v.Fresh w flags := by
  rw [Told] at h
  rw [h, Fresh]
  cases hending : v.ending with
  | read failure =>
      have hfailure : v.failure w = if failure = 0 then none else some failure := by
        rw [Visit.failure, hending]
      rw [hfailure]
      dsimp only
      constructor
      · intro heq f hf
        cases hf
        split_ifs at heq <;> grind
      · intro hfresh
        rw [hfresh failure rfl]
  | unopened error => grind
  | matched => grind
  | interrupted => grind

/-! ## Reports and the end of a scan -/

/-- The calls of `errfunc` that these visits made. -/
def reportsOf (visits : List Visit) : List (Str × Int) :=
  visits.filterMap fun v => v.reported.map fun error => (v.dir, error)

theorem reportsOf_nil : reportsOf [] = [] := List.filterMap_nil

theorem reportsOf_append (visits visits' : List Visit) :
    reportsOf (visits ++ visits') = reportsOf visits ++ reportsOf visits' :=
  List.filterMap_append

theorem reportsOf_quiet {v : Visit} (h : v.reported = none) (visits : List Visit) :
    reportsOf (v :: visits) = reportsOf visits := by
  rw [reportsOf, List.filterMap_cons, h]
  rfl

theorem reportsOf_told {v : Visit} {error : Int} (h : v.reported = some error)
    (visits : List Visit) : reportsOf (v :: visits) = (v.dir, error) :: reportsOf visits := by
  rw [reportsOf, List.filterMap_cons, h]
  rfl

/-- Whether a scan stops that has called `errfunc` like this. -/
def Fatal (flags : Flags) (errfunc : Errfunc) (reports : List (Str × Int)) : Prop :=
  flags.err = true ∨ errfunc reports = true

/-- The visits of a scan, after some calls of `errfunc`, and whether the scan was stopped: no report
was fatal, or one was, the visits that followed were over, and all that is `found` was so by then. -/
inductive Trail (flags : Flags) (errfunc : Errfunc) (found : List Str) :
    List (Str × Int) → List Visit → Prop → Prop where
  | nil (reports : List (Str × Int)) : Trail flags errfunc found reports [] False
  | quiet {reports : List (Str × Int)} {v : Visit} {visits : List Visit} {stopped : Prop}
      (hv : v.reported = none) (rest : Trail flags errfunc found reports visits stopped) :
      Trail flags errfunc found reports (v :: visits) stopped
  | told {reports : List (Str × Int)} {v : Visit} {visits : List Visit} {stopped : Prop}
      {error : Int} (hv : v.reported = some error)
      (hgo : ¬ Fatal flags errfunc (reports ++ [(v.dir, error)]))
      (rest : Trail flags errfunc found (reports ++ [(v.dir, error)]) visits stopped) :
      Trail flags errfunc found reports (v :: visits) stopped
  | halt {reports : List (Str × Int)} {v : Visit} {visits : List Visit} {error : Int}
      (hv : v.reported = some error) (hstop : Fatal flags errfunc (reports ++ [(v.dir, error)]))
      (hfound : v.found = found) (rest : ∀ u ∈ visits, u.ending = .interrupted ∧ u.reported = none) :
      Trail flags errfunc found reports (v :: visits) True

namespace Trail

variable {flags : Flags} {errfunc : Errfunc} {found found' : List Str} {reports : List (Str × Int)}
  {visits visits' : List Visit} {stopped : Prop}

theorem append (h : Trail flags errfunc found reports visits False)
    (h' : Trail flags errfunc found' (reports ++ reportsOf visits) visits' stopped) :
    Trail flags errfunc found' reports (visits ++ visits') stopped := by
  generalize hgoing : False = going at h
  induction h with
  | nil reports =>
      rw [reportsOf_nil, List.append_nil] at h'
      exact h'
  | quiet hv rest ih =>
      rw [reportsOf_quiet hv] at h'
      exact .quiet hv (ih h' hgoing)
  | told hv hgo rest ih =>
      rw [reportsOf_told hv, List.append_cons] at h'
      exact .told hv hgo (ih h' hgoing)
  | halt hv hstop hfound rest => exact absurd (hgoing ▸ trivial) id

theorem append_interrupted (h : Trail flags errfunc found reports visits stopped)
    (hstopped : stopped) {v : Visit} (hending : v.ending = .interrupted) (hv : v.reported = none) :
    Trail flags errfunc found reports (visits ++ [v]) stopped := by
  induction h with
  | nil => exact hstopped.elim
  | quiet hu rest ih => exact .quiet hu (ih hstopped)
  | told hu hgo rest ih => exact .told hu hgo (ih hstopped)
  | halt hu hstop hfound rest =>
      apply Trail.halt hu hstop hfound
      intro u hmem
      rcases List.mem_append.mp hmem with hmem | hmem
      · exact rest u hmem
      · rw [List.mem_singleton.mp hmem]
        exact ⟨hending, hv⟩

/-- After a fatal report the scan is over. -/
theorem stops {before after : List Visit} {v : Visit} {error : Int}
    (h : Trail flags errfunc found reports (before ++ v :: after) stopped)
    (hv : v.reported = some error)
    (hfatal : Fatal flags errfunc (reports ++ reportsOf before ++ [(v.dir, error)])) :
    stopped ∧ v.found = found ∧ ∀ u ∈ after, u.ending = .interrupted := by
  induction before generalizing reports with
  | nil =>
      rw [reportsOf_nil, List.append_nil] at hfatal
      cases h with
      | quiet hquiet rest => grind
      | told htold hgo rest => grind
      | halt htold hstop hfound rest => exact ⟨trivial, hfound, fun u hu => (rest u hu).1⟩
  | cons u before ih =>
      cases h with
      | quiet hquiet rest =>
          rw [reportsOf_quiet hquiet] at hfatal
          exact ih rest hfatal
      | told htold hgo rest =>
          rw [reportsOf_told htold, List.append_cons reports] at hfatal
          exact ih rest hfatal
      | halt htold hstop hfound rest =>
          have := (rest v (List.mem_append_right before List.mem_cons_self)).2
          grind

/-- A scan that was stopped had a fatal report. -/
theorem exists_fatal (h : Trail flags errfunc found reports visits stopped) (hstopped : stopped) :
    ∃ before v after error, visits = before ++ v :: after ∧ v.reported = some error ∧
      Fatal flags errfunc (reports ++ reportsOf before ++ [(v.dir, error)]) := by
  induction h with
  | nil => exact hstopped.elim
  | @quiet reports u visits stopped hu rest ih =>
      obtain ⟨before, v, after, error, rfl, hv, hfatal⟩ := ih hstopped
      refine ⟨u :: before, v, after, error, rfl, hv, ?_⟩
      rw [reportsOf_quiet hu]
      exact hfatal
  | @told reports u visits stopped e hu hgo rest ih =>
      obtain ⟨before, v, after, error, rfl, hv, hfatal⟩ := ih hstopped
      refine ⟨u :: before, v, after, error, rfl, hv, ?_⟩
      rw [reportsOf_told hu, List.append_cons reports]
      exact hfatal
  | @halt reports u visits e hu hstop hfound rest =>
      refine ⟨[], u, visits, e, rfl, hu, ?_⟩
      rw [reportsOf_nil, List.append_nil]
      exact hstop

end Trail

/-! ## What a scan adds -/

/-- A code that no report is behind. -/
structure Unstopped (w : World) (code : Code) : Prop where
  notAborted : code ≠ .aborted
  memory : code = .noSpace → ∃ n, w.malloc n = false

theorem unstopped_ok {w : World} : Unstopped w .ok := ⟨by decide, fun h => absurd h (by decide)⟩

theorem unstopped_noSpace {w : World} (h : ∃ n, w.malloc n = false) : Unstopped w .noSpace :=
  ⟨by decide, fun _ => h⟩

theorem unstopped_append {w : World} {appended : Bool}
    (h : appended = false → ∃ n, w.malloc n = false) :
    Unstopped w (if appended then .ok else .noSpace) := by
  cases appended with
  | true => exact unstopped_ok
  | false => exact unstopped_noSpace (h rfl)

/-- From `s` to `s'` these visits were made, and the scan returned `code`. -/
structure Adds (w : World) (flags : Flags) (errfunc : Errfunc) (s : Scan) (code : Code)
    (s' : Scan) (new : List Visit) : Prop where
  visits : s'.visits = s.visits ++ new
  reports : s'.reports = s.reports ++ reportsOf new
  trail : Trail flags errfunc s'.found s.reports new (code = .aborted)
  honest : ∀ v ∈ new, v.Told w flags ∧ v.Agrees w
  memory : code = .noSpace → ∃ n, w.malloc n = false

/-- The log of the visits is kept. -/
def Logs (w : World) (flags : Flags) (errfunc : Errfunc) (s : Scan) (code : Code) (s' : Scan) :
    Prop :=
  ∃ new, Adds w flags errfunc s code s' new

section Logs

variable {w : World} {flags : Flags} {errfunc : Errfunc}

theorem logs_still {s s' : Scan} {code : Code} (hvisits : s'.visits = s.visits)
    (hreports : s'.reports = s.reports) (hcode : Unstopped w code) :
    Logs w flags errfunc s code s' := by
  refine ⟨[], ?_, ?_, ?_, fun v hv => absurd hv List.not_mem_nil, hcode.memory⟩
  · rw [hvisits, List.append_nil]
  · rw [hreports, reportsOf_nil, List.append_nil]
  · rw [eq_false hcode.notAborted]
    exact .nil s.reports

theorem Logs.trans {s₁ s₂ s₃ : Scan} {code : Code} (h : Logs w flags errfunc s₁ .ok s₂)
    (h' : Logs w flags errfunc s₂ code s₃) : Logs w flags errfunc s₁ code s₃ := by
  obtain ⟨new, h⟩ := h
  obtain ⟨new', h'⟩ := h'
  refine ⟨new ++ new', ?_, ?_, ?_, ?_, h'.memory⟩
  · rw [h'.visits, h.visits, List.append_assoc]
  · rw [h'.reports, h.reports, reportsOf_append, List.append_assoc]
  · have hgoing := h.trail
    rw [eq_false (by decide : Code.ok ≠ Code.aborted)] at hgoing
    apply hgoing.append
    rw [← h.reports]
    exact h'.trail
  · exact List.forall_mem_append.mpr ⟨h.honest, h'.honest⟩

theorem Logs.congr {s s₁ s₂ : Scan} {code : Code} (h : Logs w flags errfunc s code s₁)
    (hvisits : s₂.visits = s₁.visits) (hreports : s₂.reports = s₁.reports)
    (hfound : s₂.found = s₁.found) : Logs w flags errfunc s code s₂ := by
  obtain ⟨new, h⟩ := h
  exact ⟨new, hvisits.trans h.visits, hreports.trans h.reports, hfound ▸ h.trail, h.honest, h.memory⟩

/-- A visit that ends and reports nothing. -/
theorem logs_quiet {s s₁ : Scan} {v : List Str → Visit} {code : Code}
    (hvisits : s₁.visits = s.visits) (hreports : s₁.reports = s.reports)
    (hv : (v s₁.found).reported = none)
    (hhonest : (v s₁.found).Told w flags ∧ (v s₁.found).Agrees w) (hcode : Unstopped w code) :
    Logs w flags errfunc s code (s₁.visited v) := by
  refine ⟨[v s₁.found], ?_, ?_, ?_, ?_, hcode.memory⟩
  · rw [Scan.visited, hvisits]
  · rw [reportsOf_quiet hv, reportsOf_nil, List.append_nil]
    exact hreports
  · rw [eq_false hcode.notAborted]
    exact .quiet hv (.nil s.reports)
  · intro u hu
    rw [List.mem_singleton.mp hu]
    exact hhonest

/-- A visit that reports its error. -/
theorem logs_report {s : Scan} {v : List Str → Visit} {error : Int} {code : Code} {s' : Scan}
    (hrun : report w flags errfunc (v s.found).dir error s = (code, s'))
    (hv : (v s.found).reported = some error) (hfound : (v s.found).found = s.found)
    (htold : (v s.found).Told w flags) (hagrees : (v s.found).Agrees w) :
    Logs w flags errfunc s code (s'.visited v) := by
  rw [report] at hrun
  obtain ⟨rfl, rfl⟩ := Prod.mk.inj hrun
  refine ⟨[v s.found], rfl, ?_, ?_, ?_, ?_⟩
  · rw [reportsOf_told hv]
    rfl
  · by_cases hfatal : Fatal flags errfunc (s.reports ++ [((v s.found).dir, error)])
    · have hcode : errfunc (s.reports ++ [((v s.found).dir, error)]) || flags.err := by
        rcases hfatal with herr | hfunc <;> grind
      rw [if_pos hcode, eq_true rfl]
      exact .halt hv hfatal hfound (fun u hu => absurd hu List.not_mem_nil)
    · have hcode : ¬ (errfunc (s.reports ++ [((v s.found).dir, error)]) || flags.err) := by
        rw [Fatal] at hfatal
        grind
      rw [if_neg hcode, eq_false (by decide : Code.ok ≠ Code.aborted)]
      exact .told hv hfatal (.nil _)
  · intro u hu
    rw [List.mem_singleton.mp hu]
    exact ⟨htold, hagrees⟩
  · intro hcode
    split at hcode <;> cases hcode

/-- A visit that is under way when the scan stops. -/
theorem Logs.interrupted {s s' : Scan} {code : Code} (h : Logs w flags errfunc s code s')
    {v : List Str → Visit} (hending : (v s'.found).ending = .interrupted)
    (hv : (v s'.found).reported = none) (hagrees : (v s'.found).Agrees w) :
    Logs w flags errfunc s code (s'.visited v) := by
  obtain ⟨new, h⟩ := h
  refine ⟨new ++ [v s'.found], ?_, ?_, ?_, ?_, h.memory⟩
  · rw [Scan.visited, h.visits, List.append_assoc]
  · rw [reportsOf_append, reportsOf_quiet hv, reportsOf_nil, List.append_nil]
    exact h.reports
  · by_cases hcode : code = .aborted
    · exact h.trail.append_interrupted hcode hending hv
    · have hgoing := h.trail
      rw [eq_false hcode] at hgoing ⊢
      exact hgoing.append (.quiet hv (.nil _))
  · intro u hu
    rcases List.mem_append.mp hu with hu | hu
    · exact h.honest u hu
    · rw [List.mem_singleton.mp hu]
      refine ⟨?_, hagrees⟩
      rw [Visit.Told, hending, hv, Visit.failure, hending]

end Logs

/-! ## The code -/

section Code

variable {w : World} {flags : Flags} {errfunc : Errfunc} {d p : Str}
  {recurse : Option (Str → Scan → Code × Scan)}

theorem append_logs (w : World) (name : Str) (mark : Bool) (s : Scan) :
    (append w name mark s).2.visits = s.visits ∧ (append w name mark s).2.reports = s.reports ∧
      ((append w name mark s).1 = false → ∃ n, w.malloc n = false) := by
  rw [append]
  split
  next => exact ⟨rfl, rfl, fun h => absurd h (by simp)⟩
  next hmalloc => exact ⟨rfl, rfl, fun _ => ⟨s.calls, by grind⟩⟩

/-- An entry that is a match. -/
def addEntry (w : World) (flags : Flags) (d : Str) (de : Dirent) (s : Scan) : Bool × Scan :=
  append w (entryPath d de.name) (isMarked w flags de (entryPath d de.name) s).1
    (isMarked w flags de (entryPath d de.name) s).2

theorem addEntry_logs (w : World) (flags : Flags) (d : Str) (de : Dirent) (s : Scan) :
    (addEntry w flags d de s).2.visits = s.visits ∧
      (addEntry w flags d de s).2.reports = s.reports ∧
      ((addEntry w flags d de s).1 = false → ∃ n, w.malloc n = false) := by
  have hmark : (isMarked w flags de (entryPath d de.name) s).2.visits = s.visits ∧
      (isMarked w flags de (entryPath d de.name) s).2.reports = s.reports := by
    rw [isMarked]
    split_ifs <;> exact ⟨rfl, rfl⟩
  obtain ⟨hvisits, hreports, hmemory⟩ := append_logs w (entryPath d de.name)
    (isMarked w flags de (entryPath d de.name) s).1 (isMarked w flags de (entryPath d de.name) s).2
  exact ⟨hvisits.trans hmark.1, hreports.trans hmark.2, hmemory⟩

/-! The steps of the loop. -/

section Steps

variable {de : Dirent} {entries : List Dirent} {error : Int} {s s' : Scan}

theorem readLoop_skip (hpass : passes w flags p recurse.isSome de = false) :
    readLoop w flags d p recurse (de :: entries) error s
      = readLoop w flags d p recurse entries error (s.call w) := by
  rw [readLoop, hpass]
  rfl

theorem readLoop_into {matchInDir : Str → Scan → Code × Scan}
    (hpass : passes w flags p true de = true)
    (hrun : matchInDir (entryPath d de.name) (s.call w) = (.ok, s')) :
    readLoop w flags d p (some matchInDir) (de :: entries) error s
      = readLoop w flags d p (some matchInDir) entries 0 s' := by
  rw [readLoop, Option.isSome_some, hpass]
  simp only [hrun, if_true]

theorem readLoop_stop {matchInDir : Str → Scan → Code × Scan}
    (hpass : passes w flags p true de = true) {code : Code} (hcode : code ≠ .ok)
    (hrun : matchInDir (entryPath d de.name) (s.call w) = (code, s')) :
    readLoop w flags d p (some matchInDir) (de :: entries) error s = (.error code, s') := by
  rw [readLoop, Option.isSome_some, hpass]
  simp only [hrun, if_true]

theorem readLoop_append (hpass : passes w flags p false de = true)
    (hadd : (addEntry w flags d de (s.call w)).1 = true) :
    readLoop w flags d p none (de :: entries) error s
      = readLoop w flags d p none entries error (addEntry w flags d de (s.call w)).2 := by
  rw [readLoop, Option.isSome_none, hpass, if_pos rfl]
  rw [addEntry] at hadd ⊢
  dsimp only
  split
  next h => rw [h]
  next h => rw [h] at hadd; cases hadd

theorem readLoop_noSpace (hpass : passes w flags p false de = true)
    (hadd : (addEntry w flags d de (s.call w)).1 = false) :
    readLoop w flags d p none (de :: entries) error s
      = (.error .noSpace, (addEntry w flags d de (s.call w)).2) := by
  rw [readLoop, Option.isSome_none, hpass, if_pos rfl]
  rw [addEntry] at hadd ⊢
  dsimp only
  split
  next h => rw [h] at hadd; cases hadd
  next h => rw [h]

end Steps

/-- The code of the loop, as `match_in_dir` returns it at once. -/
def loopCode : Except Code Int → Code
  | .error code => code
  | .ok _ => .ok

/-- What the loop does to the variable `error`, and to the log. -/
theorem readLoop_logs
    (hrec : ∀ f, recurse = some f → ∀ name s, Logs w flags errfunc s (f name s).1 (f name s).2)
    (entries : List Dirent) (error : Int) (s : Scan) :
    Logs w flags errfunc s (loopCode (readLoop w flags d p recurse entries error s).1)
        (readLoop w flags d p recurse entries error s).2 ∧
      ∀ error', (readLoop w flags d p recurse entries error s).1 = .ok error' →
        error' = if recurse.isSome && entries.any (passes w flags p recurse.isSome) then 0
          else error := by
  have hcall : ∀ s : Scan, Logs w flags errfunc s .ok (s.call w) := by
    intro s
    exact logs_still rfl rfl unstopped_ok
  induction entries generalizing error s with
  | nil =>
      refine ⟨logs_still rfl rfl unstopped_ok, ?_⟩
      intro error' h
      cases h
      rw [List.any_nil, Bool.and_false]
      rfl
  | cons de entries ih =>
      cases hpass : passes w flags p recurse.isSome de with
      | false =>
          rw [readLoop_skip hpass]
          obtain ⟨hlogs, herror⟩ := ih error (s.call w)
          refine ⟨(hcall s).trans hlogs, ?_⟩
          intro error' h
          rw [herror error' h, List.any_cons, hpass, Bool.false_or]
      | true =>
          cases recurse with
          | none =>
              obtain ⟨hvisits, hreports, hmemory⟩ :=
                addEntry_logs w flags d de (s.call w)
              cases hadd : (addEntry w flags d de (s.call w)).1 with
              | true =>
                  rw [readLoop_append hpass hadd]
                  obtain ⟨hlogs, herror⟩ := ih error (addEntry w flags d de (s.call w)).2
                  exact ⟨.trans (logs_still hvisits hreports unstopped_ok) hlogs, herror⟩
              | false =>
                  rw [readLoop_noSpace hpass hadd]
                  refine ⟨logs_still hvisits hreports (unstopped_noSpace (hmemory hadd)), ?_⟩
                  intro error' h
                  cases h
          | some matchInDir =>
              have hinner := hrec matchInDir rfl (entryPath d de.name) (s.call w)
              cases hrun : matchInDir (entryPath d de.name) (s.call w) with
              | mk code s₁ =>
                  rw [hrun] at hinner
                  by_cases hcode : code = .ok
                  · rw [hcode] at hrun hinner
                    rw [readLoop_into hpass hrun]
                    obtain ⟨hlogs, herror⟩ := ih 0 s₁
                    refine ⟨((hcall s).trans hinner).trans hlogs, ?_⟩
                    intro error' h
                    rw [herror error' h, List.any_cons, hpass, ite_self]
                    rfl
                  · rw [readLoop_stop hpass hcode hrun]
                    refine ⟨(hcall s).trans hinner, ?_⟩
                    intro error' h
                    cases h

theorem told_unopened {error errno : Int} {deep : Bool} {code : Code} {reported : Option Int}
    {found : List Str}
    (h : reported = if error = Errno.ENOTDIR.val ∨
      error = Errno.EACCES.val ∧ p = [] ∧ w.stat d = some true then none else some error) :
    (Visit.mk d p deep errno (.unopened error) reported code found).Told w flags := h

/-- The variable `error`, for a directory that has been read. -/
theorem error_read {dir : Directory} (hopen : w.opendir (openName d) = .ok dir) {deep : Bool}
    {errno error : Int}
    (herror : error = if deep && dir.entries.any (passes w flags p deep) then 0 else errno)
    (ending : Ending) (reported : Option Int) (code : Code) (found : List Str) :
    (Visit.mk d p deep errno ending reported code found).error w flags = error := by
  have hentries : entriesOf w d = dir.entries := by rw [entriesOf, hopen]
  rw [herror, Visit.error, Visit.descends, hentries]
  cases deep <;> rfl

/-- What comes after the loop, when the variable `error` is what the loop leaves. -/
theorem finish_logs {dir : Directory} (hopen : w.opendir (openName d) = .ok dir) {deep : Bool}
    {errno error : Int}
    (herror : error = if deep && dir.entries.any (passes w flags p deep) then 0 else errno)
    {s s₁ : Scan} (h : Logs w flags errfunc s .ok s₁) :
    Logs w flags errfunc s
      (finish w flags errfunc (Visit.mk d p deep errno) d dir.failure error s₁).1
      (finish w flags errfunc (Visit.mk d p deep errno) d dir.failure error s₁).2 := by
  have htold : ∀ code found, (Visit.mk d p deep errno (.read dir.failure)
      (if error = 0 then none else some error) code found).Told w flags := by
    intro code found
    rw [Visit.Told, error_read hopen herror]
  rw [finish]
  generalize hs₂ : (if dir.failure = 0 then s₁ else { s₁ with errno := dir.failure }) = s₂
  have hstill : Logs w flags errfunc s .ok (s₂.call w) := by
    apply h.congr
    · rw [← hs₂]
      split_ifs <;> rfl
    · rw [← hs₂]
      split_ifs <;> rfl
    · rw [← hs₂]
      split_ifs <;> rfl
  dsimp only
  by_cases hzero : error = 0
  · rw [if_pos hzero]
    apply hstill.trans
    apply logs_quiet
    · rfl
    · rfl
    · rfl
    · refine ⟨?_, dir.entries, hopen⟩
      have := htold .ok (s₂.call w).found
      rw [if_pos hzero] at this
      exact this
    · exact unstopped_ok
  · rw [if_neg hzero]
    refine hstill.trans (logs_report rfl rfl rfl ?_ ⟨dir.entries, hopen⟩)
    have := htold (report w flags errfunc d error (s₂.call w)).1 (s₂.call w).found
    rw [if_neg hzero] at this
    exact this

/-- A directory that cannot be opened. -/
theorem scanDir_logs_unopened {error : Int} (hopen : w.opendir (openName d) = .error error)
    (s : Scan) : Logs w flags errfunc s (scanDir w flags errfunc d p recurse s).1
      (scanDir w flags errfunc d p recurse s).2 := by
  rw [scanDir, hopen]
  dsimp only
  by_cases hnotdir : error = Errno.ENOTDIR.val
  · rw [if_pos hnotdir]
    apply logs_quiet
    · rfl
    · rfl
    · rfl
    · exact ⟨told_unopened (by rw [if_pos (.inl hnotdir)]), hopen⟩
    · exact unstopped_ok
  · rw [if_neg hnotdir]
    generalize hs₁ : (if error = Errno.EACCES.val ∧ p = [] then
      ({ s with errno := error } : Scan).call w else { s with errno := error }) = s₁
    have hstill : s₁.visits = s.visits ∧ s₁.reports = s.reports := by
      rw [← hs₁]
      split_ifs <;> exact ⟨rfl, rfl⟩
    by_cases hmatch : error = Errno.EACCES.val ∧ p = [] ∧ w.stat d = some true
    · rw [if_pos hmatch]
      obtain ⟨hvisits, hreports, hfull⟩ := append_logs w d (dirLength d ≠ 0) s₁
      apply logs_quiet
      · exact hvisits.trans hstill.1
      · exact hreports.trans hstill.2
      · rfl
      · exact ⟨told_unopened (by rw [if_pos (.inr hmatch)]), hopen⟩
      · exact unstopped_append hfull
    · rw [if_neg hmatch]
      refine .trans (logs_still hstill.1 hstill.2 unstopped_ok)
        (logs_report rfl rfl rfl (told_unopened ?_) hopen)
      rw [if_neg (by grind)]

/-- The step: one directory, when what it goes into keeps the log. -/
theorem scanDir_logs
    (hrec : ∀ f, recurse = some f → ∀ name s, Logs w flags errfunc s (f name s).1 (f name s).2)
    (s : Scan) : Logs w flags errfunc s (scanDir w flags errfunc d p recurse s).1
      (scanDir w flags errfunc d p recurse s).2 := by
  cases hopen : w.opendir (openName d) with
  | error error => exact scanDir_logs_unopened hopen s
  | ok dir =>
      rw [scanDir, hopen]
      dsimp only
      by_cases hp : p = []
      · rw [if_pos hp]
        obtain ⟨hvisits, hreports, hfull⟩ := append_logs w d (dirLength d ≠ 0) s
        apply logs_quiet
        · exact hvisits
        · exact hreports
        · rfl
        · exact ⟨rfl, dir, hopen⟩
        · exact unstopped_append hfull
      · rw [if_neg hp]
        obtain ⟨hlogs, herror⟩ := readLoop_logs (d := d) (p := p) hrec dir.entries s.errno s
        rcases hloop : readLoop w flags d p recurse dir.entries s.errno s with ⟨result, s₁⟩
        rw [hloop] at hlogs herror
        cases result with
        | error code =>
            have hcall : Logs w flags errfunc s code (s₁.call w) := hlogs.congr rfl rfl rfl
            exact hcall.interrupted rfl rfl ⟨dir, hopen⟩
        | ok error => exact finish_logs hopen (herror error rfl) hlogs

theorem matchInDir_eq (d p : Str) (s : Scan) :
    matchInDir w flags errfunc d p s
      = scanDir w flags errfunc d (firstPart p)
          ((laterParts p).map fun p2 name s => matchInDir w flags errfunc name p2 s) s := by
  rw [matchInDir]
  congr 1
  split
  next h => rw [h, Option.map_none]
  next p2 h => rw [h, Option.map_some]

/-- The run. -/
theorem matchInDir_logs (d p : Str) (s : Scan) :
    Logs w flags errfunc s (matchInDir w flags errfunc d p s).1
      (matchInDir w flags errfunc d p s).2 := by
  induction hn : p.length using Nat.strong_induction_on generalizing d p s with
  | _ n ih =>
      rw [matchInDir_eq]
      apply scanDir_logs
      intro f hf name s
      obtain ⟨p2, hp2, rfl⟩ := Option.map_eq_some_iff.mp hf
      exact ih p2.length (hn ▸ length_laterParts hp2) name p2 s rfl

end Code

end LdbToolchain.Glob
