import LdbToolchain.Glob.Report

/-!
# When the reports are right

The reports of a run are those of its directories exactly when the variable `error` is, for every
directory read, the error of that read (`glob_reports_iff`). Two runs that meet this condition do the
same whatever `errno` was at their start.
-/

namespace LdbToolchain.Glob

open LdbToolchain

variable {w : World} {flags : Flags} {errfunc : Errfunc} {d p : Str}
  {recurse : Option (Str → Scan → Code × Scan)}

/-! ## Two runs -/

def Visit.withoutErrno (v : Visit) : Visit := { v with errno := 0 }

/-- Two scans that differ in `errno` at most. -/
structure Twin (s t : Scan) : Prop where
  calls : s.calls = t.calls
  reports : s.reports = t.reports
  found : s.found = t.found
  visits : s.visits.map Visit.withoutErrno = t.visits.map Visit.withoutErrno

def AllFresh (w : World) (flags : Flags) (s : Scan) : Prop := ∀ v ∈ s.visits, v.Fresh w flags

theorem Logs.allFresh {s s' : Scan} {code : Code} (h : Logs w flags errfunc s code s')
    (hfresh : AllFresh w flags s') : AllFresh w flags s := by
  obtain ⟨new, h⟩ := h
  intro v hv
  apply hfresh
  rw [h.visits]
  exact List.mem_append_left new hv

theorem AllFresh.of_visited {s : Scan} {v : List Str → Visit} (h : AllFresh w flags (s.visited v)) :
    AllFresh w flags s ∧ (v s.found).Fresh w flags :=
  ⟨fun u hu => h u (List.mem_append_left _ hu),
    h (v s.found) (List.mem_append_right _ (List.mem_singleton_self _))⟩

section Twin

variable {s t : Scan}

theorem Twin.call (w : World) (h : Twin s t) : Twin (s.call w) (t.call w) :=
  ⟨congrArg (· + 1) h.calls, h.reports, h.found, h.visits⟩

theorem Twin.set_errno (h : Twin s t) (a b : Int) :
    Twin { s with errno := a } { t with errno := b } :=
  ⟨h.calls, h.reports, h.found, h.visits⟩

theorem Twin.visited (h : Twin s t) {v u : List Str → Visit}
    (hv : ∀ found, (v found).withoutErrno = (u found).withoutErrno) :
    Twin (s.visited v) (t.visited u) := by
  refine ⟨h.calls, h.reports, h.found, ?_⟩
  rw [Scan.visited, Scan.visited, List.map_append, List.map_append, h.visits, List.map_singleton,
    List.map_singleton, h.found, hv]

theorem Twin.append (h : Twin s t) (w : World) (name : Str) (mark : Bool) :
    (Glob.append w name mark s).1 = (Glob.append w name mark t).1 ∧
      Twin (Glob.append w name mark s).2 (Glob.append w name mark t).2 := by
  rw [Glob.append, Glob.append, h.calls]
  split
  next => exact ⟨rfl, (h.call w).calls, h.reports, congrArg (· ++ [_]) h.found, h.visits⟩
  next => exact ⟨rfl, h.call w⟩

theorem Twin.addEntry (h : Twin s t) (w : World) (flags : Flags) (d : Str) (de : Dirent) :
    (Glob.addEntry w flags d de s).1 = (Glob.addEntry w flags d de t).1 ∧
      Twin (Glob.addEntry w flags d de s).2 (Glob.addEntry w flags d de t).2 := by
  have hmark : ∀ name, (isMarked w flags de name s).1 = (isMarked w flags de name t).1 ∧
      Twin (isMarked w flags de name s).2 (isMarked w flags de name t).2 := by
    intro name
    rw [isMarked, isMarked, h.calls]
    split_ifs
    · exact ⟨rfl, h.call w⟩
    · exact ⟨rfl, h⟩
    · exact ⟨rfl, h⟩
  rw [Glob.addEntry, Glob.addEntry, (hmark _).1]
  exact (hmark _).2.append w _ _

theorem Twin.report (h : Twin s t) (w : World) (flags : Flags) (errfunc : Errfunc) (d : Str)
    (error : Int) :
    (Glob.report w flags errfunc d error s).1 = (Glob.report w flags errfunc d error t).1 ∧
      Twin (Glob.report w flags errfunc d error s).2 (Glob.report w flags errfunc d error t).2 := by
  rw [Glob.report, Glob.report, h.reports]
  exact ⟨rfl, (h.call w).calls, rfl, h.found, h.visits⟩

end Twin

/-- What a call of `match_in_dir` does: it keeps the log, and does the same for twins. -/
structure Regular (w : World) (flags : Flags) (errfunc : Errfunc) (f : Scan → Code × Scan) :
    Prop where
  logs : ∀ s, Logs w flags errfunc s (f s).1 (f s).2
  twin : ∀ s t, Twin s t → AllFresh w flags (f s).2 → AllFresh w flags (f t).2 →
    (f s).1 = (f t).1 ∧ Twin (f s).2 (f t).2

/-- Both loops run to their end, or both return the same code. -/
def SameEnd (result result' : Except Code Int) : Prop :=
  ∀ code, result = .error code ↔ result' = .error code

/-- What the loop keeps was fresh before it. -/
theorem allFresh_of_readLoop
    (hrec : ∀ f, recurse = some f → ∀ name, Regular w flags errfunc (f name))
    {entries : List Dirent} {e : Int} {s : Scan}
    (h : AllFresh w flags (readLoop w flags d p recurse entries e s).2) : AllFresh w flags s :=
  (readLoop_logs (fun f hf name s => (hrec f hf name).logs s) entries e s).1.allFresh h

/-- And so was what it went into. -/
theorem allFresh_of_readLoop_into {matchInDir : Str → Scan → Code × Scan}
    (hrec : ∀ f, some matchInDir = some f → ∀ name, Regular w flags errfunc (f name))
    {de : Dirent} {entries : List Dirent} {e : Int} {s s₁ : Scan} {code : Code}
    (hpass : passes w flags p true de = true)
    (hrun : matchInDir (entryPath d de.name) (s.call w) = (code, s₁))
    (h : AllFresh w flags (readLoop w flags d p (some matchInDir) (de :: entries) e s).2) :
    AllFresh w flags s₁ := by
  by_cases hcode : code = .ok
  · rw [hcode] at hrun
    rw [readLoop_into hpass hrun] at h
    exact allFresh_of_readLoop hrec h
  · rw [readLoop_stop hpass hcode hrun] at h
    exact h

theorem readLoop_twin (hrec : ∀ f, recurse = some f → ∀ name, Regular w flags errfunc (f name))
    (entries : List Dirent) (a b : Int) {s t : Scan} (h : Twin s t)
    (hs : AllFresh w flags (readLoop w flags d p recurse entries a s).2)
    (ht : AllFresh w flags (readLoop w flags d p recurse entries b t).2) :
    SameEnd (readLoop w flags d p recurse entries a s).1
        (readLoop w flags d p recurse entries b t).1 ∧
      Twin (readLoop w flags d p recurse entries a s).2
        (readLoop w flags d p recurse entries b t).2 := by
  induction entries generalizing a b s t with
  | nil =>
      refine ⟨?_, h⟩
      intro code
      constructor <;> intro hcode <;> cases hcode
  | cons de entries ih =>
      cases hpass : passes w flags p recurse.isSome de with
      | false =>
          rw [readLoop_skip hpass] at hs
          rw [readLoop_skip hpass] at ht
          rw [readLoop_skip hpass, readLoop_skip hpass]
          exact ih a b (h.call w) hs ht
      | true =>
          cases recurse with
          | none =>
              obtain ⟨hsame, htwin⟩ :=
                (h.call w).addEntry w flags d de
              cases hadd : (addEntry w flags d de (s.call w)).1 with
              | true =>
                  rw [readLoop_append hpass hadd] at hs
                  rw [readLoop_append hpass (hsame ▸ hadd)] at ht
                  rw [readLoop_append hpass hadd, readLoop_append hpass (hsame ▸ hadd)]
                  exact ih a b htwin hs ht
              | false =>
                  rw [readLoop_noSpace hpass hadd, readLoop_noSpace hpass (hsame ▸ hadd)]
                  exact ⟨fun code => .rfl, htwin⟩
          | some matchInDir =>
              have hregular := hrec matchInDir rfl (entryPath d de.name)
              rcases hrun : matchInDir (entryPath d de.name) (s.call w) with ⟨code, s₁⟩
              rcases hrun' : matchInDir (entryPath d de.name) (t.call w) with ⟨code', t₁⟩
              have htwin := hregular.twin (s.call w) (t.call w) (h.call w)
              rw [hrun, hrun'] at htwin
              have hs₁ := allFresh_of_readLoop_into hrec hpass hrun hs
              have ht₁ := allFresh_of_readLoop_into hrec hpass hrun' ht
              obtain ⟨hcodes, htwins⟩ := htwin hs₁ ht₁
              dsimp only at hcodes htwins
              rw [← hcodes] at hrun'
              by_cases hcode : code = .ok
              · rw [hcode] at hrun hrun'
                rw [readLoop_into hpass hrun] at hs
                rw [readLoop_into hpass hrun'] at ht
                rw [readLoop_into hpass hrun, readLoop_into hpass hrun']
                exact ih 0 0 htwins hs ht
              · rw [readLoop_stop hpass hcode hrun, readLoop_stop hpass hcode hrun']
                exact ⟨fun code => .rfl, htwins⟩

/-- What comes after the loop, when the variable `error` has the same value. -/
theorem finish_twin {s t : Scan} (h : Twin s t)
    {visit visit' : Ending → Option Int → Code → List Str → Visit}
    (hvisit : ∀ ending reported code found, (visit ending reported code found).withoutErrno
      = (visit' ending reported code found).withoutErrno)
    (failure error : Int) :
    (finish w flags errfunc visit d failure error s).1
        = (finish w flags errfunc visit' d failure error t).1 ∧
      Twin (finish w flags errfunc visit d failure error s).2
        (finish w flags errfunc visit' d failure error t).2 := by
  have hread : Twin (if failure = 0 then s else { s with errno := failure })
      (if failure = 0 then t else { t with errno := failure }) := by
    split
    next => exact h
    next => exact h.set_errno failure failure
  rw [finish, finish]
  dsimp only
  by_cases hzero : error = 0
  · rw [if_pos hzero, if_pos hzero]
    exact ⟨rfl, (hread.call w).visited (hvisit _ _ _)⟩
  · rw [if_neg hzero, if_neg hzero]
    obtain ⟨hsame, htwin⟩ :=
      (hread.call w).report w flags errfunc d error
    exact ⟨hsame, htwin.visited (by rw [hsame]; exact hvisit _ _ _)⟩

/-- After the loop, only this visit comes in addition. -/
theorem finish_visits (w : World) (flags : Flags) (errfunc : Errfunc) (d : Str)
    (visit : Ending → Option Int → Code → List Str → Visit) (failure error : Int) (s : Scan) :
    ∃ reported code found, (finish w flags errfunc visit d failure error s).2.visits
      = s.visits ++ [visit (.read failure) reported code found] := by
  have hread : (if failure = 0 then s else { s with errno := failure }).visits = s.visits := by
    split <;> rfl
  rw [finish]
  dsimp only
  split
  · exact ⟨none, .ok, _, congrArg (· ++ [_]) hread⟩
  · exact ⟨some error, _, _, congrArg (· ++ [_]) hread⟩

/-- A fresh visit that gets through the loop has the error of its directory in the variable. -/
theorem eq_failure_of_fresh {dir : Directory} {s : Scan} {errno error : Int}
    (hopen : w.opendir (openName d) = .ok dir)
    (herror : error = if recurse.isSome && dir.entries.any (passes w flags p recurse.isSome) then 0
      else errno)
    (hfresh : AllFresh w flags (finish w flags errfunc (Visit.mk d p recurse.isSome errno) d
      dir.failure error s).2) : AllFresh w flags s ∧ error = dir.failure := by
  obtain ⟨reported, code, found, hvisits⟩ := finish_visits w flags errfunc d
    (Visit.mk d p recurse.isSome errno) dir.failure error s
  rw [AllFresh, hvisits] at hfresh
  constructor
  · intro v hv
    exact hfresh v (List.mem_append_left _ hv)
  · have hvisit := hfresh _ (List.mem_append_right _ (List.mem_singleton_self _)) dir.failure rfl
    rw [error_read hopen herror] at hvisit
    exact hvisit

/-- Whether a directory can be opened does not depend on `errno`. -/
theorem scanDir_twin_unopened {s t : Scan} (h : Twin s t) {error : Int}
    (hopen : w.opendir (openName d) = .error error) :
    (scanDir w flags errfunc d p recurse s).1 = (scanDir w flags errfunc d p recurse t).1 ∧
      Twin (scanDir w flags errfunc d p recurse s).2
        (scanDir w flags errfunc d p recurse t).2 := by
  rw [scanDir, scanDir, hopen]
  dsimp only
  by_cases hnotdir : error = Errno.ENOTDIR.val
  · rw [if_pos hnotdir, if_pos hnotdir]
    exact ⟨rfl, (h.set_errno error error).visited fun _ => rfl⟩
  · rw [if_neg hnotdir, if_neg hnotdir]
    have hstat : Twin (if error = Errno.EACCES.val ∧ p = [] then
        ({ s with errno := error } : Scan).call w else { s with errno := error })
        (if error = Errno.EACCES.val ∧ p = [] then
        ({ t with errno := error } : Scan).call w else { t with errno := error }) := by
      split
      next => exact (h.set_errno error error).call w
      next => exact h.set_errno error error
    by_cases hmatch : error = Errno.EACCES.val ∧ p = [] ∧ w.stat d = some true
    · rw [if_pos hmatch, if_pos hmatch]
      obtain ⟨hsame, htwin⟩ := hstat.append w d (dirLength d ≠ 0)
      exact ⟨by rw [hsame], htwin.visited fun _ => by rw [hsame]; rfl⟩
    · rw [if_neg hmatch, if_neg hmatch]
      obtain ⟨hsame, htwin⟩ := hstat.report w flags errfunc d error
      exact ⟨hsame, htwin.visited fun _ => by rw [hsame]; rfl⟩

theorem scanDir_twin (hrec : ∀ f, recurse = some f → ∀ name, Regular w flags errfunc (f name))
    {s t : Scan} (h : Twin s t)
    (hs : AllFresh w flags (scanDir w flags errfunc d p recurse s).2)
    (ht : AllFresh w flags (scanDir w flags errfunc d p recurse t).2) :
    (scanDir w flags errfunc d p recurse s).1 = (scanDir w flags errfunc d p recurse t).1 ∧
      Twin (scanDir w flags errfunc d p recurse s).2
        (scanDir w flags errfunc d p recurse t).2 := by
  cases hopen : w.opendir (openName d) with
  | error error => exact scanDir_twin_unopened h hopen
  | ok dir =>
      rw [scanDir, hopen] at hs
      rw [scanDir, hopen] at ht
      rw [scanDir, scanDir, hopen]
      dsimp only at hs ht ⊢
      by_cases hp : p = []
      · rw [if_pos hp, if_pos hp]
        obtain ⟨hsame, htwin⟩ := h.append w d (dirLength d ≠ 0)
        exact ⟨by rw [hsame], (htwin.call w).visited fun _ => by rw [hsame]; rfl⟩
      · rw [if_neg hp] at hs ht
        rw [if_neg hp, if_neg hp]
        -- what the two loops leave in `error`
        have hlogs : ∀ (e : Int) (u : Scan) error,
            (readLoop w flags d p recurse dir.entries e u).1 = .ok error →
            error = if recurse.isSome && dir.entries.any (passes w flags p recurse.isSome) then 0
              else e :=
          fun e u => (readLoop_logs (fun f hf name s => (hrec f hf name).logs s) dir.entries e u).2
        have hloop := readLoop_twin hrec dir.entries (d := d) (p := p) s.errno t.errno h
        rcases hrun : readLoop w flags d p recurse dir.entries s.errno s with ⟨result, s₁⟩
        rcases hrun' : readLoop w flags d p recurse dir.entries t.errno t with ⟨result', t₁⟩
        have herror := hlogs s.errno s
        have herror' := hlogs t.errno t
        rw [hrun] at hs hloop herror
        rw [hrun'] at ht hloop herror'
        cases result with
        | error code =>
            have hs₁ : AllFresh w flags s₁ := hs.of_visited.1
            cases result' with
            | ok error' =>
                obtain ⟨ht₁, -⟩ := eq_failure_of_fresh hopen (herror' error' rfl) ht
                cases ((hloop hs₁ ht₁).1 code).mp rfl
            | error code' =>
                obtain ⟨hsame, htwin⟩ := hloop hs₁ ht.of_visited.1
                cases (hsame code).mp rfl
                exact ⟨rfl, (htwin.call w).visited fun _ => rfl⟩
        | ok error =>
            obtain ⟨hs₁, hfailure⟩ := eq_failure_of_fresh hopen (herror error rfl) hs
            cases result' with
            | error code' => cases ((hloop hs₁ ht.of_visited.1).1 code').mpr rfl
            | ok error' =>
                obtain ⟨ht₁, hfailure'⟩ := eq_failure_of_fresh hopen (herror' error' rfl) ht
                have htwin : Twin s₁ t₁ := (hloop hs₁ ht₁).2
                dsimp only
                rw [hfailure, hfailure']
                apply finish_twin htwin
                intro ending reported code found
                rfl

theorem matchInDir_regular (d p : Str) : Regular w flags errfunc (matchInDir w flags errfunc d p) := by
  induction hn : p.length using Nat.strong_induction_on generalizing d p with
  | _ n ih =>
      refine ⟨fun s => matchInDir_logs d p s, ?_⟩
      intro s t htwin hs ht
      rw [matchInDir_eq] at hs
      rw [matchInDir_eq] at ht
      rw [matchInDir_eq, matchInDir_eq]
      refine scanDir_twin ?_ htwin hs ht
      intro f hf name
      obtain ⟨p2, hp2, rfl⟩ := Option.map_eq_some_iff.mp hf
      exact ih p2.length (hn ▸ length_laterParts hp2) name p2 rfl

/-! ## The whole run -/

/-- After these visits, this one fails and `errfunc` or `GLOB_ERR` stops the scan. -/
def Stops (w : World) (flags : Flags) (errfunc : Errfunc) (before : List Visit) (v : Visit) : Prop :=
  ∃ error, v.failure w = some error ∧
    Fatal flags errfunc (reportsOf before ++ [(v.dir, error)])

/-- The directories visited decide what is reported and how the run ends. -/
structure Faithful (w : World) (flags : Flags) (errfunc : Errfunc) (run : Code × GlobT × Scan) :
    Prop where
  agrees : ∀ v ∈ run.2.2.visits, v.Agrees w
  told : ∀ v ∈ run.2.2.visits, v.reported = v.failure w
  calls : run.2.2.reports = reportsOf run.2.2.visits
  stops : ∀ before v after, run.2.2.visits = before ++ v :: after → Stops w flags errfunc before v →
    (∀ u ∈ after, u.ending = .interrupted) ∧
      (run.1 = .aborted ∨ run.1 = .noSpace ∧ ∃ n, w.malloc n = false)
  aborted : run.1 = .aborted →
    ∃ before v after, run.2.2.visits = before ++ v :: after ∧ Stops w flags errfunc before v

/-- No stale value of `errno` gets in the way, and when a failure stops the scan there is something to
return. -/
structure Undisturbed (w : World) (flags : Flags) (errfunc : Errfunc)
    (run : Code × GlobT × Scan) : Prop where
  fresh : ∀ v ∈ run.2.2.visits, v.Fresh w flags
  matched : ∀ before v after, run.2.2.visits = before ++ v :: after →
    Stops w flags errfunc before v → v.found ≠ [] ∨ flags.nocheck = true

/-- What comes after the scan. -/
structure Returns (w : World) (flags : Flags) (code : Code) (s : Scan)
    (run : Code × GlobT × Scan) : Prop where
  visits : run.2.2.visits = s.visits
  reports : run.2.2.reports = s.reports
  aborted : run.1 = .aborted → code = .aborted
  stopped : code = .aborted → (s.found ≠ [] ∨ flags.nocheck = true) →
    run.1 = .aborted ∨ run.1 = .noSpace ∧ ∃ n, w.malloc n = false
  noMatch : code = .aborted → ¬ (s.found ≠ [] ∨ flags.nocheck = true) → run.1 = .noMatch

theorem collect_returns (pat : Str) (offs : Nat) (g : GlobT) (code : Code) (s : Scan) :
    Returns w flags code s (collect w flags pat offs g code s) := by
  rw [collect]
  split
  next hcode =>
    refine ⟨rfl, rfl, by simp, ?_, ?_⟩
    · intro h
      cases h.symm.trans hcode
    · intro h
      cases h.symm.trans hcode
  next =>
    split
    next hnone =>
      refine ⟨rfl, rfl, by simp, ?_, fun _ _ => rfl⟩
      intro _ hsome
      grind
    next hsome =>
      have hfound : s.found ≠ [] ∨ flags.nocheck = true := by grind
      have hkept : ∀ s', (if s.found = [] then append w pat false s else (true, s)).2 = s' →
          s'.visits = s.visits ∧ s'.reports = s.reports ∧
          ((if s.found = [] then append w pat false s else (true, s)).1 = false →
            ∃ n, w.malloc n = false) := by
        rintro s' rfl
        split
        next hempty => exact append_logs w pat false s
        next hsome => exact ⟨rfl, rfl, by simp⟩
      generalize (if s.found = [] then append w pat false s else (true, s)) = r at hkept ⊢
      obtain ⟨hvisits, hreports, hmemory⟩ := hkept r.2 rfl
      dsimp only
      by_cases happended : r.1 = false
      · rw [if_pos happended]
        exact ⟨hvisits, hreports, by simp, fun _ _ => .inr ⟨rfl, hmemory happended⟩,
          fun _ h => absurd hfound h⟩
      · rw [if_neg happended]
        by_cases hmalloc : w.malloc r.2.calls
        · rw [if_pos hmalloc]
          exact ⟨hvisits, hreports, id, fun h _ => .inl h, fun _ h => absurd hfound h⟩
        · rw [if_neg hmalloc]
          exact ⟨hvisits, hreports, by simp,
            fun _ _ => .inr ⟨rfl, r.2.calls, by grind⟩, fun _ h => absurd hfound h⟩

theorem collect_twin (pat : Str) (offs : Nat) (g : GlobT) (code : Code) {s t : Scan}
    (h : Twin s t) :
    (collect w flags pat offs g code s).1 = (collect w flags pat offs g code t).1 ∧
      (collect w flags pat offs g code s).2.1 = (collect w flags pat offs g code t).2.1 ∧
      Twin (collect w flags pat offs g code s).2.2 (collect w flags pat offs g code t).2.2 := by
  have hadded : (if s.found = [] then append w pat false s else (true, s)).1
        = (if t.found = [] then append w pat false t else (true, t)).1 ∧
      Twin (if s.found = [] then append w pat false s else (true, s)).2
        (if t.found = [] then append w pat false t else (true, t)).2 := by
    rw [h.found]
    split
    next => exact h.append w pat false
    next => exact ⟨rfl, h⟩
  rw [collect, collect]
  split
  next => exact ⟨rfl, rfl, h⟩
  next =>
    rw [h.found] at hadded ⊢
    split
    next => exact ⟨rfl, rfl, h⟩
    next =>
      generalize (if t.found = [] then append w pat false s else (true, s)) = r at hadded ⊢
      generalize (if t.found = [] then append w pat false t else (true, t)) = r' at hadded ⊢
      obtain ⟨hsame, htwin⟩ := hadded
      dsimp only
      rw [hsame, htwin.calls, htwin.found]
      split
      next => exact ⟨rfl, rfl, htwin⟩
      next =>
        split
        next => exact ⟨rfl, rfl, htwin.call w⟩
        next => exact ⟨rfl, rfl, htwin.call w⟩

/-- A run is a scan, and what comes after it. -/
theorem glob_returns (w : World) (flags : Flags) (errfunc : Option Errfunc) (pat : Str)
    (g : GlobT) (errno : Int) :
    ∃ code s, Logs w flags (errfunc.getD ignoreErr) ⟨errno, 0, [], [], []⟩ code s ∧
      Returns w flags code s (glob w flags errfunc pat g errno) := by
  rw [glob]
  dsimp only
  split
  next =>
    refine ⟨.ok, ⟨errno, 0, [], [], []⟩, ?_, ?_⟩
    · exact logs_still rfl rfl unstopped_ok
    · exact ⟨rfl, rfl, by simp, by simp, by simp⟩
  next =>
    refine ⟨_, _, ?_, collect_returns ..⟩
    split
    next => exact logs_still rfl rfl unstopped_ok
    next => exact matchInDir_logs ..

/-- Runs whose reads are not disturbed do the same, whatever `errno` was. -/
theorem glob_twin (errfunc : Option Errfunc) (pat : Str) (g : GlobT) {errno errno' : Int}
    (h : ∀ v ∈ (glob w flags errfunc pat g errno).2.2.visits, v.Fresh w flags)
    (h' : ∀ v ∈ (glob w flags errfunc pat g errno').2.2.visits, v.Fresh w flags) :
    (glob w flags errfunc pat g errno).1 = (glob w flags errfunc pat g errno').1 ∧
      (glob w flags errfunc pat g errno).2.1 = (glob w flags errfunc pat g errno').2.1 ∧
      Twin (glob w flags errfunc pat g errno).2.2 (glob w flags errfunc pat g errno').2.2 := by
  have hstart : Twin ⟨errno, 0, [], [], []⟩ ⟨errno', 0, [], [], []⟩ := ⟨rfl, rfl, rfl, rfl⟩
  rw [glob] at h
  rw [glob] at h'
  rw [glob, glob]
  dsimp only at h h' ⊢
  by_cases hlong : (pat.dropWhile (· = '/')).length > PATH_MAX
  · rw [if_pos hlong, if_pos hlong]
    exact ⟨rfl, rfl, hstart⟩
  · rw [if_neg hlong] at h h'
    rw [if_neg hlong, if_neg hlong]
    rw [(collect_returns ..).visits] at h h'
    by_cases hempty : pat = []
    · rw [if_pos hempty, if_pos hempty]
      exact collect_twin _ _ _ _ hstart
    · rw [if_neg hempty] at h h'
      rw [if_neg hempty, if_neg hempty]
      obtain ⟨hcode, htwin⟩ := (matchInDir_regular _ _).twin _ _ hstart h h'
      rw [hcode]
      exact collect_twin _ _ _ _ htwin

section Run

variable {errno : Int} {code : Code} {s : Scan} {new : List Visit} {run : Code × GlobT × Scan}

/-- The visits of a run, and what it reports, are those of its scan. -/
theorem run_visits (hadds : Adds w flags errfunc ⟨errno, 0, [], [], []⟩ code s new)
    (hreturns : Returns w flags code s run) : run.2.2.visits = new :=
  hreturns.visits.trans hadds.visits

theorem run_reports (hadds : Adds w flags errfunc ⟨errno, 0, [], [], []⟩ code s new)
    (hreturns : Returns w flags code s run) : run.2.2.reports = reportsOf new :=
  hreturns.reports.trans hadds.reports

/-- A failure that was reported, and is to stop the scan, does. -/
theorem Adds.stopped (hadds : Adds w flags errfunc ⟨errno, 0, [], [], []⟩ code s new)
    {before after : List Visit} {v : Visit} (hnew : new = before ++ v :: after)
    (hv : v.reported = v.failure w) (hstops : Stops w flags errfunc before v) :
    code = .aborted ∧ v.found = s.found ∧ ∀ u ∈ after, u.ending = .interrupted := by
  obtain ⟨error, hfailure, hfatal⟩ := hstops
  have htrail := hadds.trail
  rw [hnew] at htrail
  exact htrail.stops (hv.trans hfailure) hfatal

theorem undisturbed_of_faithful (hadds : Adds w flags errfunc ⟨errno, 0, [], [], []⟩ code s new)
    (hreturns : Returns w flags code s run) (h : Faithful w flags errfunc run) :
    Undisturbed w flags errfunc run := by
  have hvisits := run_visits hadds hreturns
  constructor
  · intro v hv
    exact (hadds.honest v (hvisits ▸ hv)).1.honest_iff.mp (h.told v hv)
  · intro before v after hsplit hstops
    have hmem : v ∈ run.2.2.visits := by
      rw [hsplit]
      exact List.mem_append_right before List.mem_cons_self
    obtain ⟨hcode, hfound, -⟩ := hadds.stopped (hvisits ▸ hsplit) (h.told v hmem) hstops
    rw [hfound]
    by_contra hnothing
    have hnoMatch := hreturns.noMatch hcode hnothing
    rcases (h.stops before v after hsplit hstops).2 with haborted | ⟨hnoSpace, -⟩
    · cases haborted.symm.trans hnoMatch
    · cases hnoSpace.symm.trans hnoMatch

theorem faithful_of_undisturbed (hadds : Adds w flags errfunc ⟨errno, 0, [], [], []⟩ code s new)
    (hreturns : Returns w flags code s run) (h : Undisturbed w flags errfunc run) :
    Faithful w flags errfunc run := by
  have hvisits := run_visits hadds hreturns
  have htold : ∀ v ∈ new, v.reported = v.failure w := by
    intro v hv
    exact (hadds.honest v hv).1.honest_iff.mpr (h.fresh v (hvisits ▸ hv))
  constructor
  · intro v hv
    exact (hadds.honest v (hvisits ▸ hv)).2
  · intro v hv
    exact htold v (hvisits ▸ hv)
  · rw [hvisits, run_reports hadds hreturns]
  · intro before v after hsplit hstops
    have hmem : v ∈ new := by
      rw [← hvisits, hsplit]
      exact List.mem_append_right before List.mem_cons_self
    obtain ⟨hcode, hfound, hafter⟩ := hadds.stopped (hvisits ▸ hsplit) (htold v hmem) hstops
    have hmatched := h.matched before v after hsplit hstops
    rw [hfound] at hmatched
    exact ⟨hafter, hreturns.stopped hcode hmatched⟩
  · intro haborted
    obtain ⟨before, v, after, error, hnew, hv, hfatal⟩ :=
      hadds.trail.exists_fatal (hreturns.aborted haborted)
    refine ⟨before, v, after, hvisits.trans hnew, error, ?_, hfatal⟩
    rw [← htold v (by rw [hnew]; exact List.mem_append_right before List.mem_cons_self)]
    exact hv

end Run

/-- The reports of a run are right exactly when none of its reads is disturbed. -/
theorem glob_reports_iff (w : World) (flags : Flags) (errfunc : Option Errfunc) (pat : Str)
    (g : GlobT) (errno : Int) :
    (Faithful w flags (errfunc.getD ignoreErr) (glob w flags errfunc pat g errno)
      ↔ Undisturbed w flags (errfunc.getD ignoreErr) (glob w flags errfunc pat g errno)) ∧
    ∀ errno', Undisturbed w flags (errfunc.getD ignoreErr) (glob w flags errfunc pat g errno) →
      Undisturbed w flags (errfunc.getD ignoreErr) (glob w flags errfunc pat g errno') →
      (glob w flags errfunc pat g errno).1 = (glob w flags errfunc pat g errno').1 ∧
        (glob w flags errfunc pat g errno).2.1 = (glob w flags errfunc pat g errno').2.1 ∧
        Twin (glob w flags errfunc pat g errno).2.2 (glob w flags errfunc pat g errno').2.2 := by
  obtain ⟨code, s, ⟨new, hadds⟩, hreturns⟩ := glob_returns w flags errfunc pat g errno
  refine ⟨⟨?_, ?_⟩, ?_⟩
  · exact undisturbed_of_faithful hadds hreturns
  · exact faithful_of_undisturbed hadds hreturns
  · intro errno' h h'
    exact glob_twin errfunc pat g h.fresh h'.fresh

/-- The working directory has one file, and can be read. -/
def oneFile : World where
  opendir d := if d = ['.'] then .ok ⟨[⟨['x'], .other⟩], 0⟩ else .error Errno.ENOENT.val
  stat _ := none
  fnmatch _ _ _ := false
  malloc _ := true
  stale _ := false
  clobber _ errno := errno

def noFlags : Flags := ⟨false, false, false, false, false, false, false, false⟩

/-- A callback that stops the scan. -/
def stop : Errfunc := fun _ => true

theorem visits_oneFile (errno : Int) :
    (glob oneFile noFlags (some stop) ['x'] ⟨0, [], 0⟩ errno).2.2.visits
      = (scanDir oneFile noFlags stop [] ['x'] none ⟨errno, 0, [], [], []⟩).2.visits := by
  rw [glob]
  dsimp only
  rw [if_neg (by decide), (collect_returns ..).visits, if_neg (by decide), matchInDir_eq]
  rfl

/-- Without an error from before, all is well. -/
theorem glob_reports_iff_oneFile :
    Faithful oneFile noFlags stop (glob oneFile noFlags (some stop) ['x'] ⟨0, [], 0⟩ 0) := by
  apply (glob_reports_iff oneFile noFlags (some stop) ['x'] ⟨0, [], 0⟩ 0).1.mpr
  have hvisits : (glob oneFile noFlags (some stop) ['x'] ⟨0, [], 0⟩ 0).2.2.visits
      = [⟨[], ['x'], false, 0, .read 0, none, .ok, [['x']]⟩] := by
    rw [visits_oneFile]
    rfl
  refine ⟨?_, ?_⟩
  · rw [hvisits]
    intro v hv
    rw [List.mem_singleton.mp hv]
    intro failure hfailure
    cases hfailure
    rfl
  · rintro before v after hsplit ⟨error, hfailure, -⟩
    have hv : v = ⟨[], ['x'], false, 0, .read 0, none, .ok, [['x']]⟩ := by
      apply List.mem_singleton.mp
      rw [← hvisits, hsplit]
      exact List.mem_append_right before List.mem_cons_self
    rw [hv] at hfailure
    cases hfailure

/-- With an `errno` of 5 at its entry, `glob` reports an error of the directory that it has read. -/
theorem glob_reports_stale :
    ¬ Faithful oneFile noFlags stop (glob oneFile noFlags (some stop) ['x'] ⟨0, [], 0⟩ 5) := by
  intro h
  have hvisits : (glob oneFile noFlags (some stop) ['x'] ⟨0, [], 0⟩ 5).2.2.visits
      = [⟨[], ['x'], false, 5, .read 0, some 5, .aborted, [['x']]⟩] := by
    rw [visits_oneFile]
    rfl
  have htold := h.told ⟨[], ['x'], false, 5, .read 0, some 5, .aborted, [['x']]⟩ (by
    rw [hvisits]
    exact List.mem_singleton_self _)
  cases htold

end LdbToolchain.Glob
