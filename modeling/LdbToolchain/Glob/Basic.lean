import LdbToolchain.Syscall

/-!
# `glob`

The code of `musl/glob.c`, over a file tree that is a parameter (`World`). A string is the list of
its characters before the terminator. The list of matches is its contents in order; the visits to
directories are noted in a list that the code does not have.

A library call may leave anything in `errno`, except where the code relies on it: an `opendir` that
succeeds and a `readdir` at the end of its directory leave `errno` alone, those that fail set it.
-/

namespace LdbToolchain.Glob

open LdbToolchain

abbrev Str := List Char

def PATH_MAX : Nat := 4096

/-- The `GLOB_` flags. -/
structure Flags where
  err : Bool
  mark : Bool
  nosort : Bool
  dooffs : Bool
  nocheck : Bool
  append : Bool
  noescape : Bool
  period : Bool
deriving Repr

/-- The `FNM_` flags. -/
structure FnmFlags where
  noescape : Bool
  period : Bool

/-- What `match_in_dir` and `glob` return. -/
inductive Code where
  | ok
  | noSpace
  | aborted
  | noMatch
deriving DecidableEq, Repr

/-! ## The world -/

/-- `d_type`. -/
inductive FileType where
  | unknown
  | directory
  | symlink
  | other
deriving DecidableEq, Repr

structure Dirent where
  name : Str
  type : FileType
deriving DecidableEq, Repr

/-- What the calls of `readdir` on an open directory return: the entries, then a null pointer, at the
end of the directory (`failure` is 0) or because reading failed. -/
structure Directory where
  entries : List Dirent
  failure : Int
deriving DecidableEq, Repr

structure World where
  opendir : Str → Except Int Directory
  /-- Whether the file is a directory, if `stat` succeeds. -/
  stat : Str → Option Bool
  fnmatch : Str → Str → FnmFlags → Bool
  /-- Whether an allocation succeeds that comes after so many library calls. -/
  malloc : Nat → Bool
  /-- What a `struct stat` on the stack says that no `stat` has filled. -/
  stale : Nat → Bool
  /-- What a library call makes of `errno`. -/
  clobber : Nat → Int → Int

/-- The error callback: whether it returns non-zero, given its calls so far, this one included. -/
abbrev Errfunc := List (Str × Int) → Bool

/-- How the visit of a directory ended. -/
inductive Ending where
  /-- It could not be opened. -/
  | unopened (error : Int)
  /-- It was opened, and is itself a match. -/
  | matched
  /-- `readdir` returned a null pointer, because of this error or, if 0, at the end. -/
  | read (failure : Int)
  /-- The scan stopped before. -/
  | interrupted
deriving DecidableEq, Repr

/-- A visit of a directory, by one call of `match_in_dir`. -/
structure Visit where
  dir : Str
  /-- The part of the pattern for the entries of this directory. -/
  pattern : Str
  /-- Whether the pattern goes on below it. -/
  deep : Bool
  /-- `errno` before the directory was opened. -/
  errno : Int
  ending : Ending
  /-- The error that `errfunc` was called with. -/
  reported : Option Int
  code : Code
  /-- What was matched when the visit ended. -/
  found : List Str

structure Scan where
  errno : Int
  /-- The number of library calls. -/
  calls : Nat
  /-- The calls of `errfunc`. -/
  reports : List (Str × Int)
  /-- The list that `tail` is the end of. -/
  found : List Str
  visits : List Visit

/-- A library call, or a few of them. -/
def Scan.call (w : World) (s : Scan) : Scan :=
  { s with errno := w.clobber s.calls s.errno, calls := s.calls + 1 }

/-- The visit ends here. -/
def Scan.visited (v : List Str → Visit) (s : Scan) : Scan :=
  { s with visits := s.visits ++ [v s.found] }

/-! ## The pattern -/

/-- `is_literal`, with the value of `bracket`. -/
def isLiteral (useesc : Bool) : Bool → Str → Bool
  | _, [] => true
  | bracket, c :: p =>
    if c = '\\' then if useesc then false else isLiteral useesc bracket p
    else if c = '?' ∨ c = '*' then false
    else if c = '[' then isLiteral useesc true p
    else if c = ']' then if bracket then false else isLiteral useesc bracket p
    else isLiteral useesc bracket p

/-- What `p` is cut down to: the pattern before the first slash. -/
def firstPart (p : Str) : Str := p.takeWhile (· ≠ '/')

/-- `p2`: the pattern after the first slash and those that follow it, null without a slash. -/
def laterParts (p : Str) : Option Str :=
  if '/' ∈ p then some ((p.dropWhile (· ≠ '/')).dropWhile (· = '/')) else none

/-! ## One directory -/

/-- `append`: whether it succeeded. -/
def append (w : World) (name : Str) (mark : Bool) (s : Scan) : Bool × Scan :=
  if w.malloc s.calls then
    (true, { s.call w with found := s.found ++ [if mark then name ++ ['/'] else name] })
  else (false, s.call w)

/-- What `opendir` is called with. -/
def openName (d : Str) : Str := if d = [] then ['.'] else d

/-- `l`. -/
def dirLength (d : Str) : Nat := if d = ['/'] then 0 else d.length

/-- The name of an entry, with its directory in front. -/
def entryPath (d name : Str) : Str := if d = [] then name else d.take (dirLength d) ++ '/' :: name

def fnmFlags (flags : Flags) : FnmFlags := ⟨flags.noescape, !flags.period⟩

/-- The tests at the start of the loop that `continue`: whether an entry gets past them, for a
pattern that goes on below the entry (`deep`) or not. -/
def passes (w : World) (flags : Flags) (p : Str) (deep : Bool) (de : Dirent) : Bool :=
  (if isLiteral (!flags.noescape) false p then p = de.name
    else w.fnmatch p de.name (fnmFlags flags))
  && !(deep && de.type = .other)
  && !(deep && flags.period && (de.name = ['.'] || de.name = ['.', '.'])
    && !w.fnmatch p de.name { fnmFlags flags with period := true })

/-- `mark`. -/
def isMarked (w : World) (flags : Flags) (de : Dirent) (name : Str) (s : Scan) : Bool × Scan :=
  if flags.mark then
    if de.type = .unknown ∨ de.type = .symlink then
      ((w.stat name).getD (w.stale s.calls), s.call w)
    else (de.type = .directory, s)
  else (false, s)

/-- The loop over the entries, with the local variable `error`: its value after the loop, or the
code to return at once. `recurse` is the call of `match_in_dir` with the pattern `p2`. -/
def readLoop (w : World) (flags : Flags) (d p : Str)
    (recurse : Option (Str → Scan → Code × Scan)) :
    List Dirent → Int → Scan → Except Code Int × Scan
  | [], error, s => (.ok error, s)
  | de :: entries, error, s =>
    let s := s.call w
    if passes w flags p recurse.isSome de then
      let name := entryPath d de.name
      match recurse with
      | some matchInDir =>
        match matchInDir name s with
        | (.ok, s) => readLoop w flags d p recurse entries 0 s
        | (code, s) => (.error code, s)
      | none =>
        let (mark, s) := isMarked w flags de name s
        match append w name mark s with
        | (true, s) => readLoop w flags d p recurse entries error s
        | (false, s) => (.error .noSpace, s)
    else readLoop w flags d p recurse entries error s

/-- `if (errfunc(d, error) || (flags & GLOB_ERR)) return GLOB_ABORTED; return 0;` -/
def report (w : World) (flags : Flags) (errfunc : Errfunc) (d : Str) (error : Int) (s : Scan) :
    Code × Scan :=
  let reports := s.reports ++ [(d, error)]
  (if errfunc reports || flags.err then .aborted else .ok, { s.call w with reports })

/-- What comes after the loop, with the error that `readdir` left. -/
def finish (w : World) (flags : Flags) (errfunc : Errfunc)
    (visit : Ending → Option Int → Code → List Str → Visit) (d : Str) (failure error : Int)
    (s : Scan) : Code × Scan :=
  let s := if failure = 0 then s else { s with errno := failure }
  let s := s.call w
  if error = 0 then (.ok, s.visited (visit (.read failure) none .ok))
  else
    let (code, s) := report w flags errfunc d error s
    (code, s.visited (visit (.read failure) (some error) code))

/-- The body of `match_in_dir`, with the first part of the pattern. -/
def scanDir (w : World) (flags : Flags) (errfunc : Errfunc) (d p : Str)
    (recurse : Option (Str → Scan → Code × Scan)) (s : Scan) : Code × Scan :=
  let visit := Visit.mk d p recurse.isSome s.errno
  match w.opendir (openName d) with
  | .error error =>
    let s := { s with errno := error }
    if error = Errno.ENOTDIR.val then (.ok, s.visited (visit (.unopened error) none .ok))
    else
      let s := if error = Errno.EACCES.val ∧ p = [] then s.call w else s
      if error = Errno.EACCES.val ∧ p = [] ∧ w.stat d = some true then
        let (appended, s) := append w d (dirLength d ≠ 0) s
        let code := if appended then .ok else .noSpace
        (code, s.visited (visit (.unopened error) none code))
      else
        let (code, s) := report w flags errfunc d error s
        (code, s.visited (visit (.unopened error) (some error) code))
  | .ok dir =>
    if p = [] then
      let (appended, s) := append w d (dirLength d ≠ 0) s
      let code := if appended then .ok else .noSpace
      (code, (s.call w).visited (visit .matched none code))
    else
      -- `error = errno;` after `opendir`
      match readLoop w flags d p recurse dir.entries s.errno s with
      | (.error code, s) => (code, (s.call w).visited (visit .interrupted none code))
      | (.ok error, s) => finish w flags errfunc visit d dir.failure error s

theorem length_laterParts {p p2 : Str} (h : laterParts p = some p2) : p2.length < p.length := by
  rw [laterParts] at h
  split at h
  next hslash =>
    cases h
    have hle : (p.dropWhile (· ≠ '/')).length ≤ p.length := (List.dropWhile_sublist _).length_le
    cases hrest : p.dropWhile (· ≠ '/') with
    | nil =>
        have := List.dropWhile_eq_nil_iff.mp hrest '/' hslash
        grind
    | cons c rest =>
        have hc : c = '/' := by
          have hne : p.dropWhile (· ≠ '/') ≠ [] := by rw [hrest]; exact List.cons_ne_nil c rest
          have := List.head_dropWhile_not (· ≠ '/') hne
          grind
        have hless : (rest.dropWhile (· = '/')).length ≤ rest.length :=
          (List.dropWhile_sublist _).length_le
        rw [hrest, List.length_cons] at hle
        rw [List.dropWhile_cons, hc, if_pos (by decide)]
        omega
  next => cases h

/-- `match_in_dir`. -/
def matchInDir (w : World) (flags : Flags) (errfunc : Errfunc) (d p : Str) (s : Scan) :
    Code × Scan :=
  scanDir w flags errfunc d (firstPart p)
    (match _h : laterParts p with
      | none => none
      | some p2 => some fun name s => matchInDir w flags errfunc name p2 s) s
termination_by p.length
decreasing_by exact length_laterParts _h

/-! ## The whole of it -/

/-- An element of `gl_pathv`. -/
inductive Slot where
  /-- Memory of `realloc` that nothing has been stored in. -/
  | unset
  | null
  | name (s : Str)
deriving DecidableEq

/-- `glob_t`. -/
structure GlobT where
  pathc : Nat
  pathv : List Slot
  offs : Nat

/-- Whether `strcmp` is not positive. -/
def strcmpLe : Str → Str → Bool
  | [], _ => true
  | _ :: _, [] => false
  | a :: x, b :: y => if a = b then strcmpLe x y else a < b

def ignoreErr : Errfunc := fun _ => false

/-- What `realloc` leaves of an array: its first elements, and after them nothing that is set. -/
def firstSlots (n : Nat) (pathv : List Slot) : List Slot :=
  pathv.take n ++ List.replicate (n - pathv.length) .unset

/-- The array of the matches: a new one, or the one there is made longer. -/
def GlobT.store (g : GlobT) (flags : Flags) (offs : Nat) (found : List Str) : GlobT :=
  let before :=
    if flags.append then firstSlots (offs + g.pathc) g.pathv else List.replicate offs .null
  let found' := if flags.nosort then found else found.mergeSort strcmpLe
  { g with pathv := before ++ found'.map .name ++ [.null], pathc := g.pathc + found.length }

/-- What `glob` does after the scan. -/
def collect (w : World) (flags : Flags) (pat : Str) (offs : Nat) (g : GlobT) (error : Code)
    (s : Scan) : Code × GlobT × Scan :=
  if error = .noSpace then (.noSpace, g, s)
  else if s.found = [] ∧ flags.nocheck = false then (.noMatch, g, s)
  else
    let (appended, s) := if s.found = [] then append w pat false s else (true, s)
    if appended = false then (.noSpace, g, s)
    else if w.malloc s.calls then (error, g.store flags offs s.found, s.call w)
    else (.noSpace, g, s.call w)

/-- `glob`, from its entry with this `errno`. -/
def glob (w : World) (flags : Flags) (errfunc : Option Errfunc) (pat : Str) (g : GlobT)
    (errno : Int) : Code × GlobT × Scan :=
  let offs := if flags.dooffs then g.offs else 0
  let p := pat.dropWhile (· = '/')
  let d := if pat.head? = some '/' then ['/'] else []
  let g := if flags.append then g else ⟨0, [], offs⟩
  let s : Scan := ⟨errno, 0, [], [], []⟩
  if p.length > PATH_MAX then (.noSpace, g, s)
  else
    let (error, s) :=
      if pat = [] then (.ok, s) else matchInDir w flags (errfunc.getD ignoreErr) d p s
    collect w flags pat offs g error s

end LdbToolchain.Glob
