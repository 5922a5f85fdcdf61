import LdbToolchain.Glob.Report

/-!
# What `glob` finds

A pattern is its parts between slashes. `hits` says without a scan which paths match it: from a
directory, the entries that get past the tests of the first part, and from those on the rest. A scan
that no error stops finds the hits, in their order; one that is stopped finds the first of them.
-/

namespace LdbToolchain.Glob

open LdbToolchain

/-! ## The paths that match -/

/-- The parts of a pattern; the last one is empty when the pattern ends with a slash. -/
def parts (p : Str) : List Str :=
  firstPart p ::
    match _h : laterParts p with
    | none => []
    | some p2 => parts p2
termination_by p.length
decreasing_by exact length_laterParts _h

/-- A path that matches, and whether a slash is put behind it; `none` when the `stat` that should say
so fails. -/
structure Hit where
  path : Str
  mark : Option Bool

/-- The name by which a hit is listed. -/
def Hit.Names (h : Hit) (name : Str) : Prop :=
  ∃ mark : Bool, (h.mark = none ∨ h.mark = some mark) ∧
    name = if mark then h.path ++ ['/'] else h.path

/-- The directory itself, when the pattern ends there: it can be opened, or is known to be one. -/
def dirHits (w : World) (d : Str) : List Hit :=
  let hit : Hit := ⟨d, some (dirLength d ≠ 0)⟩
  match w.opendir (openName d) with
  | .ok _ => [hit]
  | .error error => if error = Errno.EACCES.val ∧ w.stat d = some true then [hit] else []

/-- An entry, when the pattern ends there. -/
def entryHit (w : World) (flags : Flags) (d : Str) (de : Dirent) : Hit where
  path := entryPath d de.name
  mark :=
    if flags.mark then
      if de.type = .unknown ∨ de.type = .symlink then w.stat (entryPath d de.name)
      else some (de.type = .directory)
    else some false

/-- The paths that match these parts from a directory on. -/
def hits (w : World) (flags : Flags) : Str → List Str → List Hit
  | _, [] => []
  | d, p :: ps =>
    if p = [] then dirHits w d
    else if ps = [] then
      ((entriesOf w d).filter (passes w flags p false)).map (entryHit w flags d)
    else
      ((entriesOf w d).filter (passes w flags p true)).flatMap fun de =>
        hits w flags (entryPath d de.name) ps

/-- The paths that match a pattern. -/
def globHits (w : World) (flags : Flags) (pat : Str) : List Hit :=
  if pat = [] then []
  else hits w flags (if pat.head? = some '/' then ['/'] else []) (parts (pat.dropWhile (· = '/')))

theorem parts_eq (p : Str) : parts p = firstPart p :: ((laterParts p).map parts).getD [] := by
  rw [parts]
  congr 1
  split
  next h => rw [h, Option.map_none, Option.getD_none]
  next p2 h => rw [h, Option.map_some, Option.getD_some]

theorem parts_ne_nil (p : Str) : parts p ≠ [] := by
  rw [parts_eq]
  exact List.cons_ne_nil _ _

/-! ## Finding them -/

/-- Between two states of a scan the first of these hits were found, and all of them if it was not
stopped. -/
def Finds (hs : List Hit) (s : Scan) (code : Code) (s' : Scan) : Prop :=
  code ≠ .noMatch ∧ ∃ done names, s'.found = s.found ++ names ∧ done <+: hs ∧
    List.Forall₂ Hit.Names done names ∧ (code = .ok → done = hs)

theorem finds_none {hs : List Hit} {s s' : Scan} {code : Code} (hfound : s'.found = s.found)
    (hmatch : code ≠ .noMatch) (hcode : code = .ok → hs = []) : Finds hs s code s' := by
  refine ⟨hmatch, [], [], ?_, List.nil_prefix, .nil, fun h => (hcode h).symm⟩
  rw [hfound, List.append_nil]

theorem finds_one {h : Hit} {s s' : Scan} {name : Str} (hfound : s'.found = s.found ++ [name])
    (hname : h.Names name) : Finds [h] s .ok s' :=
  ⟨by simp, [h], [name], hfound, List.prefix_rfl, .cons hname .nil, fun _ => rfl⟩

/-- Only the names found count. -/
theorem Finds.congr {hs : List Hit} {s s₁ s' s₁' : Scan} {code : Code} (h : Finds hs s code s')
    (hfound : s₁.found = s.found) (hfound' : s₁'.found = s'.found) : Finds hs s₁ code s₁' := by
  rw [Finds, hfound, hfound']
  exact h

/-- More hits after a scan that was not stopped. -/
theorem Finds.trans {hs hs' : List Hit} {s s₁ s₂ : Scan} {code : Code} (h : Finds hs s .ok s₁)
    (h' : Finds hs' s₁ code s₂) : Finds (hs ++ hs') s code s₂ := by
  obtain ⟨-, done, names, hfound, -, hnames, hall⟩ := h
  obtain ⟨hmatch, done', names', hfound', hdone', hnames', hall'⟩ := h'
  cases hall rfl
  refine ⟨hmatch, hs ++ done', names ++ names', ?_, (List.prefix_append_right_inj hs).mpr hdone',
    List.rel_append hnames hnames', fun hcode => by rw [hall' hcode]⟩
  rw [hfound', hfound, List.append_assoc]

/-- No more hits after one that was. -/
theorem Finds.stop {hs : List Hit} {s s₁ : Scan} {code : Code} (h : Finds hs s code s₁)
    (hcode : code ≠ .ok) (hs' : List Hit) : Finds (hs ++ hs') s code s₁ := by
  obtain ⟨hmatch, done, names, hfound, hdone, hnames, -⟩ := h
  exact ⟨hmatch, done, names, hfound, hdone.trans (List.prefix_append hs hs'), hnames,
    fun hok => absurd hok hcode⟩

/-! ## The code -/

section Code

variable {w : World} {flags : Flags} {errfunc : Errfunc} {d p : Str}

theorem append_finds {h : Hit} {name : Str} {mark : Bool} (hname : h.path = name)
    (hmark : h.mark = none ∨ h.mark = some mark) (s : Scan) :
    Finds [h] s (if (append w name mark s).1 then .ok else .noSpace) (append w name mark s).2 := by
  rw [append]
  split
  next =>
    refine finds_one rfl ⟨mark, hmark, ?_⟩
    rw [hname]
  next => exact finds_none rfl (by simp) (by simp)

theorem addEntry_finds (w : World) (flags : Flags) (d : Str) (de : Dirent) (s : Scan) :
    Finds [entryHit w flags d de] s (if (addEntry w flags d de s).1 then .ok else .noSpace)
      (addEntry w flags d de s).2 := by
  have hfound : (isMarked w flags de (entryPath d de.name) s).2.found = s.found := by
    rw [isMarked]
    split_ifs <;> rfl
  have hmark : (entryHit w flags d de).mark = none ∨
      (entryHit w flags d de).mark = some (isMarked w flags de (entryPath d de.name) s).1 := by
    rw [isMarked, entryHit]
    dsimp only
    split_ifs
    · cases w.stat (entryPath d de.name) with
      | none => exact .inl rfl
      | some mark => exact .inr rfl
    · exact .inr rfl
    · exact .inr rfl
  exact (append_finds rfl hmark _).congr hfound.symm rfl

/-- The loop over the entries that the pattern ends at. -/
theorem readLoop_finds_last (entries : List Dirent) (error : Int) (s : Scan) :
    Finds ((entries.filter (passes w flags p false)).map (entryHit w flags d)) s
      (loopCode (readLoop w flags d p none entries error s).1)
      (readLoop w flags d p none entries error s).2 := by
  induction entries generalizing error s with
  | nil => exact finds_none rfl (by simp [readLoop, loopCode]) fun _ => rfl
  | cons de entries ih =>
      cases hpass : passes w flags p false de with
      | false =>
          rw [readLoop_skip hpass, List.filter_cons_of_neg (by rw [hpass]; simp)]
          exact (ih error (s.call w)).congr rfl rfl
      | true =>
          have hentry := addEntry_finds w flags d de (s.call w)
          rw [List.filter_cons_of_pos hpass, List.map_cons, ← List.singleton_append]
          cases hadd : (addEntry w flags d de (s.call w)).1 with
          | true =>
              rw [hadd] at hentry
              rw [readLoop_append hpass hadd]
              exact (hentry.congr rfl rfl).trans (ih error _)
          | false =>
              rw [hadd] at hentry
              rw [readLoop_noSpace hpass hadd]
              exact (hentry.congr rfl rfl).stop (by simp) _

/-- The loop over the entries that the pattern goes on below. -/
theorem readLoop_finds_deep {matchInDir : Str → Scan → Code × Scan} (below : Str → List Hit)
    (hrec : ∀ name s, Finds (below name) s (matchInDir name s).1 (matchInDir name s).2)
    (entries : List Dirent) (error : Int) (s : Scan) :
    Finds ((entries.filter (passes w flags p true)).flatMap fun de => below (entryPath d de.name)) s
      (loopCode (readLoop w flags d p (some matchInDir) entries error s).1)
      (readLoop w flags d p (some matchInDir) entries error s).2 := by
  induction entries generalizing error s with
  | nil => exact finds_none rfl (by simp [readLoop, loopCode]) fun _ => rfl
  | cons de entries ih =>
      cases hpass : passes w flags p true de with
      | false =>
          rw [readLoop_skip hpass, List.filter_cons_of_neg (by rw [hpass]; simp)]
          exact (ih error (s.call w)).congr rfl rfl
      | true =>
          rw [List.filter_cons_of_pos hpass, List.flatMap_cons]
          rcases hrun : matchInDir (entryPath d de.name) (s.call w) with ⟨code, s'⟩
          have hbelow := hrec (entryPath d de.name) (s.call w)
          rw [hrun] at hbelow
          by_cases hcode : code = .ok
          · subst hcode
            rw [readLoop_into hpass hrun]
            exact (hbelow.congr rfl rfl).trans (ih 0 s')
          · rw [readLoop_stop hpass hcode hrun]
            exact (hbelow.congr rfl rfl).stop hcode _

theorem report_code (w : World) (d : Str) (error : Int) (s : Scan) :
    (report w flags errfunc d error s).1 ≠ .noMatch := by
  rw [report]
  dsimp only
  split <;> simp

theorem finish_found (visit : Ending → Option Int → Code → List Str → Visit) (failure error : Int)
    (s : Scan) : (finish w flags errfunc visit d failure error s).2.found = s.found := by
  have hset : (if failure = 0 then s else { s with errno := failure }).found = s.found := by
    split <;> rfl
  rw [finish]
  dsimp only
  split
  next => exact hset
  next => exact hset

theorem finish_code (visit : Ending → Option Int → Code → List Str → Visit) (failure error : Int)
    (s : Scan) : (finish w flags errfunc visit d failure error s).1 ≠ .noMatch := by
  rw [finish]
  dsimp only
  split
  next => simp
  next => exact report_code w d error _

/-- A directory that cannot be opened is a hit when it is known to be a directory. -/
theorem scanDir_finds_unopened {recurse : Option (Str → Scan → Code × Scan)} {error : Int}
    (hopen : w.opendir (openName d) = .error error) (s : Scan) :
    Finds (if p = [] then dirHits w d else []) s (scanDir w flags errfunc d p recurse s).1
      (scanDir w flags errfunc d p recurse s).2 := by
  have hacces : Errno.EACCES.val ≠ Errno.ENOTDIR.val := by decide
  rw [scanDir, dirHits, hopen]
  dsimp only
  by_cases hnotdir : error = Errno.ENOTDIR.val
  · rw [if_pos hnotdir]
    apply finds_none rfl (by simp)
    intro _
    split_ifs with hp h
    · exact absurd (h.1.symm.trans hnotdir) hacces
    · rfl
    · rfl
  · rw [if_neg hnotdir]
    have hfound : (if error = Errno.EACCES.val ∧ p = [] then
        ({ s with errno := error } : Scan).call w else { s with errno := error }).found = s.found := by
      split <;> rfl
    generalize (if error = Errno.EACCES.val ∧ p = [] then
        ({ s with errno := error } : Scan).call w else { s with errno := error }) = s₁ at hfound ⊢
    by_cases hdir : error = Errno.EACCES.val ∧ p = [] ∧ w.stat d = some true
    · obtain ⟨herror, hp, hstat⟩ := hdir
      rw [if_pos hp, if_pos ⟨herror, hstat⟩, if_pos ⟨herror, hp, hstat⟩]
      exact (append_finds (h := ⟨d, some (dirLength d ≠ 0)⟩) rfl (.inr rfl) s₁).congr hfound.symm rfl
    · rw [if_neg (c := error = Errno.EACCES.val ∧ p = [] ∧ w.stat d = some true) hdir]
      apply finds_none hfound (report_code w d error s₁)
      intro _
      split_ifs with hp h
      · exact absurd ⟨h.1, hp, h.2⟩ hdir
      · rfl
      · rfl

/-- One directory, given what the loop over its entries finds. -/
theorem scanDir_finds {recurse : Option (Str → Scan → Code × Scan)} (inner : List Dirent → List Hit)
    (hnil : inner [] = [])
    (hloop : ∀ entries error s, Finds (inner entries) s
      (loopCode (readLoop w flags d p recurse entries error s).1)
      (readLoop w flags d p recurse entries error s).2) (s : Scan) :
    Finds (if p = [] then dirHits w d else inner (entriesOf w d)) s
      (scanDir w flags errfunc d p recurse s).1 (scanDir w flags errfunc d p recurse s).2 := by
  cases hopen : w.opendir (openName d) with
  | error error =>
      rw [entriesOf, hopen, hnil]
      exact scanDir_finds_unopened hopen s
  | ok dir =>
      rw [entriesOf, dirHits, scanDir, hopen]
      dsimp only
      by_cases hp : p = []
      · rw [if_pos hp, if_pos hp]
        exact append_finds (h := ⟨d, some (dirLength d ≠ 0)⟩) rfl (.inr rfl) s
      · rw [if_neg hp, if_neg hp]
        have hfinds := hloop dir.entries s.errno s
        rcases hrun : readLoop w flags d p recurse dir.entries s.errno s with ⟨result, s₁⟩
        rw [hrun] at hfinds
        cases result with
        | error code => exact hfinds
        | ok error =>
            -- an error that is reported after the loop does not undo what was found
            obtain ⟨-, done, names, hnames, hdone, hhits, hall⟩ := hfinds
            refine ⟨finish_code _ dir.failure error s₁, done, names, ?_, hdone, hhits,
              fun _ => hall rfl⟩
            rw [← hnames]
            exact finish_found _ dir.failure error s₁

/-- **A scan finds the hits.** -/
theorem matchInDir_finds (d p : Str) (s : Scan) :
    Finds (hits w flags d (parts p)) s (matchInDir w flags errfunc d p s).1
      (matchInDir w flags errfunc d p s).2 := by
  induction hn : p.length using Nat.strong_induction_on generalizing d p s with
  | _ n ih =>
      rw [matchInDir_eq, parts_eq, hits]
      cases hlater : laterParts p with
      | none =>
          exact scanDir_finds (fun entries =>
            (entries.filter (passes w flags (firstPart p) false)).map (entryHit w flags d)) rfl
            readLoop_finds_last s
      | some p2 =>
          rw [Option.map_some, Option.map_some, Option.getD_some, if_neg (parts_ne_nil p2)]
          refine scanDir_finds (fun entries =>
            (entries.filter (passes w flags (firstPart p) true)).flatMap fun de =>
              hits w flags (entryPath d de.name) (parts p2)) rfl ?_ s
          apply readLoop_finds_deep fun name => hits w flags name (parts p2)
          intro name s
          exact ih p2.length (hn ▸ length_laterParts hlater) name p2 s rfl

end Code

end LdbToolchain.Glob
