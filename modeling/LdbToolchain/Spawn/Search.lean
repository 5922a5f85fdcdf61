import LdbToolchain.Lib.Split
import LdbToolchain.Spawn.Execvpe

/-!
# What `__execvpe` tries

`searchLoop` walks through the `PATH` string; `tryAll` walks through a list of candidates. Splitting
the string at its colons, dropping the elements that are too long and joining the rest with the file
name gives the candidates, and on these the two agree: `searchLoop_eq_tryAll`.
-/

namespace LdbToolchain.Spawn

/-! ## Candidates -/

/-- The path tried for an element of `PATH`. -/
def candidate (file : CString) (element : List UInt8) : CString :=
  .ofBuffer (if element = [] then file.bytes else element ++ slash :: file.bytes)

/-- The elements the loop does not skip as too long. -/
def elements (l : Nat) (p : List UInt8) : List (List UInt8) :=
  (p.splitOn colon).filter (·.length < l)

/-- The limit `l` of `__execvpe`. -/
def elementLimit (path : CString) : Nat := min path.bytes.length (PATH_MAX - 1) + 1

/-- The paths for a `PATH` string, in order. -/
def candidates (file path : CString) : List CString :=
  (elements (elementLimit path) path.bytes).map (candidate file)

theorem CString.ofBuffer_bytes (s : CString) : CString.ofBuffer s.bytes = s := by
  obtain ⟨bytes, h⟩ := s
  unfold CString.ofBuffer
  congr 1
  rw [List.takeWhile_eq_self_iff]
  intro x hx
  have hne : x ≠ 0 := fun h0 => h (h0 ▸ hx)
  simpa using hne

theorem CString.ofBuffer_append_nul (bs rest : List UInt8) :
    CString.ofBuffer (bs ++ 0 :: rest) = CString.ofBuffer bs := by
  unfold CString.ofBuffer
  congr 1
  induction bs with
  | nil => rfl
  | cons b bs ih =>
      rw [List.cons_append, List.takeWhile_cons, List.takeWhile_cons, ih]

theorem candidate_nil (file : CString) : candidate file [] = file := by
  unfold candidate
  rw [if_pos rfl, CString.ofBuffer_bytes]

theorem poke_append (pre b bs : List UInt8) :
    poke (pre ++ b) pre.length bs = pre ++ bs ++ b.drop bs.length := by
  unfold poke
  rw [List.take_left, ← List.drop_drop, List.drop_left]

theorem poke_zero (b bs : List UInt8) : poke b 0 bs = bs ++ b.drop bs.length := poke_append [] b bs

/-- The stack buffer holds the candidate, whatever it held before. -/
theorem ofBuffer_candidateBuffer (b element : List UInt8) (file : CString) :
    CString.ofBuffer (candidateBuffer b element file) = candidate file element := by
  unfold candidateBuffer candidate
  simp only [poke_zero, poke_append]
  cases element with
  | nil =>
      show CString.ofBuffer (poke (slash :: (b.drop 0).drop 1) 0 (file.bytes ++ [0])) = _
      rw [poke_zero, if_pos rfl, List.append_assoc]
      exact CString.ofBuffer_append_nul _ _
  | cons x xs =>
      have hpos : (x :: xs).length > 0 := Nat.succ_pos _
      have hlen : (x :: xs).length + 1 = ((x :: xs) ++ [slash]).length := by
        rw [List.length_append, List.length_singleton]
      simp only [if_pos hpos, hlen, poke_append]
      rw [if_neg (List.cons_ne_nil x xs)]
      have happ : ∀ rest : List UInt8,
          x :: xs ++ [slash] ++ (file.bytes ++ [0]) ++ rest
            = (x :: xs ++ slash :: file.bytes) ++ 0 :: rest := by
        intro rest
        simp
      rw [happ]
      exact CString.ofBuffer_append_nul _ _

/-! ## Elements -/

theorem element_eq_takeWhile (p : List UInt8) :
    p.take (p.length - (strchrnul p colon).length) = p.takeWhile (· ≠ colon) := by
  have happ : p.takeWhile (· ≠ colon) ++ strchrnul p colon = p := List.takeWhile_append_dropWhile
  have hlen := congrArg List.length happ
  rw [List.length_append] at hlen
  have hdiff : p.length - (strchrnul p colon).length = (p.takeWhile (· ≠ colon)).length := by omega
  calc p.take (p.length - (strchrnul p colon).length)
      = (p.takeWhile (· ≠ colon) ++ strchrnul p colon).take
          (p.takeWhile (· ≠ colon)).length := by rw [hdiff, happ]
    _ = p.takeWhile (· ≠ colon) := List.take_left

theorem colon_notMem_takeWhile (p : List UInt8) : colon ∉ p.takeWhile (· ≠ colon) := by
  intro h
  simpa using List.mem_takeWhile_imp h

theorem splitOn_of_strchrnul_nil {p : List UInt8} (h : strchrnul p colon = []) :
    p.splitOn colon = [p.takeWhile (· ≠ colon)] := by
  have happ : p.takeWhile (· ≠ colon) ++ strchrnul p colon = p := List.takeWhile_append_dropWhile
  rw [h, List.append_nil] at happ
  have hnot := colon_notMem_takeWhile p
  rw [happ] at hnot ⊢
  exact List.splitOn_eq_singleton hnot

theorem splitOn_of_strchrnul_cons {p z : List UInt8} {a : UInt8} (h : strchrnul p colon = a :: z) :
    p.splitOn colon = p.takeWhile (· ≠ colon) :: z.splitOn colon := by
  have happ : p.takeWhile (· ≠ colon) ++ strchrnul p colon = p := List.takeWhile_append_dropWhile
  have ha : a = colon := by
    have hhead := List.head?_dropWhile_not (p := (· ≠ colon)) (l := p)
    unfold strchrnul at h
    rw [h] at hhead
    simpa using hhead
  rw [h, ha] at happ
  conv_lhs => rw [← happ]
  exact List.splitOn_append_cons_self_of_not_mem (colon_notMem_takeWhile p) z

theorem nonul_of_mem_elements {l : Nat} {p element : List UInt8} (hp : 0 ∉ p)
    (h : element ∈ elements l p) : 0 ∉ element :=
  fun h0 => hp (Split.mem_of_mem_splitOn (List.mem_filter.mp h).1 h0)

/-! ## The search -/

/-- Trying a list of paths in order, up to the first that is executed or fails fatally. -/
def tryAll (k : Kernel) (argv : Argv) (envp : Envp) :
    List CString → Bool → Child → ExecResult
  | [], seenEacces, c => searchFailed seenEacces c
  | path :: rest, seenEacces, c =>
      match execve k path argv envp c with
      | .replaced c => .replaced c
      | .returned c =>
          if keepsSearching c.errno then
            tryAll k argv envp rest (seenEacces || c.errno = Errno.EACCES.val) c
          else .returned c

/-- What the loop does after the first element of `p`. -/
def searchRest (k : Kernel) (file : CString) (argv : Argv) (envp : Envp) (l : Nat)
    (seenEacces : Bool) (p : List UInt8) (c : Child) : ExecResult :=
  match _h : strchrnul p colon with
  | [] => searchFailed seenEacces c
  | _ :: p' => searchLoop k file argv envp l seenEacces p' c

/-- **The loop tries the candidates.** -/
theorem searchLoop_eq_tryAll (k : Kernel) (file : CString) (argv : Argv) (envp : Envp) (l : Nat)
    (seenEacces : Bool) (p : List UInt8) (c : Child) :
    searchLoop k file argv envp l seenEacces p c
      = tryAll k argv envp ((elements l p).map (candidate file)) seenEacces c := by
  induction hn : p.length using Nat.strongRecOn generalizing p seenEacces c with
  | _ n ih =>
    rw [searchLoop, element_eq_takeWhile]
    have hrest : ∀ seen c, searchRest k file argv envp l seen p c
        = tryAll k argv envp
            (((p.splitOn colon).tail.filter (·.length < l)).map (candidate file)) seen c := by
      intro seen c
      unfold searchRest
      cases hz : strchrnul p colon with
      | nil =>
          rw [splitOn_of_strchrnul_nil hz]
          rfl
      | cons a z =>
          rw [splitOn_of_strchrnul_cons hz]
          exact ih z.length (hn ▸ length_tail_strchrnul hz) seen z c rfl
    have hsplit : p.splitOn colon = p.takeWhile (· ≠ colon) :: (p.splitOn colon).tail := by
      cases hz : strchrnul p colon with
      | nil => rw [splitOn_of_strchrnul_nil hz, List.tail_cons]
      | cons a z => rw [splitOn_of_strchrnul_cons hz, List.tail_cons]
    unfold elements
    rw [hsplit, List.filter_cons]
    simp only [ofBuffer_candidateBuffer]
    by_cases hlong : (p.takeWhile (· ≠ colon)).length ≥ l
    · have hskip : ¬ (p.takeWhile (· ≠ colon)).length < l := by omega
      simp only [hlong, hskip, decide_false, if_true, if_false, Bool.false_eq_true]
      exact hrest seenEacces c
    · have hkeep : (p.takeWhile (· ≠ colon)).length < l := by omega
      simp only [hlong, hkeep, decide_true, if_true, if_false, List.map_cons]
      rw [tryAll]
      cases execve k (candidate file (p.takeWhile (· ≠ colon))) argv envp c with
      | replaced c' => rfl
      | returned c' =>
          dsimp only
          split
          · exact hrest (seenEacces || c'.errno = Errno.EACCES.val) c'
          · rfl

/-- **The PATH search**, for a file name the checks before the loop let through. -/
theorem execvpe_eq_tryAll (k : Kernel) {file : CString} (hne : file.bytes ≠ [])
    (hslash : slash ∉ file.bytes) (hlen : file.bytes.length ≤ NAME_MAX) (path : Option CString)
    (argv : Argv) (envp : Envp) (c : Child) :
    execvpe path k file argv envp c
      = tryAll k argv envp (candidates file (path.getD defaultPath)) false
          { c with errno := Errno.ENOENT.val } := by
  unfold execvpe
  have hmin : ¬ min file.bytes.length (NAME_MAX + 1) > NAME_MAX := by omega
  simp only [if_neg hne, if_neg hslash, if_neg hmin, searchLoop_eq_tryAll]
  rfl

/-! ## Attempts -/

/-- The child after an attempt, in the new image or not. -/
def ExecResult.child : ExecResult → Child
  | .replaced c => c
  | .returned c => c

def ExecResult.succeeded : ExecResult → Bool
  | .replaced _ => true
  | .returned _ => false

theorem attempts_execve (k : Kernel) (path : CString) (argv : Argv) (envp : Envp) (c : Child) :
    (execve k path argv envp c).child.attempts = c.attempts ++ [path] := by
  have hlog : (c.log (.execve path argv envp)).attempts = c.attempts ++ [path] := by
    unfold Child.attempts Child.log
    rw [List.filterMap_append]
    rfl
  unfold execve
  cases k.execve c.calls path with
  | none => exact hlog
  | some e => exact hlog

/-- The search tries paths in order, and at least one if there is one. -/
theorem attempts_tryAll (k : Kernel) (argv : Argv) (envp : Envp) (paths : List CString)
    (seenEacces : Bool) (c : Child) :
    ∃ tried, (tryAll k argv envp paths seenEacces c).child.attempts = c.attempts ++ tried ∧
      tried <+: paths ∧ (tried = [] ↔ paths = []) := by
  induction paths generalizing seenEacces c with
  | nil => exact ⟨[], by rw [List.append_nil]; rfl, List.prefix_rfl, Iff.rfl⟩
  | cons path rest ih =>
      have hattempt := attempts_execve k path argv envp c
      unfold tryAll
      cases hexec : execve k path argv envp c with
      | replaced c' =>
          rw [hexec] at hattempt
          exact ⟨[path], hattempt, ⟨rest, rfl⟩, by simp⟩
      | returned c' =>
          rw [hexec] at hattempt
          dsimp only
          split
          · obtain ⟨tried, htried, hpre, -⟩ := ih (seenEacces || c'.errno = Errno.EACCES.val) c'
            refine ⟨path :: tried, ?_, List.cons_prefix_cons.mpr ⟨rfl, hpre⟩, by simp⟩
            rw [htried]
            change c'.attempts = _ at hattempt
            rw [hattempt, List.append_assoc, List.singleton_append]
          · exact ⟨[path], hattempt, ⟨rest, rfl⟩, by simp⟩

/-! ## The course of a search

Were all the paths tried one after the other, `execve` would give `answers`. The search makes these
attempts up to the first whose answer ends it. -/

/-- What `execve` answers for the paths of a list in turn. -/
def answers (k : Kernel) (argv : Argv) (envp : Envp) :
    List ChildCall → List CString → List (Option Errno)
  | _, [] => []
  | calls, path :: rest =>
      k.execve calls path :: answers k argv envp (calls ++ [.execve path argv envp]) rest

/-- The attempt succeeded, or failed in a way the search does not go on after. -/
def endsSearch : Option Errno → Bool
  | none => true
  | some e => !keepsSearching e.val

/-- The attempts made, each with its answer: the list up to the first that ends the search. -/
def tried (k : Kernel) (argv : Argv) (envp : Envp) (calls : List ChildCall)
    (paths : List CString) : List (CString × Option Errno) :=
  let all := paths.zip (answers k argv envp calls paths)
  all.take (all.findIdx (fun t => endsSearch t.2) + 1)

/-- The `errno` of a call that returned, `none` if the image was replaced. -/
def ExecResult.errno : ExecResult → Option Int
  | .replaced _ => none
  | .returned c => some c.errno

/-- How a search ends after these answers: `none` if it is in a new image, else its `errno`. -/
def searchErrno (seenEacces : Bool) (errno : Int) (as : List (Option Errno)) : Option Int :=
  match as.getLast? with
  | none => some (if seenEacces then Errno.EACCES.val else errno)
  | some none => none
  | some (some e) =>
      some (if keepsSearching e.val ∧ (seenEacces ∨ some Errno.EACCES ∈ as) then Errno.EACCES.val
        else e.val)

@[simp] theorem tried_nil (k : Kernel) (argv : Argv) (envp : Envp) (calls : List ChildCall) :
    tried k argv envp calls [] = [] := rfl

theorem tried_cons (k : Kernel) (argv : Argv) (envp : Envp) (calls : List ChildCall)
    (path : CString) (rest : List CString) :
    tried k argv envp calls (path :: rest)
      = (path, k.execve calls path) :: if endsSearch (k.execve calls path) then []
          else tried k argv envp (calls ++ [.execve path argv envp]) rest := by
  unfold tried
  dsimp only
  rw [answers, List.zip_cons_cons, List.findIdx_cons]
  cases endsSearch (k.execve calls path) with
  | true => simp
  | false => simp

/-- One more failure the search goes on after. -/
theorem searchErrno_cons {e : Errno} (h : keepsSearching e.val = true) (seenEacces : Bool)
    (errno : Int) (as : List (Option Errno)) :
    searchErrno seenEacces errno (some e :: as)
      = searchErrno (seenEacces || decide (e.val = Errno.EACCES.val)) e.val as := by
  have heq : (e.val = Errno.EACCES.val) ↔ Errno.EACCES = e := by
    constructor
    · intro hval
      exact (Errno.val_injective hval).symm
    · intro he
      rw [he]
  cases as with
  | nil => simp [searchErrno, h, heq]
  | cons a as =>
      unfold searchErrno
      rw [List.getLast?_cons_cons, List.getLast?_eq_some_getLast (List.cons_ne_nil a as)]
      simp only [List.mem_cons, Option.some.injEq, Bool.or_eq_true, decide_eq_true_eq, heq,
        or_assoc]
      cases (a :: as).getLast (List.cons_ne_nil a as) with
      | none => rfl
      | some e' => rfl

/-- The calls of a search and how it ends. -/
theorem tryAll_tried (k : Kernel) (argv : Argv) (envp : Envp) (paths : List CString)
    (seenEacces : Bool) (c : Child) :
    let attempts := tried k argv envp c.calls paths
    (tryAll k argv envp paths seenEacces c).child.calls
        = c.calls ++ attempts.map (fun t => .execve t.1 argv envp) ∧
      (tryAll k argv envp paths seenEacces c).errno
        = searchErrno seenEacces c.errno (attempts.map (·.2)) := by
  induction paths generalizing seenEacces c with
  | nil => exact ⟨(List.append_nil _).symm, rfl⟩
  | cons path rest ih =>
      rw [tryAll, tried_cons]
      unfold execve
      cases hans : k.execve c.calls path with
      | none => exact ⟨rfl, rfl⟩
      | some e =>
          dsimp only
          cases hkeep : keepsSearching e.val with
          | false =>
              have hend : endsSearch (some e) = true := by simp [endsSearch, hkeep]
              rw [if_neg (by decide), if_pos hend]
              refine ⟨rfl, ?_⟩
              show some e.val = searchErrno seenEacces c.errno [some e]
              simp [searchErrno, hkeep]
          | true =>
              have hend : ¬ endsSearch (some e) = true := by simp [endsSearch, hkeep]
              rw [if_pos rfl, if_neg hend]
              obtain ⟨hcalls, herrno⟩ := ih (seenEacces || decide (e.val = Errno.EACCES.val))
                { c.log (.execve path argv envp) with errno := e.val }
              refine ⟨?_, ?_⟩
              · rw [hcalls, List.map_cons]
                show c.calls ++ [_] ++ _ = _
                rw [List.append_assoc, List.singleton_append]
                rfl
              · rw [herrno, List.map_cons, searchErrno_cons hkeep]
                rfl

/-! ## The buffer -/

theorem length_poke {b : List UInt8} (i : Nat) (bs : List UInt8) (h : i + bs.length ≤ b.length) :
    (poke b i bs).length = b.length := by
  unfold poke
  simp only [List.length_append, List.length_take, List.length_drop]
  omega

/-- No write of a candidate leaves the buffer: each would make it longer. -/
theorem length_candidateBuffer {l : Nat} {element : List UInt8} (h : element.length < l)
    (k : Kernel) (file : CString) :
    (candidateBuffer (stackBuffer k (l + file.bytes.length + 1)) element file).length
      = l + file.bytes.length + 1 := by
  have hstack : (stackBuffer k (l + file.bytes.length + 1)).length = l + file.bytes.length + 1 := by
    simp [stackBuffer]
  unfold candidateBuffer
  have helem := length_poke 0 element
    (show 0 + element.length ≤ (stackBuffer k (l + file.bytes.length + 1)).length by omega)
  rw [hstack] at helem
  have hslash := length_poke element.length [slash]
    (show _ ≤ (poke (stackBuffer k (l + file.bytes.length + 1)) 0 element).length by
      rw [helem, List.length_singleton]
      omega)
  rw [helem] at hslash
  dsimp only
  rw [length_poke, hslash]
  rw [hslash, List.length_append, List.length_singleton]
  split <;> omega

/-- The candidate for an element of a `PATH` string is not cut short by a terminator. -/
theorem candidate_bytes {path : CString} {l : Nat} {element : List UInt8}
    (h : element ∈ elements l path.bytes) (file : CString) :
    (candidate file element).bytes
      = if element = [] then file.bytes else element ++ slash :: file.bytes := by
  have hnonul : 0 ∉ if element = [] then file.bytes else element ++ slash :: file.bytes := by
    split
    · exact file.nonul
    · intro hzero
      rcases List.mem_append.mp hzero with hzero | hzero
      · exact nonul_of_mem_elements path.nonul h hzero
      rcases List.mem_cons.mp hzero with hzero | hzero
      · exact absurd hzero (by decide)
      · exact file.nonul hzero
  exact congrArg CString.bytes (CString.ofBuffer_bytes ⟨_, hnonul⟩)

/-- **`__execvpe` searches `PATH`**: it tries the candidates in order up to the first that is
executed or fails fatally, and puts each together inside its buffer. -/
theorem execvpe_searches (k : Kernel) (path : Option CString) (file : CString) (argv : Argv)
    (envp : Envp) (c : Child) (hne : file.bytes ≠ []) (hslash : slash ∉ file.bytes)
    (hlen : file.bytes.length ≤ NAME_MAX) :
    let path' := path.getD defaultPath
    let l := elementLimit path'
    let attempts := tried k argv envp c.calls (candidates file path')
    let r := execvpe path k file argv envp c
    r.child.calls = c.calls ++ attempts.map (fun t => .execve t.1 argv envp) ∧
      r.errno = searchErrno false Errno.ENOENT.val (attempts.map (·.2)) ∧
      ∀ element ∈ elements l path'.bytes,
        (candidate file element).bytes
            = (if element = [] then file.bytes else element ++ slash :: file.bytes) ∧
          (candidate file element).bytes.length + 1 ≤ l + file.bytes.length + 1 ∧
          (candidateBuffer (stackBuffer k (l + file.bytes.length + 1)) element file).length
            = l + file.bytes.length + 1 := by
  intro path' l attempts r
  have hrun := execvpe_eq_tryAll k hne hslash hlen path argv envp c
  obtain ⟨hcalls, herrno⟩ := tryAll_tried k argv envp (candidates file path') false
    { c with errno := Errno.ENOENT.val }
  refine ⟨?_, ?_, fun element helem => ?_⟩
  · show (execvpe path k file argv envp c).child.calls = _
    rw [hrun]
    exact hcalls
  · show (execvpe path k file argv envp c).errno = _
    rw [hrun]
    exact herrno
  · have hshort : element.length < l := by simpa using (List.mem_filter.mp helem).2
    have hbytes := candidate_bytes helem file
    refine ⟨hbytes, ?_, length_candidateBuffer hshort k file⟩
    rw [hbytes]
    split
    · omega
    · rw [List.length_append, List.length_cons]
      omega

/-- A kernel on which nothing can be executed: absolute paths are refused, others do not exist. -/
def deniedKernel : Kernel where
  sysPipe2 := .error .EPERM
  pipe := .error .EPERM
  clone := .error .EPERM
  execve _ path := some (if path.bytes.head? = some slash then .EACCES else .ENOENT)
  writeFails := 0
  unblockable := 0
  stale _ := 255

/-- With `PATH=/bin:` the file `x` is tried as `/bin/x` and as `x`; the refusal is reported. -/
theorem execvpe_searches_denied :
    (execvpe (some ⟨[47, 98, 105, 110, 58], by decide⟩) deniedKernel ⟨[120], by decide⟩ [] []
      ⟨[], 0, 0, []⟩).errno = some Errno.EACCES.val := by
  have h := execvpe_searches deniedKernel (some ⟨[47, 98, 105, 110, 58], by decide⟩)
    ⟨[120], by decide⟩ [] [] ⟨[], 0, 0, []⟩ (by decide) (by decide) (by decide)
  exact h.2.1.trans (by decide)

end LdbToolchain.Spawn
