import LdbToolchain.Spawn.Report
import LdbToolchain.Spawn.Search

/-!
# `posix_spawnp` and PATH

`posix_spawnp` puts `__execvpe` into the field `__fn` of the attributes. `posix_spawn` does not look
at that field and always runs `execve`, so the child makes one attempt, at the file name as it was
given. `posixSpawnp_searches_iff` says for which inputs a search of `PATH` would have done the same.
-/

namespace LdbToolchain.Spawn

variable {k : Kernel} {s : Parent} {ends : PipeEnds}

theorem attempts_writeLoop (fd ret : Int) (n : Nat) (c : Child) :
    (writeLoop fd ret n c).attempts = c.attempts := by
  have hwrite : ∀ c : Child, (c.log (.write fd ret)).attempts = c.attempts := by
    intro c
    unfold Child.attempts Child.log
    rw [List.filterMap_append]
    exact List.append_nil _
  induction n generalizing c with
  | zero => exact hwrite c
  | succ n ih =>
      unfold writeLoop
      rw [ih, hwrite]

/-- A child that runs `execve` makes one attempt. -/
theorem attempts_child (k : Kernel) (args : Args) (hexec : args.exec = execve) (s : Parent) :
    (child k args s.fork).child.attempts = [args.path] := by
  have hattempt := attempts_execve k args.path args.argv args.envp (childSetup k args s.fork)
  have hsetup : (childSetup k args s.fork).attempts = [] := rfl
  have hexit : ∀ c : Child, (c.log (.exit 127)).attempts = c.attempts := by
    intro c
    unfold Child.attempts Child.log
    rw [List.filterMap_append]
    exact List.append_nil _
  rw [hsetup, List.nil_append] at hattempt
  unfold child
  rw [hexec]
  cases hresult : execve k args.path args.argv args.envp (childSetup k args s.fork) with
  | replaced c =>
      rw [hresult] at hattempt
      exact hattempt
  | returned c =>
      rw [hresult] at hattempt
      dsimp only
      split
      · rw [hexit, attempts_writeLoop]
        exact hattempt
      · rw [hexit]
        exact hattempt

/-! ## When a search makes the same attempt -/

/-- What a search of `path` for `file` tries is `file` alone: the name passes the checks, the first
element that is not too long is empty, and it is the only one or the attempt ends the search. -/
def SearchTriesFile (k : Kernel) (calls : List ChildCall) (path file : CString) : Prop :=
  file.bytes ≠ [] ∧ file.bytes.length ≤ NAME_MAX ∧
  ∃ rest, elements (elementLimit path) path.bytes = [] :: rest ∧
    (rest = [] ∨ ∀ e, k.execve calls file = some e → keepsSearching e.val = false)

theorem candidate_eq_file_iff {file : CString} (hslash : slash ∉ file.bytes)
    {element : List UInt8} (hnonul : 0 ∉ element) : candidate file element = file ↔ element = [] := by
  constructor
  · intro h
    by_contra hne
    have hbytes : (element ++ slash :: file.bytes).takeWhile (· ≠ 0) = file.bytes := by
      unfold candidate at h
      rw [if_neg hne] at h
      exact congrArg CString.bytes h
    have hall : ∀ x ∈ element ++ slash :: file.bytes, decide (x ≠ 0) = true := by
      intro x hx
      rw [decide_eq_true_eq]
      rintro rfl
      rcases List.mem_append.mp hx with hx | hx
      · exact hnonul hx
      · rcases List.mem_cons.mp hx with hx | hx
        · exact absurd hx (by decide)
        · exact file.nonul hx
    rw [List.takeWhile_eq_self_iff.mpr hall] at hbytes
    apply hslash
    rw [← hbytes]
    exact List.mem_append_right element (List.mem_cons_self ..)
  · rintro rfl
    exact candidate_nil file

/-- A search makes one attempt, at `file`, when its first path is `file` and either there is no
other or the attempt ends the search. -/
theorem attempts_tryAll_eq_singleton_iff (k : Kernel) (argv : Argv) (envp : Envp)
    (paths : List CString) (c : Child) (file : CString) :
    (tryAll k argv envp paths false c).child.attempts = c.attempts ++ [file] ↔
      ∃ rest, paths = file :: rest ∧
        (rest = [] ∨ ∀ e, k.execve c.calls file = some e → keepsSearching e.val = false) := by
  cases paths with
  | nil =>
      show c.attempts = _ ↔ _
      simp
  | cons path rest =>
      have hattempt := attempts_execve k path argv envp c
      unfold tryAll
      unfold execve at hattempt ⊢
      cases hexec : k.execve c.calls path with
      | none =>
          rw [hexec] at hattempt
          rw [hattempt, List.append_cancel_left_eq, List.singleton_inj]
          constructor
          · rintro rfl
            exact ⟨rest, rfl, .inr (by simp [hexec])⟩
          · rintro ⟨rest', h, -⟩
            exact (List.cons_eq_cons.mp h).1
      | some e =>
          rw [hexec] at hattempt
          dsimp only
          by_cases hkeeps : keepsSearching e.val = true
          · obtain ⟨tried, htried, -, hnil⟩ := attempts_tryAll k argv envp rest
              (false || e.val = Errno.EACCES.val)
              { c.log (.execve path argv envp) with errno := e.val }
            change Child.attempts { c.log (.execve path argv envp) with errno := e.val } = _
              at hattempt
            rw [if_pos hkeeps, htried, hattempt, List.append_assoc, List.append_cancel_left_eq,
              List.singleton_append, List.cons_eq_cons, hnil]
            constructor
            · rintro ⟨rfl, rfl⟩
              exact ⟨[], rfl, .inl rfl⟩
            · rintro ⟨rest', h, hend⟩
              obtain ⟨rfl, rfl⟩ := List.cons_eq_cons.mp h
              refine ⟨rfl, hend.resolve_right fun hfatal => ?_⟩
              rw [hfatal e hexec] at hkeeps
              cases hkeeps
          · rw [if_neg hkeeps]
            change Child.attempts { c.log (.execve path argv envp) with errno := e.val } = _ ↔ _
            change Child.attempts { c.log (.execve path argv envp) with errno := e.val } = _
              at hattempt
            rw [hattempt, List.append_cancel_left_eq, List.singleton_inj]
            constructor
            · rintro rfl
              refine ⟨rest, rfl, .inr fun e' he' => ?_⟩
              rw [hexec] at he'
              cases he'
              simpa using hkeeps
            · rintro ⟨rest', h, -⟩
              exact (List.cons_eq_cons.mp h).1

/-- A search that makes one attempt succeeds exactly when the attempt does. -/
theorem succeeded_tryAll_singleton (k : Kernel) (argv : Argv) (envp : Envp) (file : CString)
    (rest : List CString) (c : Child)
    (hend : rest = [] ∨ ∀ e, k.execve c.calls file = some e → keepsSearching e.val = false) :
    (tryAll k argv envp (file :: rest) false c).succeeded = true ↔
      k.execve c.calls file = none := by
  unfold tryAll
  unfold execve
  cases hexec : k.execve c.calls file with
  | none => exact iff_of_true rfl rfl
  | some e =>
      refine iff_of_false ?_ (by simp)
      rcases hend with rfl | hfatal
      · dsimp only
        split <;> simp [tryAll, searchFailed, ExecResult.succeeded]
      · simp [hfatal e hexec, ExecResult.succeeded]

/-- **When `__execvpe` makes the one attempt `file`.** -/
theorem attempts_execvpe_eq_singleton_iff (k : Kernel) {file : CString}
    (hslash : slash ∉ file.bytes) (path : Option CString) (argv : Argv) (envp : Envp) (c : Child) :
    (execvpe path k file argv envp c).child.attempts = c.attempts ++ [file] ↔
      SearchTriesFile k c.calls (path.getD defaultPath) file := by
  by_cases hne : file.bytes = []
  · refine iff_of_false ?_ fun h => h.1 hne
    unfold execvpe
    simp only [if_pos hne]
    show c.attempts ≠ _
    simp
  by_cases hlen : file.bytes.length ≤ NAME_MAX
  · rw [execvpe_eq_tryAll k hne hslash hlen]
    show (tryAll k argv envp _ false { c with errno := Errno.ENOENT.val }).child.attempts
      = Child.attempts { c with errno := Errno.ENOENT.val } ++ [file] ↔ _
    rw [attempts_tryAll_eq_singleton_iff]
    -- the first candidate is `file` exactly when its element is empty
    have hnonul : ∀ element ∈ elements (elementLimit (path.getD defaultPath)) _, 0 ∉ element :=
      fun _ => nonul_of_mem_elements (path.getD defaultPath).nonul
    constructor
    · rintro ⟨rest, hcands, hend⟩
      obtain ⟨element, tail, helems, hfirst, htail⟩ := List.map_eq_cons_iff.mp hcands
      have hmem : element ∈ elements _ _ := helems ▸ List.mem_cons_self ..
      rw [candidate_eq_file_iff hslash (hnonul element hmem)] at hfirst
      refine ⟨hne, hlen, tail, hfirst ▸ helems, hend.imp_left fun hrest => ?_⟩
      rw [hrest, List.map_eq_nil_iff] at htail
      exact htail
    · rintro ⟨-, -, rest, helems, hend⟩
      refine ⟨rest.map (candidate file), ?_, hend.imp_left fun hrest => ?_⟩
      · unfold candidates
        rw [helems, List.map_cons, candidate_nil]
      · rw [hrest, List.map_nil]
  · refine iff_of_false ?_ fun h => hlen h.2.1
    have hmin : min file.bytes.length (NAME_MAX + 1) > NAME_MAX := by omega
    unfold execvpe
    simp only [if_neg hne, if_neg hslash, if_pos hmin]
    show c.attempts ≠ _
    simp

/-- Then it succeeds exactly when that attempt does. -/
theorem succeeded_execvpe_of_triesFile {k : Kernel} {file : CString} {path : Option CString}
    {c : Child} (hslash : slash ∉ file.bytes)
    (h : SearchTriesFile k c.calls (path.getD defaultPath) file) (argv : Argv) (envp : Envp) :
    (execvpe path k file argv envp c).succeeded = true ↔ k.execve c.calls file = none := by
  obtain ⟨hne, hlen, rest, helems, hend⟩ := h
  rw [execvpe_eq_tryAll k hne hslash hlen]
  unfold candidates
  rw [helems, List.map_cons, candidate_nil]
  refine succeeded_tryAll_singleton k argv envp file _ _ (hend.imp_left fun hrest => ?_)
  rw [hrest, List.map_nil]

/-! ## The call -/

/-- The attributes `posix_spawnp` hands on. -/
def spawnpAttr (envPath : Option CString) (attr : Option SpawnAttr) : SpawnAttr :=
  { attr.getD .zero with fn := some (execvpe envPath) }

/-- **When `posix_spawnp` searches `PATH`.** For a name without a slash and a child that was created:
the child's attempts are those `__execvpe` makes in its place, and 0 is returned exactly when one of
them succeeds, if and only if `__execvpe` would try nothing but the name itself. -/
theorem posixSpawnp_searches_iff {pid : Pid} (hpipe : pipeOutcome k = .ok ends)
    (hclone : k.clone = .ok pid) (hfresh : ends.Fresh s.fds) (envPath : Option CString)
    (stale : Args) (res : Bool) {file : CString} (hslash : slash ∉ file.bytes)
    (fa : Option Recorder) (attr : Option SpawnAttr) (argv : Argv) (envp : Envp) :
    ∃ o c, posixSpawnp envPath k stale res file fa attr argv envp s = some o ∧ o.child = some c ∧
      let args := spawnArgs stale ends file fa (some (spawnpAttr envPath attr)) argv envp
      let search :=
        execvpe envPath k file argv envp (childSetup k args (s.atClone ends).fork)
      ((c.child.attempts = search.child.attempts ∧ (o.ret = 0 ↔ search.succeeded = true)) ↔
        SearchTriesFile k (setupCalls args) (envPath.getD defaultPath) file) := by
  obtain ⟨o, hrun, hchild, hret⟩ := posixSpawn_cloned hpipe hclone hfresh stale res file fa
    (some (spawnpAttr envPath attr)) argv envp
  refine ⟨o, _, hrun, hchild, ?_⟩
  intro args search
  have hone : (child k args (s.atClone ends).fork).child.attempts = [file] :=
    attempts_child k args rfl (s.atClone ends)
  -- the child makes one attempt, so the search has to make the same one
  have htries := attempts_execvpe_eq_singleton_iff k hslash envPath argv envp
    (childSetup k args (s.atClone ends).fork)
  rw [calls_childSetup] at htries
  rw [← htries]
  constructor
  · rintro ⟨hsame, -⟩
    exact hsame.symm.trans hone
  · intro hsearch
    refine ⟨hone.trans hsearch.symm, ?_⟩
    rw [hret, succeeded_execvpe_of_triesFile hslash (htries.mp hsearch)]
    rfl

/-! ### `PATH=/bin` -/

/-- `/bin`. -/
def binPath : CString := ⟨[47, 98, 105, 110], by decide⟩

/-- An empty `PATH`, which stands for the current directory. -/
def emptyPath : CString := .empty

/-- `x`. -/
def bareName : CString := ⟨[120], by decide⟩

/-- With an empty `PATH` the search tries the name itself. -/
theorem posixSpawnp_searches_emptyPath :
    ∃ o c, posixSpawnp (some emptyPath) (kernelRefusing fun _ _ => none) zeroArgs true bareName none
        none [] [] quietParent = some o ∧ o.child = some c ∧ c.child.attempts = [bareName] := by
  obtain ⟨o, c, hrun, hchild, hiff⟩ := posixSpawnp_searches_iff
    (pipeOutcome_kernelRefusing fun _ _ => none) (clone_kernelRefusing _) quietParent_fresh
    (some emptyPath) zeroArgs true (show slash ∉ bareName.bytes by decide) none none [] []
  have htries : ∀ calls, SearchTriesFile (kernelRefusing fun _ _ => none) calls emptyPath bareName :=
    fun _ => ⟨by decide, by decide, [], by decide, .inl rfl⟩
  refine ⟨o, c, hrun, hchild, (hiff.mpr (htries _)).1.trans ?_⟩
  exact (attempts_execvpe_eq_singleton_iff _ (by decide) (some emptyPath) [] [] _).mpr (htries _)

/-- `/bin/x`. -/
def binFile : CString := ⟨[47, 98, 105, 110, 47, 120], by decide⟩

/-- A kernel on which `/bin/x` can be executed and nothing else. -/
def binKernel : Kernel :=
  kernelRefusing fun _ path => if path = binFile then none else some Errno.ENOENT

/-- With `PATH=/bin` the search executes `/bin/x`, but the child tries `x` only and the caller is
told `ENOENT`. -/
theorem posixSpawnp_ignores_path :
    ∃ o c, posixSpawnp (some binPath) binKernel zeroArgs true bareName none none [] [] quietParent
        = some o ∧ o.child = some c ∧
      c.child.attempts = [bareName] ∧ o.ret = Errno.ENOENT.val ∧
      let args := spawnArgs zeroArgs ⟨3, 4, 0, 1⟩ bareName none
        (some (spawnpAttr (some binPath) none)) [] []
      let search := execvpe (some binPath) binKernel bareName [] []
        (childSetup binKernel args (quietParent.atClone ⟨3, 4, 0, 1⟩).fork)
      search.child.attempts = [binFile] ∧ search.succeeded = true := by
  refine ⟨_, _, rfl, rfl, rfl, rfl, ?_⟩
  intro args search
  have hsearch : search = _ := execvpe_eq_tryAll binKernel
    (show bareName.bytes ≠ [] by decide) (by decide) (by decide) (some binPath) [] [] _
  rw [hsearch]
  exact ⟨by decide, by decide⟩

end LdbToolchain.Spawn
