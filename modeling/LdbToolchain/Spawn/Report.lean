import LdbToolchain.Spawn.PosixSpawn

/-!
# What `posix_spawn` reports

The outcome of a call is decided by three steps: making the pipe, cloning, and the child's `execve`.
`stepFailure` says which of them failed and with what error, and `Reports` is what a caller may then
rely on. The code reports a failed pipe and a failed `execve` as they are, but takes the error of a
failed `clone` from its return value, -1, where the C library puts it in `errno`; so the caller is
told `EPERM`, and `posixSpawn_reports_iff` says that this is the only thing that goes wrong.
-/

namespace LdbToolchain.Spawn

open LdbToolchain

variable {k : Kernel} {s : Parent} {ends : PipeEnds} {t : FdTable}

/-! ## The pipe -/

/-- How making a pipe ends, by `SYS_pipe2` or by the fallback of an old kernel. -/
def pipeOutcome (k : Kernel) : Except Errno PipeEnds :=
  match k.sysPipe2 with
  | .ok ends => .ok ends
  | .error e => if e = Errno.ENOSYS then k.pipe else .error e

theorem FdTable.setCloexec_of_unused {fd : Int} (h : ∀ x ∈ t, x.fd ≠ fd) :
    t.setCloexec fd = t := by
  unfold FdTable.setCloexec
  conv_rhs => rw [← List.map_id t]
  exact List.map_congr_left fun x hx => if_neg (h x hx)

theorem FdTable.close_of_unused {fd : Int} (h : ∀ x ∈ t, x.fd ≠ fd) : t.close fd = t := by
  unfold FdTable.close
  rw [List.filter_eq_self]
  intro x hx
  simpa using h x hx

theorem FdTable.setCloexec_addPipe (h : ends.Fresh t) :
    ((t.addPipe ends false false).setCloexec ends.rd).setCloexec ends.wr
      = t.addPipe ends true false := by
  have hrd := FdTable.setCloexec_of_unused h.rd_unused
  have hwr := FdTable.setCloexec_of_unused h.wr_unused
  unfold FdTable.setCloexec at hrd hwr
  simp only [FdTable.addPipe, FdTable.setCloexec, List.map_append, List.map_cons, List.map_nil,
    hrd, hwr, if_pos, if_neg h.ne, if_neg (Ne.symm h.ne)]

theorem FdTable.close_addPipe (h : ends.Fresh t) (cloexec nonblock : Bool) :
    ((t.addPipe ends cloexec nonblock).close ends.wr).close ends.rd = t := by
  have hrd := FdTable.close_of_unused h.rd_unused
  have hwr := FdTable.close_of_unused h.wr_unused
  unfold FdTable.close at hrd hwr
  simp only [FdTable.addPipe, FdTable.close, List.filter_append, hwr, hrd]
  simp [h.ne]

/-- **`pipe2` with `O_CLOEXEC`**: an error goes to `errno`, else both ends are close-on-exec. -/
theorem pipe2_cloexec (k : Kernel) (s : Parent)
    (hfresh : ∀ ends, pipeOutcome k = .ok ends → ends.Fresh s.fds) :
    pipe2 k O_CLOEXEC s =
      match pipeOutcome k with
      | .error e => (-1, none, { s with errno := e.val })
      | .ok ends => (0, some ends, { s with fds := s.fds.addPipe ends true false }) := by
  have hflag : O_CLOEXEC &&& O_CLOEXEC ≠ 0 := by decide
  have hblock : ¬ O_CLOEXEC &&& O_NONBLOCK ≠ 0 := by decide
  unfold pipeOutcome at hfresh ⊢
  unfold pipe2
  rw [if_neg (by decide : ¬ O_CLOEXEC = 0)]
  cases hsys : k.sysPipe2 with
  | ok ends =>
      have hret : rawResult (Except.map (fun _ => 0) (.ok ends : Except Errno PipeEnds)) = 0 := rfl
      have hsyscall : syscallRet (BitVec.ofInt 64 0) s.errno = (0, s.errno) :=
        syscallRet_ok (by decide) (by decide) s.errno
      simp only [hret, if_pos (by decide : (0 : Int) ≠ -Errno.ENOSYS.val), hsyscall]
      rfl
  | error e =>
      have hret : rawResult (Except.map (fun _ => 0) (.error e : Except Errno PipeEnds))
          = -e.val := rfl
      simp only [hret, hsys] at hfresh ⊢
      by_cases he : e = Errno.ENOSYS
      · -- an old kernel, where `pipe` and two calls of `fcntl` do the same
        subst he
        simp only [ne_eq, not_true_eq_false, if_false, if_true] at hfresh ⊢
        unfold pipe
        cases hpipe : k.pipe with
        | error e => rfl
        | ok ends =>
            have h := FdTable.setCloexec_addPipe (hfresh ends hpipe)
            simp only [if_pos hflag, if_neg hblock, h]
      · have hne : -e.val ≠ -Errno.ENOSYS.val := fun h =>
          he (Errno.val_injective (Int.neg_inj.mp h))
        simp only [if_pos hne, if_neg he, syscallRet_error]

/-! ## The write end

Once the parent has closed its copy, nobody but the child holds the write end, and a child that
replaced its image has lost it. So the parent's `read` never blocks. -/

theorem holds_close_addPipe (h : ends.Fresh t) :
    ((t.addPipe ends true false).close ends.wr).holds ends.wrFile = false := by
  have hold : ∀ x ∈ t, x.file ≠ ends.wrFile := h.wr_new
  simp only [FdTable.holds, FdTable.close, FdTable.addPipe, List.any_eq_false, List.mem_filter,
    List.mem_append, List.mem_cons, List.not_mem_nil, or_false, decide_eq_true_eq]
  rintro x ⟨hx | rfl | rfl, hne⟩
  · exact hold x hx
  · exact h.files_ne
  · exact absurd rfl hne

theorem holds_exec_addPipe (h : ends.Fresh t) :
    (((t.addPipe ends true false).close ends.rd).setCloexec ends.wr).exec.holds ends.wrFile
      = false := by
  have hold : ∀ x ∈ t, x.file ≠ ends.wrFile := h.wr_new
  simp only [FdTable.holds, FdTable.exec, FdTable.setCloexec, FdTable.close, FdTable.addPipe,
    List.any_eq_false, List.mem_filter, List.mem_map, List.mem_append, List.mem_cons,
    List.not_mem_nil, or_false, decide_eq_true_eq]
  rintro x ⟨⟨y, ⟨hy | rfl | rfl, hne⟩, rfl⟩, hcloexec⟩
  · split <;> exact hold y hy
  · exact absurd rfl hne
  · simp at hcloexec

/-! ## The child -/

/-- The calls the child makes before `exec`. -/
def setupCalls (args : Args) : List ChildCall :=
  [.close args.rd, .setCloexec args.wr,
    .sigmask (if args.attr.setsSigmask then args.attr.ss else args.oldmask)]

theorem calls_childSetup (k : Kernel) (args : Args) (s : Parent) :
    (childSetup k args s.fork).calls = setupCalls args := rfl

/-- A child that runs `execve`: either its image is replaced and the pipe stays empty, or the pipe
holds the error. -/
theorem child_execve (k : Kernel) (args : Args) (s : Parent) (hexec : args.exec = execve) :
    match k.execve (setupCalls args) args.path with
    | none => (child k args s.fork).execed = true ∧ (child k args s.fork).pipe = [] ∧
        (child k args s.fork).child.fds = ((s.fds.close args.rd).setCloexec args.wr).exec
    | some e => (child k args s.fork).execed = false ∧ (child k args s.fork).pipe = [e.val] := by
  unfold child
  rw [hexec]
  unfold execve
  rw [calls_childSetup]
  cases k.execve (setupCalls args) args.path with
  | none => exact ⟨rfl, rfl, rfl⟩
  | some e =>
      have hne : - -e.val ≠ 0 := by have := e.pos; omega
      simp only [if_pos hne]
      exact ⟨trivial, by rw [Int.neg_neg]⟩

/-! ## The report -/

/-- The arguments handed to the child by `posix_spawn`. -/
def spawnArgs (stale : Args) (ends : PipeEnds) (path : CString) (fa : Option Recorder)
    (attr : Option SpawnAttr) (argv : Argv) (envp : Envp) : Args :=
  { stale with
    rd := ends.rd, wr := ends.wr
    path, exec := execve, fa
    attr := attr.getD .zero
    argv, envp }

/-- The error of the first step that failed: the pipe, `clone`, or the child's `execve`. -/
def stepFailure (k : Kernel) (args : PipeEnds → Args) : Option Errno :=
  match pipeOutcome k with
  | .error e => some e
  | .ok ends =>
      match k.clone with
      | .error e => some e
      | .ok _ => k.execve (setupCalls (args ends)) (args ends).path

/-- The outcome `o` of a call from `s` reports `failure` exactly. -/
structure Reports (k : Kernel) (failure : Option Errno) (res : Bool) (s : Parent) (o : Outcome) :
    Prop where
  /-- Success: 0 is returned and the child's pid stored. -/
  success : failure = none →
    o.ret = 0 ∧ (res = true → ∃ pid, k.clone = .ok pid ∧ o.parent.res = pid.val)
  /-- Failure: the error is returned, `*res` kept, and a child that was created waited for. -/
  failed : ∀ e, failure = some e → o.ret = e.val ∧ o.parent.res = s.res ∧
    (o.child.isSome = true → ∃ pid, k.clone = .ok pid ∧ pid.val ∈ o.parent.reaped)
  /-- The parent's descriptors are what they were: both ends of the pipe are closed. -/
  fds : o.parent.fds = s.fds
  cancelState : o.parent.cancelState = s.cancelState

/-- A child was created and its image replaced. -/
def Outcome.Execed (o : Outcome) : Prop := ∃ c, o.child = some c ∧ c.execed = true

/-- What is left to do in the parent once there is a child. -/
theorem afterClone_ok {pid : Pid} (hclone : k.clone = .ok pid) (hfresh : ends.Fresh t)
    (hfds : s.fds = t.addPipe ends true false) {args : Args} (hexec : args.exec = execve)
    (hrd : args.rd = ends.rd) (hwr : args.wr = ends.wr) (res : Bool) (cs : Int) :
    afterClone k res ends cs args s =
      match k.execve (setupCalls args) args.path with
      | none => some ⟨0,
          { s with
            errno := (child k args s.fork).child.errno
            fds := t
            res := if res then pid.val else s.res
            cancelState := cs }, some (child k args s.fork)⟩
      | some e => some ⟨e.val,
          { s with
            errno := (child k args s.fork).child.errno
            fds := t
            reaped := s.reaped ++ [pid.val]
            cancelState := cs }, some (child k args s.fork)⟩ := by
  have hchild := child_execve k args s hexec
  have hclosed : (s.fds.close ends.wr).close ends.rd = t := by
    rw [hfds, FdTable.close_addPipe hfresh]
  unfold afterClone
  simp only [hclone, hclosed]
  cases hfail : k.execve (setupCalls args) args.path with
  | none =>
      simp only [hfail] at hchild
      obtain ⟨-, hempty, hchildfds⟩ := hchild
      have hparent : (s.fds.close ends.wr).holds ends.wrFile = false := by
        rw [hfds, holds_close_addPipe hfresh]
      have hlost : (child k args s.fork).holds ends.wrFile = false := by
        unfold ChildEnd.holds
        rw [hchildfds, hfds, hrd, hwr, holds_exec_addPipe hfresh, Bool.and_false]
      simp only [hempty, hparent, hlost]
      simp
  | some e =>
      simp only [hfail] at hchild
      have hne : e.val ≠ 0 := by have := e.pos; omega
      simp only [hchild.2, hne, false_and, if_false]

/-- The parent at the call of `clone`: the pipe is made and cancellation disabled. -/
def Parent.atClone (s : Parent) (ends : PipeEnds) : Parent :=
  { s with fds := s.fds.addPipe ends true false, cancelState := PTHREAD_CANCEL_DISABLE }

/-- **The run with a child.** Once the pipe and the child are there, the call returns, the child ran
`child` to its end, and 0 is returned exactly when its `execve` succeeded. -/
theorem posixSpawn_cloned {pid : Pid} (hpipe : pipeOutcome k = .ok ends)
    (hclone : k.clone = .ok pid) (hfresh : ends.Fresh s.fds) (stale : Args) (res : Bool)
    (path : CString) (fa : Option Recorder) (attr : Option SpawnAttr) (argv : Argv) (envp : Envp) :
    ∃ o, posixSpawn k stale res path fa attr argv envp s = some o ∧
      o.child = some (child k (spawnArgs stale ends path fa attr argv envp)
        (s.atClone ends).fork) ∧
      (o.ret = 0 ↔
        k.execve (setupCalls (spawnArgs stale ends path fa attr argv envp)) path = none) := by
  have hpipe2 := pipe2_cloexec k s fun ends' h => by
    rw [hpipe] at h
    cases h
    exact hfresh
  unfold posixSpawn posixSpawnx
  rw [hpipe2, hpipe]
  show ∃ o, afterClone k res ends s.cancelState (spawnArgs stale ends path fa attr argv envp)
    (s.atClone ends) = some o ∧ _
  rw [afterClone_ok hclone hfresh rfl rfl rfl rfl]
  show ∃ o, (match k.execve (setupCalls (spawnArgs stale ends path fa attr argv envp)) path with
    | none => _
    | some e => _) = some o ∧ _
  cases hexec : k.execve (setupCalls (spawnArgs stale ends path fa attr argv envp)) path with
  | none => exact ⟨_, rfl, rfl, iff_of_true rfl rfl⟩
  | some e =>
      have hne : e.val ≠ 0 := by have := e.pos; omega
      exact ⟨_, rfl, rfl, iff_of_false hne (by simp)⟩

/-- Once there is a child, the report is exact. -/
theorem afterClone_reports {pid : Pid} (hclone : k.clone = .ok pid) (hfresh : ends.Fresh s.fds)
    (stale : Args) (res : Bool) (path : CString) (fa : Option Recorder) (attr : Option SpawnAttr)
    (argv : Argv) (envp : Envp) :
    ∃ o, afterClone k res ends s.cancelState (spawnArgs stale ends path fa attr argv envp)
        (s.atClone ends) = some o ∧
      (k.execve (setupCalls (spawnArgs stale ends path fa attr argv envp)) path = none ↔ o.Execed) ∧
      Reports k (k.execve (setupCalls (spawnArgs stale ends path fa attr argv envp)) path) res s
        o := by
  have hchild := child_execve k (spawnArgs stale ends path fa attr argv envp) (s.atClone ends) rfl
  rw [afterClone_ok hclone hfresh rfl rfl rfl rfl]
  cases hexec : k.execve (setupCalls (spawnArgs stale ends path fa attr argv envp)) path with
  | none =>
      simp only [spawnArgs] at hexec hchild ⊢
      simp only [hexec] at hchild ⊢
      refine ⟨_, rfl, iff_of_true trivial ⟨_, rfl, hchild.1⟩, ?_, by simp, rfl, rfl⟩
      intro _
      exact ⟨rfl, fun hres => ⟨pid, hclone, by simp [hres]⟩⟩
  | some e =>
      simp only [spawnArgs] at hexec hchild ⊢
      simp only [hexec] at hchild ⊢
      refine ⟨_, rfl, iff_of_false (by simp) ?_, by simp, ?_, rfl, rfl⟩
      · rintro ⟨c, hc, hexeced⟩
        cases hc
        rw [hchild.1] at hexeced
        cases hexeced
      · rintro e' he'
        cases he'
        exact ⟨rfl, rfl, fun _ => ⟨pid, hclone, by simp⟩⟩

/-- **When `posix_spawn` reports exactly.** It always returns; no step failed exactly when the
child's `exec` succeeded; and the report is exact unless the pipe was made and `clone` failed with
an error other than `EPERM`. -/
theorem posixSpawn_reports_iff (k : Kernel) (stale : Args) (res : Bool) (path : CString)
    (fa : Option Recorder) (attr : Option SpawnAttr) (argv : Argv) (envp : Envp) (s : Parent)
    (hfresh : ∀ ends, pipeOutcome k = .ok ends → ends.Fresh s.fds) :
    ∃ o, posixSpawn k stale res path fa attr argv envp s = some o ∧
      (stepFailure k (spawnArgs stale · path fa attr argv envp) = none ↔ o.Execed) ∧
      (Reports k (stepFailure k (spawnArgs stale · path fa attr argv envp)) res s o ↔
        ¬ ∃ ends e, pipeOutcome k = .ok ends ∧ k.clone = .error e ∧ e ≠ Errno.EPERM) := by
  unfold posixSpawn posixSpawnx stepFailure
  rw [pipe2_cloexec k s hfresh]
  cases hpipe : pipeOutcome k with
  | error e =>
      refine ⟨_, rfl, ?_, ?_⟩
      · simp [Outcome.Execed]
      · refine iff_of_true ⟨by simp, ?_, rfl, rfl⟩ (by simp)
        rintro e' he'
        cases he'
        exact ⟨rfl, rfl, by simp⟩
  | ok ends =>
      have hf := hfresh ends hpipe
      have hclosed := FdTable.close_addPipe hf true false
      cases hclone : k.clone with
      | error e =>
          simp only [afterClone, hclone]
          refine ⟨_, rfl, by simp [Outcome.Execed], ?_⟩
          constructor
          · -- the caller is told 1
            rintro h ⟨ends', e', -, he', hne⟩
            cases he'
            obtain ⟨hret, -⟩ := h.failed e rfl
            exact hne (Errno.val_injective hret.symm)
          · intro h
            have he : e = Errno.EPERM := by
              by_contra hne
              exact h ⟨ends, e, rfl, rfl, hne⟩
            refine ⟨by simp, ?_, hclosed, rfl⟩
            rintro e' he'
            cases he'
            exact ⟨he ▸ rfl, by simp, by simp⟩
      | ok pid =>
          obtain ⟨o, hrun, hexeced, hreports⟩ := afterClone_reports hclone hf stale res path fa attr
            argv envp
          exact ⟨o, hrun, hexeced, iff_of_true hreports (by simp)⟩

/-! ### Two runs -/

def Errno.EAGAIN : Errno := ⟨11, by decide, by decide⟩

/-- A parent with no descriptor open. -/
def quietParent : Parent where
  fds := []
  sigmask := 0
  cancelState := 0
  errno := 0
  reaped := []
  res := 0

/-- A kernel on which everything works, but for the files that cannot be executed. -/
def kernelRefusing (execve : List ChildCall → CString → Option Errno) : Kernel where
  sysPipe2 := .ok ⟨3, 4, 0, 1⟩
  pipe := .ok ⟨3, 4, 0, 1⟩
  clone := .ok ⟨7, by decide⟩
  execve
  writeFails := 0
  unblockable := 0
  stale _ := 0

theorem pipeOutcome_kernelRefusing (execve : List ChildCall → CString → Option Errno) :
    pipeOutcome (kernelRefusing execve) = .ok ⟨3, 4, 0, 1⟩ := rfl

theorem clone_kernelRefusing (execve : List ChildCall → CString → Option Errno) :
    (kernelRefusing execve).clone = .ok ⟨7, by decide⟩ := rfl

theorem quietParent_fresh : (⟨3, 4, 0, 1⟩ : PipeEnds).Fresh quietParent.fds :=
  ⟨by decide, by decide, by decide, by decide, by decide⟩

/-- `/x`. -/
def someFile : CString := ⟨[47, 120], by decide⟩

/-- A stack frame that held zeros. -/
def zeroArgs : Args where
  rd := 0
  wr := 0
  oldmask := 0
  path := someFile
  exec := execve
  fa := none
  attr := .zero
  argv := []
  envp := []

/-- A file that does not exist is reported as such. -/
theorem posixSpawn_reports_missing :
    ∃ o, posixSpawn (kernelRefusing fun _ _ => some Errno.ENOENT) zeroArgs true someFile none none
        [] [] quietParent = some o ∧
      Reports (kernelRefusing fun _ _ => some Errno.ENOENT) (some Errno.ENOENT) true quietParent
        o := by
  obtain ⟨o, hrun, -, hiff⟩ := posixSpawn_reports_iff
    (kernelRefusing fun _ _ => some Errno.ENOENT) zeroArgs true someFile none none [] [] quietParent
    (by
      intro ends h
      cases h
      exact quietParent_fresh)
  refine ⟨o, hrun, hiff.mpr ?_⟩
  rintro ⟨ends, e, -, h, -⟩
  cases h

/-- A kernel that can start no more processes. -/
def crowdedKernel : Kernel :=
  { kernelRefusing (fun _ _ => none) with clone := .error Errno.EAGAIN }

/-- Where `clone` fails with `EAGAIN`, the caller is told 1, which is `EPERM`. -/
theorem posixSpawn_misreports_clone :
    ∃ o, posixSpawn crowdedKernel zeroArgs true someFile none none [] [] quietParent = some o ∧
      stepFailure crowdedKernel (spawnArgs zeroArgs · someFile none none [] [])
        = some Errno.EAGAIN ∧
      o.ret = 1 ∧
      ¬ Reports crowdedKernel (some Errno.EAGAIN) true quietParent o := by
  refine ⟨_, rfl, rfl, rfl, fun h => ?_⟩
  have hret := (h.failed Errno.EAGAIN rfl).1
  revert hret
  decide

end LdbToolchain.Spawn
