import LdbToolchain.Spawn.Report

/-!
# File actions in the child

The implementation is a deliberately limited one: `args->fa` is stored and never read, so recorded
actions are not performed. The calls of a child are known exactly, `calls_child`, and a call of
`posix_spawn` is the same whatever its file actions are, `posixSpawn_congr_fa`.
-/

namespace LdbToolchain.Spawn

/-- The calls the child makes once `execve` has returned with `errno` set to `e`. -/
def reportCalls (k : Kernel) (wr : Int) (e : Errno) : List ChildCall :=
  List.replicate (k.writeFails + 1) (.write wr e.val) ++ [.exit 127]

theorem calls_writeLoop (fd ret : Int) (n : Nat) (c : Child) :
    (writeLoop fd ret n c).calls = c.calls ++ List.replicate (n + 1) (.write fd ret) := by
  induction n generalizing c with
  | zero => rfl
  | succ n ih =>
      unfold writeLoop
      rw [ih, List.replicate_succ (n := n + 1)]
      show c.calls ++ [_] ++ _ = _
      rw [List.append_assoc, List.singleton_append]

/-- All calls of a child that runs `execve`. -/
theorem calls_child (k : Kernel) (args : Args) (hexec : args.exec = execve) (s : Parent) :
    (child k args s.fork).child.calls =
      setupCalls args ++ .execve args.path args.argv args.envp ::
        (k.execve (setupCalls args) args.path).elim [] (reportCalls k args.wr) := by
  unfold child
  rw [hexec]
  unfold execve
  rw [calls_childSetup]
  cases k.execve (setupCalls args) args.path with
  | none => rfl
  | some e =>
      have hne : - -e.val ≠ 0 := by have := e.pos; omega
      simp only [if_pos hne, Option.elim_some, reportCalls]
      show (writeLoop _ _ _ _).calls ++ [_] = _
      rw [calls_writeLoop, Int.neg_neg]
      show setupCalls args ++ [_] ++ _ ++ [_] = _
      rw [List.append_assoc, List.append_assoc, List.singleton_append]

/-- The file actions are not looked at. -/
theorem posixSpawn_congr_fa (k : Kernel) (stale : Args) (res : Bool) (path : CString)
    (fa fa' : Option Recorder) (attr : Option SpawnAttr) (argv : Argv) (envp : Envp) (s : Parent) :
    posixSpawn k stale res path fa attr argv envp s
      = posixSpawn k stale res path fa' attr argv envp s := rfl

/-- **Recorded actions are not performed.** Whatever was recorded, and in whatever order: the call
comes to what it comes to without file actions, and the calls of a child that was created are those
that set it up, one `execve`, and the report of its failure. -/
theorem posixSpawn_skips_actions {acts : List Action} {r : Recorder} (_hrec : Recorded acts r)
    (k : Kernel) (stale : Args) (res : Bool) (path : CString) (attr : Option SpawnAttr)
    (argv : Argv) (envp : Envp) (s : Parent) :
    posixSpawn k stale res path (some r) attr argv envp s
      = posixSpawn k stale res path none attr argv envp s ∧
    ∀ ends pid, pipeOutcome k = .ok ends → k.clone = .ok pid → ends.Fresh s.fds →
      ∃ o c mask,
        posixSpawn k stale res path (some r) attr argv envp s = some o ∧ o.child = some c ∧
        c.child.calls =
          [.close ends.rd, .setCloexec ends.wr, .sigmask mask] ++ .execve path argv envp ::
            (k.execve [.close ends.rd, .setCloexec ends.wr, .sigmask mask] path).elim []
              (reportCalls k ends.wr) := by
  refine ⟨posixSpawn_congr_fa k stale res path (some r) none attr argv envp s, ?_⟩
  intro ends pid hpipe hclone hfresh
  obtain ⟨o, hrun, hchild, -⟩ :=
    posixSpawn_cloned hpipe hclone hfresh stale res path (some r) attr argv envp
  refine ⟨o, _, if (attr.getD .zero).setsSigmask then (attr.getD .zero).ss else stale.oldmask,
    hrun, hchild, ?_⟩
  exact calls_child k (spawnArgs stale ends path (some r) attr argv envp) rfl (s.atClone ends)

/-! ### `dup2(3, 1)` -/

/-- What `malloc` returns: zeros. -/
def zeroNode : Fdop where
  next := none
  prev := none
  cmd := 0
  fd := 0
  srcfd := 0
  oflag := 0
  mode := 0
  path := .empty

/-- The file actions with `adddup2(&fa, 3, 1)`. -/
def dupRecorder : Recorder := (Recorder.adddup2 (some zeroNode) 3 1 (.init .empty)).2

theorem dupRecorder_recorded : Recorded [.dup2 3 1] dupRecorder :=
  .add (.dup2 3 1) (some zeroNode) (.init .empty) rfl

/-- The child of a call with one recorded `dup2`. -/
theorem posixSpawn_skips_dup2_calls :
    ∃ o c, posixSpawn (kernelRefusing fun _ _ => none) zeroArgs true someFile (some dupRecorder)
        none [] [] quietParent = some o ∧ o.child = some c ∧
      ∃ mask, c.child.calls =
        [.close 3, .setCloexec 4, .sigmask mask, .execve someFile [] []] := by
  obtain ⟨-, hcreated⟩ := posixSpawn_skips_actions dupRecorder_recorded
    (kernelRefusing fun _ _ => none) zeroArgs true someFile none [] [] quietParent
  obtain ⟨o, c, mask, hrun, hchild, hcalls⟩ := hcreated _ _
    (pipeOutcome_kernelRefusing fun _ _ => none) (clone_kernelRefusing _) quietParent_fresh
  exact ⟨o, c, hrun, hchild, mask, hcalls⟩

/-- `dup2(3, 1)` was recorded, 0 is returned and the image replaced, but `dup2` was not called. -/
theorem posixSpawn_drops_dup2 :
    ∃ o c, Recorded [.dup2 3 1] dupRecorder ∧
      posixSpawn (kernelRefusing fun _ _ => none) zeroArgs true someFile (some dupRecorder) none
        [] [] quietParent = some o ∧ o.child = some c ∧
      o.ret = 0 ∧ c.execed = true ∧ (Action.dup2 3 1).call ∉ c.child.calls :=
  ⟨_, _, dupRecorder_recorded, rfl, rfl, rfl, rfl, by decide⟩

end LdbToolchain.Spawn
