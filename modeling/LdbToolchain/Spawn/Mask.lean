import LdbToolchain.Spawn.Report

/-!
# The signal mask of a spawned child

The child sets its mask from the attributes, or from `args->oldmask`. No line of `__posix_spawnx`
assigns `oldmask`, so without `POSIX_SPAWN_SETSIGMASK` the mask is what the stack held before the
call. `posixSpawn_sigmask_iff` says when this is harmless, and that it depends on the stack exactly
when the flag is not set.
-/

namespace LdbToolchain.Spawn

variable {k : Kernel} {s : Parent} {ends : PipeEnds}

/-- The mask the child asks for. -/
def requestedMask (stale : Args) (attr : Option SpawnAttr) : Sigset :=
  if (attr.getD .zero).setsSigmask then (attr.getD .zero).ss else stale.oldmask

/-- The mask a caller expects the child to run with. -/
def expectedMask (attr : Option SpawnAttr) (s : Parent) : Sigset :=
  if (attr.getD .zero).setsSigmask then (attr.getD .zero).ss else s.sigmask

/-- The mask of the child a call created, from the setup on: neither `execve` nor the report of its
failure changes it. -/
def Outcome.childMask (o : Outcome) : Option Sigset := o.child.map (·.child.sigmask)

theorem sigmask_writeLoop (fd ret : Int) (n : Nat) (c : Child) :
    (writeLoop fd ret n c).sigmask = c.sigmask := by
  induction n generalizing c with
  | zero => rfl
  | succ n ih =>
      unfold writeLoop
      rw [ih]
      rfl

theorem sigmask_childSetup (k : Kernel) (args : Args) (c : Child) :
    (childSetup k args c).sigmask
      = (if args.attr.setsSigmask then args.attr.ss else args.oldmask) &&& ~~~k.unblockable := rfl

/-- The mask at `exec` is the mask at the end. -/
theorem sigmask_child (k : Kernel) (args : Args) (hexec : args.exec = execve) (c : Child) :
    (child k args c).child.sigmask = (childSetup k args c).sigmask := by
  unfold child
  rw [hexec]
  unfold execve
  cases k.execve (childSetup k args c).calls args.path with
  | none => rfl
  | some e =>
      dsimp only
      split
      · show (writeLoop _ _ _ _).sigmask = _
        rw [sigmask_writeLoop]
        rfl
      · rfl

/-- **The child's mask**: what was asked for, less the signals that cannot be blocked. -/
theorem posixSpawn_childMask {pid : Pid} (hpipe : pipeOutcome k = .ok ends)
    (hclone : k.clone = .ok pid) (hfresh : ends.Fresh s.fds) (stale : Args) (res : Bool)
    (path : CString) (fa : Option Recorder) (attr : Option SpawnAttr) (argv : Argv) (envp : Envp) :
    ∃ o, posixSpawn k stale res path fa attr argv envp s = some o ∧
      o.childMask = some (requestedMask stale attr &&& ~~~k.unblockable) := by
  obtain ⟨o, hrun, hchild, -⟩ :=
    posixSpawn_cloned hpipe hclone hfresh stale res path fa attr argv envp
  refine ⟨o, hrun, ?_⟩
  unfold Outcome.childMask
  rw [hchild, Option.map_some, sigmask_child _ _ rfl, sigmask_childSetup]
  rfl

theorem and_not_eq_self_iff (a u : Sigset) : a &&& ~~~u = a ↔ a &&& u = 0 := by
  constructor
  · intro h
    rw [← h, BitVec.and_assoc, BitVec.and_comm (~~~u) u, BitVec.and_not_self]
    exact BitVec.and_zero
  · intro h
    ext i hi
    have hbit : (a &&& u)[i] = false := by rw [h]; simp
    rw [BitVec.getElem_and] at hbit
    rw [BitVec.getElem_and, BitVec.getElem_not]
    revert hbit
    cases a[i] <;> cases u[i] <;> simp

/-- The mask asked for depends on the stack exactly when the attributes do not set it. -/
theorem requestedMask_stale_iff {u : Sigset} (hblockable : u ≠ BitVec.allOnes 64)
    (attr : Option SpawnAttr) :
    (∀ stale₁ stale₂, requestedMask stale₁ attr &&& ~~~u = requestedMask stale₂ attr &&& ~~~u) ↔
      (attr.getD .zero).setsSigmask = true := by
  unfold requestedMask
  constructor
  · intro hsame
    by_contra hflag
    -- two stacks, the one empty where the other has a full mask
    have h := hsame { zeroArgs with oldmask := 0 } { zeroArgs with oldmask := BitVec.allOnes 64 }
    rw [if_neg hflag, if_neg hflag] at h
    have hzero : (0 : Sigset) &&& ~~~u = 0 := BitVec.zero_and
    rw [hzero, BitVec.allOnes_and] at h
    apply hblockable
    rw [← BitVec.not_not (b := u), ← h]
    decide
  · intro hflag stale₁ stale₂
    rw [if_pos hflag, if_pos hflag]

/-- **When the child has the right mask.** It is the expected one exactly when the attributes set it
(to blockable signals only), or they do not and the stale `oldmask` happens to be the parent's mask;
and it is the same for every content of the stack exactly when the attributes set it. -/
theorem posixSpawn_sigmask_iff {pid : Pid} (hpipe : pipeOutcome k = .ok ends)
    (hclone : k.clone = .ok pid) (hfresh : ends.Fresh s.fds)
    (hblockable : k.unblockable ≠ BitVec.allOnes 64) (res : Bool) (path : CString)
    (fa : Option Recorder) (attr : Option SpawnAttr) (argv : Argv) (envp : Envp) :
    (∀ stale, ∃ o, posixSpawn k stale res path fa attr argv envp s = some o ∧
      (o.childMask = some (expectedMask attr s) ↔
        if (attr.getD .zero).setsSigmask then (attr.getD .zero).ss &&& k.unblockable = 0
        else stale.oldmask &&& ~~~k.unblockable = s.sigmask)) ∧
    ((∀ stale₁ stale₂ o₁ o₂,
        posixSpawn k stale₁ res path fa attr argv envp s = some o₁ →
        posixSpawn k stale₂ res path fa attr argv envp s = some o₂ →
        o₁.childMask = o₂.childMask) ↔
      (attr.getD .zero).setsSigmask = true) := by
  have hmask := fun stale =>
    posixSpawn_childMask hpipe hclone hfresh stale res path fa attr argv envp
  constructor
  · intro stale
    obtain ⟨o, hrun, hchild⟩ := hmask stale
    refine ⟨o, hrun, ?_⟩
    rw [hchild, Option.some_inj]
    unfold requestedMask expectedMask
    split
    · exact and_not_eq_self_iff _ _
    · exact Iff.rfl
  · rw [← requestedMask_stale_iff hblockable attr]
    constructor
    · intro hsame stale₁ stale₂
      obtain ⟨o₁, hrun₁, hchild₁⟩ := hmask stale₁
      obtain ⟨o₂, hrun₂, hchild₂⟩ := hmask stale₂
      have h := hsame _ _ _ _ hrun₁ hrun₂
      rwa [hchild₁, hchild₂, Option.some_inj] at h
    · intro hsame stale₁ stale₂ o₁ o₂ hrun₁ hrun₂
      obtain ⟨o₁', hrun₁', hchild₁⟩ := hmask stale₁
      obtain ⟨o₂', hrun₂', hchild₂⟩ := hmask stale₂
      rw [hrun₁] at hrun₁'
      rw [hrun₂] at hrun₂'
      cases hrun₁'
      cases hrun₂'
      rw [hchild₁, hchild₂, hsame]

/-- A call that blocks signal 1 in the child. -/
theorem posixSpawn_sigmask_blocking :
    ∃ o, posixSpawn (kernelRefusing fun _ _ => none) zeroArgs true someFile none
        (some { SpawnAttr.zero with flags := POSIX_SPAWN_SETSIGMASK, ss := 1 }) [] [] quietParent
          = some o ∧
      o.childMask = some 1 := by
  obtain ⟨hexact, -⟩ := posixSpawn_sigmask_iff (pipeOutcome_kernelRefusing fun _ _ => none)
    (clone_kernelRefusing _) quietParent_fresh (by decide) true someFile none
    (some { SpawnAttr.zero with flags := POSIX_SPAWN_SETSIGMASK, ss := 1 }) [] []
  obtain ⟨o, hrun, hiff⟩ := hexact zeroArgs
  exact ⟨o, hrun, hiff.mpr (by decide)⟩

/-- A parent that blocks nothing, no attributes, and a stack that held a one where `oldmask` is: the
child runs with signal 1 blocked. -/
theorem posixSpawn_sigmask_stale :
    ∃ o, posixSpawn (kernelRefusing fun _ _ => none) { zeroArgs with oldmask := 1 } true someFile
        none none [] [] quietParent = some o ∧
      o.childMask = some 1 ∧ expectedMask none quietParent = 0 ∧
      o.childMask ≠ some (expectedMask none quietParent) :=
  ⟨_, rfl, rfl, rfl, by decide⟩

end LdbToolchain.Spawn
