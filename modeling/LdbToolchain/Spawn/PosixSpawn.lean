import LdbToolchain.Spawn.Execvpe
import LdbToolchain.Spawn.FileActions

/-!
# `posix_spawn` and `posix_spawnp`

`__posix_spawnx` makes a close-on-exec pipe, clones a child that shares its memory and runs while it
waits, and learns from the pipe whether the child's `exec` failed. The local `struct args` the two
share starts out as whatever the stack held, `stale` below; the assignments before `clone` override
what they assign.

A run gives nothing (`none`) when the final `read` would block forever, because some process still
holds the write end of the pipe.
-/

namespace LdbToolchain.Spawn

def POSIX_SPAWN_SETSIGMASK : BitVec 16 := 0x08

/-- `posix_spawnattr_t`; `fn` is the field `__fn` of the repository's `spawn.h`. -/
structure SpawnAttr where
  flags : BitVec 16
  ss : Sigset
  fn : Option ExecFn

/-- `(const posix_spawnattr_t){0}`. -/
def SpawnAttr.zero : SpawnAttr where
  flags := 0
  ss := 0
  fn := none

/-- `attr->__flags & POSIX_SPAWN_SETSIGMASK`. -/
def SpawnAttr.setsSigmask (attr : SpawnAttr) : Bool := attr.flags &&& POSIX_SPAWN_SETSIGMASK ≠ 0

/-- `struct args`. -/
structure Args where
  (rd wr : Int)
  oldmask : Sigset
  path : CString
  exec : ExecFn
  fa : Option Recorder
  attr : SpawnAttr
  argv : Argv
  envp : Envp

/-- What the child leaves behind: its last state, whether its image was replaced, and what it wrote
to the pipe. -/
structure ChildEnd where
  child : Child
  execed : Bool
  pipe : List Int

/-- `pthread_sigmask(SIG_SETMASK, &set, 0)`. -/
def Child.setSigmask (k : Kernel) (set : Sigset) (c : Child) : Child :=
  { c.log (.sigmask set) with sigmask := set &&& ~~~k.unblockable }

/-- The child up to the call of `args->exec`. -/
def childSetup (k : Kernel) (args : Args) (c : Child) : Child :=
  let c := { c.log (.close args.rd) with fds := c.fds.close args.rd }
  let c := { c.log (.setCloexec args.wr) with fds := c.fds.setCloexec args.wr }
  c.setSigmask k (if args.attr.setsSigmask then args.attr.ss else args.oldmask)

/-- `while (__syscall(SYS_write, p, &ret, sizeof ret) < 0);` with `n` failures before the success. -/
def writeLoop (fd ret : Int) : Nat → Child → Child
  | 0, c => c.log (.write fd ret)
  | n + 1, c => writeLoop fd ret n (c.log (.write fd ret))

/-- `child`. Its `stack` of 1024 bytes is not modelled: it is taken to be enough. -/
def child (k : Kernel) (args : Args) (c : Child) : ChildEnd :=
  match args.exec k args.path args.argv args.envp (childSetup k args c) with
  | .replaced c => ⟨c, true, []⟩
  | .returned c =>
      let ret := -c.errno
      let ret := -ret
      if ret ≠ 0 then ⟨(writeLoop args.wr ret k.writeFails c).log (.exit 127), false, [ret]⟩
      else ⟨c.log (.exit 127), false, []⟩

/-- The child `clone` starts: the parent's descriptors and mask, and `errno` in shared memory. -/
def Parent.fork (s : Parent) : Child where
  fds := s.fds
  sigmask := s.sigmask
  errno := s.errno
  calls := []

/-- What a call of `posix_spawn` comes to. -/
structure Outcome where
  ret : Int
  parent : Parent
  /-- The child, when one was created. -/
  child : Option ChildEnd

def PTHREAD_CANCEL_DISABLE : Int := 1

/-- The child still holds the write end after replacing its image. -/
def ChildEnd.holds (e : ChildEnd) (file : Nat) : Bool := e.execed && e.child.fds.holds file

/-- What `__posix_spawnx` does after `clone`. -/
def afterClone (k : Kernel) (res : Bool) (ends : PipeEnds) (cs : Int) (args : Args) (s : Parent) :
    Option Outcome :=
  match k.clone with
  | .error e =>
      -- `clone` returned -1
      let s := { s with errno := e.val, fds := (s.fds.close ends.wr).close ends.rd }
      let ec := -(-1)
      some ⟨ec, { s with res := if ec = 0 ∧ res then -1 else s.res, cancelState := cs }, none⟩
  | .ok pid =>
      let ended := child k args s.fork
      let s := { s with errno := ended.child.errno, fds := s.fds.close ends.wr }
      let finish (ec : Int) (s : Parent) : Outcome :=
        ⟨ec,
          { s with
            fds := s.fds.close ends.rd
            res := if ec = 0 ∧ res then pid.val else s.res
            cancelState := cs },
          some ended⟩
      match ended.pipe with
      | ec :: _ => some (finish ec { s with reaped := s.reaped ++ [pid.val] })
      | [] =>
          if s.fds.holds ends.wrFile ∨ ended.holds ends.wrFile then none
          else some (finish 0 s)

/-- `__posix_spawnx`; `res` says whether the pointer `res` is non-null. -/
def posixSpawnx (k : Kernel) (stale : Args) (res : Bool) (path : CString) (exec : ExecFn)
    (fa : Option Recorder) (attr : Option SpawnAttr) (argv : Argv) (envp : Envp) (s : Parent) :
    Option Outcome :=
  match pipe2 k O_CLOEXEC s with
  | (0, some ends, s) =>
      let cs := s.cancelState
      let s := { s with cancelState := PTHREAD_CANCEL_DISABLE }
      let args :=
        { stale with
          rd := ends.rd, wr := ends.wr
          path, exec, fa
          attr := attr.getD .zero
          argv, envp }
      afterClone k res ends cs args s
  | (_, _, s) => some ⟨s.errno, s, none⟩

/-- `posix_spawn`. -/
def posixSpawn (k : Kernel) (stale : Args) (res : Bool) (path : CString) (fa : Option Recorder)
    (attr : Option SpawnAttr) (argv : Argv) (envp : Envp) (s : Parent) : Option Outcome :=
  posixSpawnx k stale res path execve fa attr argv envp s

/-- `posix_spawnp`, with the value of `getenv("PATH")` as its first argument. -/
def posixSpawnp (envPath : Option CString) (k : Kernel) (stale : Args) (res : Bool) (file : CString)
    (fa : Option Recorder) (attr : Option SpawnAttr) (argv : Argv) (envp : Envp) (s : Parent) :
    Option Outcome :=
  let spawnpAttr := attr.getD .zero
  let spawnpAttr := { spawnpAttr with fn := some (execvpe envPath) }
  posixSpawn k stale res file fa (some spawnpAttr) argv envp s

end LdbToolchain.Spawn
