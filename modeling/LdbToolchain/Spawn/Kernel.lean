import LdbToolchain.Lib.Heap
import LdbToolchain.Syscall

/-!
# The world `posix_spawn` runs in

What the kernel and the C library answer is a parameter, `Kernel`: a run is determined by it, and a
statement about every outcome quantifies over it. The two processes keep what the code can change:
descriptors, signal mask, cancel state, `errno`, the cell `res` points at. The child also keeps the
list of the calls it made.
-/

namespace LdbToolchain.Spawn

open LdbToolchain

/-! ## Strings -/

/-- A NUL-terminated string: the bytes before the terminator. -/
structure CString where
  bytes : List UInt8
  nonul : 0 ∉ bytes
  deriving DecidableEq

/-- `""`. -/
def CString.empty : CString := ⟨[], List.not_mem_nil⟩

/-- The string found at the start of a buffer. -/
def CString.ofBuffer (b : List UInt8) : CString where
  bytes := b.takeWhile (· ≠ 0)
  nonul h := by simpa using List.mem_takeWhile_imp h

abbrev Argv := List CString

abbrev Envp := List CString

/-! ## Descriptors -/

structure FdEntry where
  fd : Int
  /-- The open file description the descriptor refers to. -/
  file : Nat
  cloexec : Bool
  nonblock : Bool
  deriving DecidableEq

/-- The open descriptors of a process. -/
abbrev FdTable := List FdEntry

namespace FdTable

def close (t : FdTable) (fd : Int) : FdTable := t.filter (·.fd ≠ fd)

/-- `fcntl(fd, F_SETFD, FD_CLOEXEC)`. -/
def setCloexec (t : FdTable) (fd : Int) : FdTable :=
  t.map fun e => if e.fd = fd then { e with cloexec := true } else e

/-- `fcntl(fd, F_SETFL, O_NONBLOCK)`. -/
def setNonblock (t : FdTable) (fd : Int) : FdTable :=
  t.map fun e => if e.fd = fd then { e with nonblock := true } else e

/-- The table of the new image after a successful `execve`. -/
def exec (t : FdTable) : FdTable := t.filter (·.cloexec = false)

/-- Some descriptor refers to the open file description `file`. -/
def holds (t : FdTable) (file : Nat) : Bool := t.any (·.file = file)

end FdTable

/-! ## Signal masks -/

/-- A signal mask, signal `n` being bit `n - 1`. -/
abbrev Sigset := BitVec 64

/-! ## What the child does -/

/-- The calls a child may make. -/
inductive ChildCall where
  | close (fd : Int)
  | setCloexec (fd : Int)
  | sigmask (set : Sigset)
  | dup2 (srcfd fd : Int)
  | openFile (fd : Int) (path : CString) (oflag : Int) (mode : Nat)
  | chdir (path : CString)
  | fchdir (fd : Int)
  | execve (path : CString) (argv : Argv) (envp : Envp)
  | write (fd : Int) (value : Int)
  | exit (status : Int)
  deriving DecidableEq

/-- The path of an attempt to execute a file. -/
def ChildCall.execPath : ChildCall → Option CString
  | .execve path _ _ => some path
  | _ => none

structure Child where
  fds : FdTable
  sigmask : Sigset
  errno : Int
  /-- In the order they were made. -/
  calls : List ChildCall

def Child.log (c : Child) (call : ChildCall) : Child := { c with calls := c.calls ++ [call] }

/-- The files the child tried to execute, in order. -/
def Child.attempts (c : Child) : List CString := c.calls.filterMap ChildCall.execPath

/-! ## Outcomes -/

/-- A process id. -/
structure Pid where
  val : Int
  pos : 0 < val

/-- The descriptors a successful `pipe` returns and the two ends they refer to. -/
structure PipeEnds where
  (rd wr : Int)
  (rdFile wrFile : Nat)
  deriving DecidableEq

/-- How the kernel and the C library answer. -/
structure Kernel where
  /-- The system call `SYS_pipe2`. -/
  sysPipe2 : Except Errno PipeEnds
  /-- The C library's `pipe`. -/
  pipe : Except Errno PipeEnds
  /-- The C library's `clone`. -/
  clone : Except Errno Pid
  /-- `execve`, after the child has made these calls: the error, or `none` when it succeeds. -/
  execve : List ChildCall → CString → Option Errno
  /-- How often `SYS_write` fails before it succeeds. -/
  writeFails : Nat
  /-- The signals `pthread_sigmask` never blocks (`SIGKILL` and `SIGSTOP`, and those the C library
  keeps for itself). -/
  unblockable : Sigset
  /-- The stale bytes a stack buffer starts out with. -/
  stale : Nat → UInt8

/-- The calling process, as far as `posix_spawn` can change it. -/
structure Parent where
  fds : FdTable
  sigmask : Sigset
  cancelState : Int
  errno : Int
  /-- The children waited for. -/
  reaped : List Int
  /-- The cell `res` points at. -/
  res : Int

/-- What the kernel guarantees about the descriptors of a new pipe: they were not open. -/
structure PipeEnds.Fresh (e : PipeEnds) (t : FdTable) : Prop where
  ne : e.rd ≠ e.wr
  files_ne : e.rdFile ≠ e.wrFile
  rd_unused : ∀ x ∈ t, x.fd ≠ e.rd
  wr_unused : ∀ x ∈ t, x.fd ≠ e.wr
  wr_new : ∀ x ∈ t, x.file ≠ e.wrFile

/-! ## `pipe2` -/

def O_CLOEXEC : Nat := 0o2000000
def O_NONBLOCK : Nat := 0o4000

/-- The table with both ends of a pipe added. -/
def FdTable.addPipe (t : FdTable) (e : PipeEnds) (cloexec nonblock : Bool) : FdTable :=
  t ++ [⟨e.rd, e.rdFile, cloexec, nonblock⟩, ⟨e.wr, e.wrFile, cloexec, nonblock⟩]

/-- The C library's `pipe(fd)`. -/
def pipe (k : Kernel) (s : Parent) : Int × Option PipeEnds × Parent :=
  match k.pipe with
  | .error e => (-1, none, { s with errno := e.val })
  | .ok ends => (0, some ends, { s with fds := s.fds.addPipe ends false false })

/-- `pipe2`: what it returns, and the descriptors it stored in `fd` if it stored any. -/
def pipe2 (k : Kernel) (flag : Nat) (s : Parent) : Int × Option PipeEnds × Parent :=
  if flag = 0 then pipe k s
  else
    let ret := rawResult (k.sysPipe2.map fun _ => 0)
    if ret ≠ -Errno.ENOSYS.val then
      let (r, errno) := syscallRet (BitVec.ofInt 64 ret) s.errno
      match k.sysPipe2 with
      | .error _ => (r, none, { s with errno })
      | .ok ends =>
          (r, some ends,
            { s with
              errno
              fds := s.fds.addPipe ends (flag &&& O_CLOEXEC ≠ 0) (flag &&& O_NONBLOCK ≠ 0) })
    else
      -- an old kernel: the same with `pipe` and `fcntl`
      match pipe k s with
      | (0, some ends, s) =>
          let fds := if flag &&& O_CLOEXEC ≠ 0
            then (s.fds.setCloexec ends.rd).setCloexec ends.wr else s.fds
          let fds := if flag &&& O_NONBLOCK ≠ 0
            then (fds.setNonblock ends.rd).setNonblock ends.wr else fds
          (0, some ends, { s with fds })
      | r => r

/-! ## `execve` -/

/-- How an attempt to execute a file ends: the image is replaced, or the call returns. -/
inductive ExecResult where
  | replaced (c : Child)
  | returned (c : Child)

/-- The type of `execve` and of `__execvpe`; -1 is all they return. -/
abbrev ExecFn := Kernel → CString → Argv → Envp → Child → ExecResult

/-- The C library's `execve`. -/
def execve : ExecFn := fun k path argv envp c =>
  let c' := c.log (.execve path argv envp)
  match k.execve c.calls path with
  | none => .replaced { c' with fds := c'.fds.exec }
  | some e => .returned { c' with errno := e.val }

end LdbToolchain.Spawn
