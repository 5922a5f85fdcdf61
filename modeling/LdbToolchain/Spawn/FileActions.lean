import LdbToolchain.Spawn.Kernel

/-!
# Recording file actions

`posix_spawn_file_actions_t` holds the head of a doubly linked list of `struct fdop`, newest first.
The five `posix_spawn_file_actions_add*` functions differ in which fields of the node they set and in
which arguments they refuse; linking the node in is the same code in each, `link` here. A node comes
from `malloc` with whatever its memory held before, so fields that are not set stay arbitrary.
-/

namespace LdbToolchain.Spawn

def FDOP_CLOSE : Int := 1
def FDOP_DUP2 : Int := 2
def FDOP_OPEN : Int := 3
def FDOP_CHDIR : Int := 4
def FDOP_FCHDIR : Int := 5

def ENOMEM : Int := 12
def EBADF : Int := 9

/-- `struct fdop`. -/
structure Fdop where
  next : Option Nat
  prev : Option Nat
  (cmd fd srcfd oflag : Int)
  mode : Nat
  path : CString

/-- `posix_spawn_file_actions_t`. -/
structure FileActions where
  actions : Option Nat

/-- The heap and one `posix_spawn_file_actions_t`. -/
structure Recorder where
  heap : Heap Fdop
  fa : FileActions

/-- `malloc` for a node: `none` when it fails, else what the memory holds. -/
abbrev Malloc := Option Fdop

namespace Recorder

/-- `posix_spawn_file_actions_init`. -/
def init (heap : Heap Fdop) : Recorder := ⟨heap, ⟨none⟩⟩

/-- `if ((op->next = fa->__actions)) op->next->prev = op; op->prev = 0; fa->__actions = op;` -/
def link (r : Recorder) (op : Fdop) : Recorder :=
  let addr := r.heap.next
  let heap := r.heap.alloc { op with next := r.fa.actions, prev := none }
  match r.fa.actions with
  | none => ⟨heap, ⟨some addr⟩⟩
  | some next => ⟨heap.modify next fun n => { n with prev := some addr }, ⟨some addr⟩⟩

/-- What the five recording functions share after their argument check: allocate, fill in, link. -/
def record (fill : Fdop → Fdop) (malloc : Malloc) (r : Recorder) : Int × Recorder :=
  match malloc with
  | none => (ENOMEM, r)
  | some junk => (0, r.link (fill junk))

/-- `posix_spawn_file_actions_addchdir_np`. -/
def addchdirNp (malloc : Malloc) (path : CString) (r : Recorder) : Int × Recorder :=
  record (fun op => { op with cmd := FDOP_CHDIR, fd := -1, path }) malloc r

/-- `posix_spawn_file_actions_addclose`. -/
def addclose (malloc : Malloc) (fd : Int) (r : Recorder) : Int × Recorder :=
  if fd < 0 then (EBADF, r)
  else record (fun op => { op with cmd := FDOP_CLOSE, fd }) malloc r

/-- `posix_spawn_file_actions_adddup2`. -/
def adddup2 (malloc : Malloc) (srcfd fd : Int) (r : Recorder) : Int × Recorder :=
  if srcfd < 0 ∨ fd < 0 then (EBADF, r)
  else record (fun op => { op with cmd := FDOP_DUP2, srcfd, fd }) malloc r

/-- `posix_spawn_file_actions_addfchdir_np`. -/
def addfchdirNp (malloc : Malloc) (fd : Int) (r : Recorder) : Int × Recorder :=
  if fd < 0 then (EBADF, r)
  else record (fun op => { op with cmd := FDOP_FCHDIR, fd }) malloc r

/-- `posix_spawn_file_actions_addopen`. -/
def addopen (malloc : Malloc) (fd : Int) (path : CString) (flags : Int) (mode : Nat)
    (r : Recorder) : Int × Recorder :=
  if fd < 0 then (EBADF, r)
  else record (fun op => { op with cmd := FDOP_OPEN, fd, oflag := flags, mode, path }) malloc r

end Recorder

/-! ## Sequences of calls -/

/-- What a caller asks to be done in the child. -/
inductive Action where
  | close (fd : Int)
  | dup2 (srcfd fd : Int)
  | openFile (fd : Int) (path : CString) (oflag : Int) (mode : Nat)
  | chdir (path : CString)
  | fchdir (fd : Int)
  deriving DecidableEq

/-- The system call that performs an action. -/
def Action.call : Action → ChildCall
  | .close fd => .close fd
  | .dup2 srcfd fd => .dup2 srcfd fd
  | .openFile fd path oflag mode => .openFile fd path oflag mode
  | .chdir path => .chdir path
  | .fchdir fd => .fchdir fd

/-- The recording function for an action. -/
def Recorder.add (malloc : Malloc) : Action → Recorder → Int × Recorder
  | .close fd => Recorder.addclose malloc fd
  | .dup2 srcfd fd => Recorder.adddup2 malloc srcfd fd
  | .openFile fd path oflag mode => Recorder.addopen malloc fd path oflag mode
  | .chdir path => Recorder.addchdirNp malloc path
  | .fchdir fd => Recorder.addfchdirNp malloc fd

/-- `r` records the actions `acts`, in the order in which they were added: it is the result of
`posix_spawn_file_actions_init` followed by one successful call for each. -/
inductive Recorded : List Action → Recorder → Prop
  | init (heap : Heap Fdop) : Recorded [] (Recorder.init heap)
  | add {acts : List Action} {r r' : Recorder} (a : Action) (malloc : Malloc) :
      Recorded acts r → r.add malloc a = (0, r') → Recorded (acts ++ [a]) r'

end LdbToolchain.Spawn
