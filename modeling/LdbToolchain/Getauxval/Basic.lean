import LdbToolchain.Lib.Wp

/-!
# `getauxval`

The replacement for the C library's `getauxval` reads the auxiliary vector either from
`/proc/self/auxv` or from the memory behind the environment, and remembers in `getauxval_func` how
far it has come. A call is the argument together with what the process finds at that moment:
whether `/proc/self/auxv` can be opened and what reading it gives, and where `__environ` points.

The special case for `AT_EXECFN` is compiled under the memory and thread sanitizers only and is left
out.
-/

namespace LdbToolchain.Getauxval

/-- `unsigned long`. -/
abbrev Word := BitVec 64

def AT_NULL : Word := 0
def AT_IGNORE : Word := 1
def AT_IGNOREPPC : Word := 22
def AT_SECURE : Word := 23

def ENOENT : Int := 2
def EINTR : Int := 4

/-- An entry `ElfW(auxv_t)`. -/
structure Aux where
  type : Word
  val : Word
  deriving DecidableEq

/-- What one `read` system call on `/proc/self/auxv` gives. -/
inductive RawRead where
  | interrupted
  | failed (errno : Int)
  | short
  | aux (a : Aux)
  deriving DecidableEq

/-- The functions `getauxval_func` may point at. -/
inductive Func where
  | initProcfs
  | procfs
  | initEnviron
  | environ
  deriving DecidableEq

/-- The static variables of `getauxval.c`, and `errno`. -/
structure State where
  auxvProcfs : Fin 128 → Word
  auxvSecure : Word
  /-- The words from `__auxv_environ` on, or `NULL`. -/
  auxvEnviron : Option (List Word)
  getauxvalFunc : Func
  errno : Int

/-- How the process starts. -/
def State.initial (errno : Int) : State where
  auxvProcfs _ := 0
  auxvSecure := 0
  auxvEnviron := none
  getauxvalFunc := .initProcfs
  errno

/-- The two calls of `abort`. -/
inductive Abort where
  | cannotRead (errno : Int)
  | outOfRange (type : Word)
  deriving DecidableEq

abbrev M := StateT State (Except Abort)

/-- A call of `getauxval` and its surroundings. -/
structure Call where
  type : Word
  /-- `open("/proc/self/auxv")`: an error, or what the reads will give (then end of file). -/
  procfs : Except Int (List RawRead)
  /-- The words from `__environ` on, or `NULL`. -/
  environ : Option (List Word)

def setErrno (e : Int) : M PUnit := modify fun s => { s with errno := e }

/-- `a_cas_p(&getauxval_func, old, new)`. -/
def casFunc (old new : Func) : M PUnit :=
  modify fun s => if s.getauxvalFunc = old then { s with getauxvalFunc := new } else s

/-! ## From procfs -/

/-- `__retry_read`: the entry read, when a whole one was, and the reads still to come. -/
def retryRead : (reads : List RawRead) →
    M (Option { r : Aux × List RawRead // r.2.length < reads.length })
  | [] => return none
  | .interrupted :: rest => do
      setErrno EINTR
      let r ← retryRead rest
      return r.map fun r => ⟨r.val, Nat.lt_succ_of_lt r.property⟩
  | .failed e :: _ => do
      setErrno e
      throw (.cannotRead e)
  | .short :: _ => return none
  | .aux a :: rest => return some ⟨(a, rest), Nat.lt_succ_self rest.length⟩

/-- The `while` loop of `__auxv_init_procfs`. -/
def readAuxv (reads : List RawRead) : M PUnit := do
  match ← retryRead reads with
  | none => return
  | some ⟨(aux, rest), _⟩ =>
      if aux.type = AT_NULL then
        return
      else if aux.type = AT_IGNORE ∨ aux.type = AT_IGNOREPPC then
        readAuxv rest
      else if h : aux.type.toNat < 128 then
        modify fun s =>
          { s with auxvProcfs := Function.update s.auxvProcfs ⟨aux.type.toNat, h⟩ aux.val }
        readAuxv rest
      else
        throw (.outOfRange aux.type)
termination_by reads.length

/-- `__getauxval_procfs`. -/
def getauxvalProcfs (type : Word) : M Word := do
  if type = AT_SECURE then
    return (← get).auxvSecure
  else if h : type.toNat < 128 then
    return (← get).auxvProcfs ⟨type.toNat, h⟩
  else
    setErrno ENOENT
    return 0

/-! ## From the environment -/

/-- `__find_auxv`, started at index `i`: the index of the value, or `none` for `(size_t) -1`. -/
def findAuxv (type : Word) : List Word → Nat → Option Nat
  | t :: _ :: rest, i =>
      if t = 0 then none
      else if t = type then some (i + 1)
      else findAuxv type rest (i + 2)
  | _, _ => none

/-- `__getauxval_environ`. -/
def getauxvalEnviron (type : Word) : M Word := do
  if type = AT_SECURE then
    return (← get).auxvSecure
  else
    match (← get).auxvEnviron with
    | some words =>
        match findAuxv type words 0 with
        | some index => return words.getD index 0
        | none =>
            setErrno ENOENT
            return 0
    | none =>
        setErrno ENOENT
        return 0

/-- What follows the first null pointer: `__environ + i + 1`. -/
def pastEnviron (words : List Word) : List Word := (words.dropWhile (· ≠ 0)).drop 1

/-- `__auxv_init_environ`. -/
def auxvInitEnviron (c : Call) : M Word := do
  match c.environ with
  | none =>
      setErrno ENOENT
      return 0
  | some words =>
      let auxv := pastEnviron words
      modify fun s => { s with auxvEnviron := some auxv }
      match findAuxv AT_SECURE auxv 0 with
      | some index => modify fun s => { s with auxvSecure := auxv.getD index 0 }
      | none => pure ⟨⟩
      casFunc .initEnviron .environ
      getauxvalEnviron c.type

/-- `__auxv_init_procfs`. -/
def auxvInitProcfs (c : Call) : M Word := do
  match c.procfs with
  | .error e =>
      setErrno e
      casFunc .initProcfs .initEnviron
      auxvInitEnviron c
  | .ok reads =>
      readAuxv reads
      let secure ← getauxvalProcfs AT_SECURE
      modify fun s => { s with auxvSecure := secure }
      casFunc .initProcfs .procfs
      getauxvalProcfs c.type

/-- `getauxval`: call whatever `getauxval_func` points at. -/
def getauxval (c : Call) : M Word := do
  match (← get).getauxvalFunc with
  | .initProcfs => auxvInitProcfs c
  | .procfs => getauxvalProcfs c.type
  | .initEnviron => auxvInitEnviron c
  | .environ => getauxvalEnviron c.type

/-- `secure_getenv`, over the `getenv` of the C library. -/
def secureGetenv {Name Value : Type} (getenv : Name → Option Value) (c : Call) (name : Name) :
    M (Option Value) := do
  if (← getauxval { c with type := AT_SECURE }) ≠ 0 then
    return none
  else
    return getenv name

/-! ## What the kernel hands over -/

/-- The kernel's auxiliary vector, without its terminating `AT_NULL` entry. -/
structure Auxv where
  entries : List Aux
  nonnull : ∀ a ∈ entries, a.type ≠ AT_NULL

/-- The vector as it lies in memory. -/
def Auxv.words (v : Auxv) : List Word :=
  v.entries.flatMap (fun a => [a.type, a.val]) ++ [AT_NULL, 0]

/-- The value of the entry of this type, 0 when there is none. -/
def Auxv.value (v : Auxv) (type : Word) : Word :=
  ((v.entries.find? (·.type = type)).map Aux.val).getD 0

/-- The call finds `v` wherever it looks: in `/proc/self/auxv` when that can be opened (reads may be
interrupted any number of times), and behind the environment when `__environ` is set. -/
structure Call.Finds (c : Call) (v : Auxv) : Prop where
  procfs : ∀ reads, c.procfs = .ok reads →
    reads.filter (· ≠ .interrupted) = v.entries.map .aux ++ [.aux ⟨AT_NULL, 0⟩]
  environ : ∀ words, c.environ = some words →
    ∃ env, (∀ p ∈ env, p ≠ 0) ∧ words = env ++ 0 :: v.words

end LdbToolchain.Getauxval
