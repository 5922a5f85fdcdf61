import LdbToolchain.Syscall

/-!
# The system call wrappers

Wrappers of `src/glibc-compatibility/musl` that fall back to older calls. A wrapper holds raw results,
in which a negative number is an error, and has to turn the last of them into the C convention. Which
older calls there are depends on the architecture.

`convention_iff` says which wrappers do, whatever the kernel answers: all but `sync_file_range`, which
returns the raw result, and `dup3` as long as the kernel goes on answering `EBUSY`.
-/

namespace LdbToolchain.Wrappers

/-- `int`, and the types that are passed as one. -/
abbrev CInt := BitVec 32

/-- `long`. -/
abbrev Long := BitVec 64

abbrev Pointer := BitVec 64

/-- What the kernel answers: a result that fits an `int`, or an error. -/
abbrev Answer := Except Errno (Fin (2 ^ 31))

/-- The raw result of `__syscall`. -/
def rawLong : Answer → Long
  | .ok n => BitVec.ofInt 64 n.val
  | .error e => BitVec.ofInt 64 (-e.val)

/-- `-ENOSYS` and the like, as an `int`. -/
def negated (e : Errno) : CInt := BitVec.ofInt 32 (-e.val)

inductive Arch where
  | x86_64
  | aarch64
  deriving DecidableEq

structure Timespec where
  (tvSec tvNsec : Long)

structure Timeval where
  (tvSec tvUsec : Long)

/-- A system call with its arguments. A null pointer is `none` where the other calls need what it
points to. -/
inductive Call where
  | syncFileRange (fd : CInt) (pos len : Long) (flags : CInt)
  | eventfd2 (count flags : CInt)
  | eventfd (count : CInt)
  | epollCreate1 (flags : CInt)
  | epollCreate (size : CInt)
  | epollPwait (fd : CInt) (ev : Pointer) (cnt timeout : CInt) (sigs : Pointer) (size : CInt)
  | epollWait (fd : CInt) (ev : Pointer) (cnt timeout : CInt)
  | inotifyInit1 (flags : CInt)
  | inotifyInit
  | pipe2 (fd : Pointer) (flag : CInt)
  | dup3 (old new flags : CInt)
  | dup2 (old new : CInt)
  | fcntl (fd cmd arg : CInt)
  | utimensat (fd : CInt) (path : Pointer) (times : Option (Timespec × Timespec)) (flags : CInt)
  | futimesat (fd : CInt) (path : Pointer) (tv : Option (Timeval × Timeval))
  | utimes (path : Pointer) (tv : Option (Timeval × Timeval))
  | clockGetres (clk : CInt) (ts : Pointer)
  | clockSettime (clk : CInt) (ts : Pointer)

/-- A call and its answer: a system call, or the C library's `pipe`. -/
inductive Event where
  | syscall (call : Call) (answer : Answer)
  | pipe (answer : Except Errno Unit)

/-- What the world answers. -/
structure World where
  /-- The raw results of the `__syscall` invocations, one after the other. -/
  answers : Nat → Answer
  /-- Whether the C library's `pipe` succeeds. -/
  pipe : Except Errno Unit
  /-- What it stores in `fd` then. -/
  fds : CInt × CInt

/-- A process in a wrapper: `errno`, the number of `__syscall` invocations, and what was called. -/
structure Process where
  errno : Int
  made : Nat
  events : List Event

namespace Process

/-- `__syscall`. -/
def syscall (p : Process) (w : World) (call : Call) : Long × Process :=
  (rawLong (w.answers p.made),
    { p with
      made := p.made + 1
      events := p.events ++ [.syscall call (w.answers p.made)] })

/-- `__syscall`, with its result in an `int`. -/
def syscallInt (p : Process) (w : World) (call : Call) : CInt × Process :=
  let (r, p) := p.syscall w call
  (r.setWidth 32, p)

/-- `return __syscall_ret(r);` in a function that returns `int`. -/
def retLong (p : Process) (r : Long) : Int × Process :=
  let (value, errno) := syscallRet r p.errno
  ((BitVec.ofInt 32 value).toInt, { p with errno })

/-- The same with `r` an `int`. -/
def ret (p : Process) (r : CInt) : Int × Process := p.retLong (r.signExtend 64)

/-- The C library's `pipe`. -/
def pipe (p : Process) (w : World) : Int × Process :=
  match w.pipe with
  | .ok () => (0, { p with events := p.events ++ [.pipe (.ok ())] })
  | .error e => (-1, { p with errno := e.val, events := p.events ++ [.pipe (.error e)] })

end Process

/-! ## The wrappers -/

/-- `sync_file_range`. -/
def syncFileRange (w : World) (fd : CInt) (pos len : Long) (flags : CInt) (p : Process) :
    Int × Process :=
  let (r, p) := p.syscall w (.syncFileRange fd pos len flags)
  ((r.setWidth 32 : CInt).toInt, p)

/-- A call, and an older one where the kernel does not know it. -/
def withFallback (w : World) (call : Call) (old : Option Call) (p : Process) : Int × Process :=
  let (r, p) := p.syscallInt w call
  match old with
  | some old =>
    if r = negated .ENOSYS then
      let (r, p) := p.syscallInt w old
      p.ret r
    else p.ret r
  | none => p.ret r

/-- An older call that x86_64 has, to be made under a condition. -/
def Arch.old (arch : Arch) (cond : Prop) [Decidable cond] (call : Call) : Option Call :=
  if arch = .x86_64 ∧ cond then some call else none

/-- `eventfd`. -/
def eventfd (arch : Arch) (w : World) (count flags : CInt) (p : Process) : Int × Process :=
  withFallback w (.eventfd2 count flags) (arch.old (flags = 0) (.eventfd count)) p

/-- `epoll_create1`. -/
def epollCreate1 (arch : Arch) (w : World) (flags : CInt) (p : Process) : Int × Process :=
  withFallback w (.epollCreate1 flags) (arch.old (flags = 0) (.epollCreate 1)) p

/-- `epoll_pwait`; `_NSIG/8` is 8. -/
def epollPwait (arch : Arch) (w : World) (fd : CInt) (ev : Pointer) (cnt timeout : CInt)
    (sigs : Pointer) (p : Process) : Int × Process :=
  withFallback w (.epollPwait fd ev cnt timeout sigs 8) (arch.old (sigs = 0) (.epollWait fd ev cnt timeout)) p

/-- `inotify_init1`. -/
def inotifyInit1 (arch : Arch) (w : World) (flags : CInt) (p : Process) : Int × Process :=
  withFallback w (.inotifyInit1 flags) (arch.old (flags = 0) .inotifyInit) p

/-- `clock_getres`. -/
def clockGetres (w : World) (clk : CInt) (ts : Pointer) (p : Process) : Int × Process :=
  let (r, p) := p.syscall w (.clockGetres clk ts)
  p.retLong r

/-- `clock_settime`. -/
def clockSettime (w : World) (clk : CInt) (ts : Pointer) (p : Process) : Int × Process :=
  let (r, p) := p.syscall w (.clockSettime clk ts)
  p.retLong r

def O_CLOEXEC : CInt := 0o2000000
def O_NONBLOCK : CInt := 0o4000
def F_SETFD : CInt := 2
def F_SETFL : CInt := 4
def FD_CLOEXEC : CInt := 1

/-- `if (flag & bit)`, `__syscall(SYS_fcntl, …, cmd, arg);` for both descriptors. The results are not
looked at. -/
def setBoth (w : World) (flag bit cmd arg : CInt) (p : Process) : Process :=
  if flag &&& bit ≠ 0 then
    let (_, p) := p.syscall w (.fcntl w.fds.1 cmd arg)
    let (_, p) := p.syscall w (.fcntl w.fds.2 cmd arg)
    p
  else p

/-- `pipe2`. -/
def pipe2 (w : World) (fd : Pointer) (flag : CInt) (p : Process) : Int × Process :=
  if flag = 0 then p.pipe w
  else
    let (r, p) := p.syscallInt w (.pipe2 fd flag)
    if r ≠ negated .ENOSYS then p.ret r
    else
      let (r, p) := p.pipe w
      if r ≠ 0 then (r, p)
      else
        let p := setBoth w flag O_CLOEXEC F_SETFD FD_CLOEXEC p
        let p := setBoth w flag O_NONBLOCK F_SETFL O_NONBLOCK p
        (0, p)

/-- `while ((r=__syscall(…))==-EBUSY);` -/
def whileBusy (w : World) (call : Call) : Nat → Process → Option (CInt × Process)
  | 0, _ => none
  | fuel + 1, p =>
    let (r, p) := p.syscallInt w call
    if r = negated .EBUSY then whileBusy w call fuel p else some (r, p)

/-- `dup3` from the loop around `SYS_dup2` on. -/
def dup2Loop (fuel : Nat) (w : World) (old new flags : CInt) (p : Process) :
    Option (Int × Process) := do
  let (r, p) ← whileBusy w (.dup2 old new) fuel p
  let p := if flags &&& O_CLOEXEC ≠ 0 then (p.syscall w (.fcntl new F_SETFD FD_CLOEXEC)).2 else p
  return p.ret r

/-- `dup3`. -/
def dup3 (fuel : Nat) (arch : Arch) (w : World) (old new flags : CInt) (p : Process) :
    Option (Int × Process) :=
  match arch with
  | .x86_64 =>
    if old = new then some (p.ret (negated .EINVAL))
    else if flags &&& O_CLOEXEC ≠ 0 then do
      let (r, p) ← whileBusy w (.dup3 old new flags) fuel p
      if r ≠ negated .ENOSYS then return p.ret r
      else dup2Loop fuel w old new flags p
    else dup2Loop fuel w old new flags p
  | .aarch64 => do
    let (r, p) ← whileBusy w (.dup3 old new flags) fuel p
    return p.ret r

def UTIME_NOW : Long := 0x3fffffff
def UTIME_OMIT : Long := 0x3ffffffe
def AT_FDCWD : CInt := -100

/-- One turn of the loop over `times`, with the other of the two at hand: the older format, `none` to
leave the loop with `tv = 0`, or an error. -/
def checkTime (time other : Timespec) : Except Errno (Option Timeval) :=
  if time.tvNsec ≥ 1000000000 then
    if time.tvNsec = UTIME_NOW ∧ other.tvNsec = UTIME_NOW then .ok none
    else if time.tvNsec = UTIME_OMIT then .error .ENOSYS
    else .error .EINVAL
  else .ok (some ⟨time.tvSec, time.tvNsec.sdiv 1000⟩)

/-- The loop over `times`: what `tv` points to afterwards. -/
def timevals : Option (Timespec × Timespec) → Except Errno (Option (Timeval × Timeval))
  | none => .ok none
  | some (first, second) => do
    match ← checkTime first second with
    | none => return none
    | some tv₁ =>
      match ← checkTime second first with
      | none => return none
      | some tv₂ => return some (tv₁, tv₂)

/-- From `SYS_futimesat` on. -/
def futimesat (w : World) (fd : CInt) (path : Pointer) (tv : Option (Timeval × Timeval))
    (p : Process) : Int × Process :=
  let (r, p) := p.syscallInt w (.futimesat fd path tv)
  if r ≠ negated .ENOSYS ∨ fd ≠ AT_FDCWD then p.ret r
  else
    let (r, p) := p.syscallInt w (.utimes path tv)
    p.ret r

/-- The text that `utimensat` and `futimens` share. -/
def setTimes (arch : Arch) (w : World) (fd : CInt) (path : Pointer)
    (times : Option (Timespec × Timespec)) (flags : CInt) (p : Process) : Int × Process :=
  let (r, p) := p.syscallInt w (.utimensat fd path times flags)
  match arch with
  | .x86_64 =>
    if r ≠ negated .ENOSYS ∨ flags ≠ 0 then p.ret r
    else
      match timevals times with
      | .error e => p.ret (negated e)
      | .ok tv => futimesat w fd path tv p
  | .aarch64 => p.ret r

/-- `utimensat`. -/
def utimensat (arch : Arch) (w : World) (fd : CInt) (path : Pointer)
    (times : Option (Timespec × Timespec)) (flags : CInt) (p : Process) : Int × Process :=
  setTimes arch w fd path times flags p

/-- `futimens`: without a path and flags. -/
def futimens (arch : Arch) (w : World) (fd : CInt) (times : Option (Timespec × Timespec))
    (p : Process) : Int × Process :=
  setTimes arch w fd 0 times 0 p

/-- The wrappers, with their arguments. -/
inductive Wrapper where
  | syncFileRange (fd : CInt) (pos len : Long) (flags : CInt)
  | eventfd (count flags : CInt)
  | epollCreate1 (flags : CInt)
  | epollPwait (fd : CInt) (ev : Pointer) (cnt timeout : CInt) (sigs : Pointer)
  | inotifyInit1 (flags : CInt)
  | pipe2 (fd : Pointer) (flag : CInt)
  | dup3 (old new flags : CInt)
  | utimensat (fd : CInt) (path : Pointer) (times : Option (Timespec × Timespec)) (flags : CInt)
  | futimens (fd : CInt) (times : Option (Timespec × Timespec))
  | clockGetres (clk : CInt) (ts : Pointer)
  | clockSettime (clk : CInt) (ts : Pointer)

/-- A call of a wrapper: what it returns, and the process afterwards. Only `dup3` has a loop, which
may make `fuel` turns at most. -/
def Wrapper.run (fuel : Nat) (arch : Arch) (w : World) : Wrapper → Process → Option (Int × Process)
  | .syncFileRange fd pos len flags, p => some (Wrappers.syncFileRange w fd pos len flags p)
  | .eventfd count flags, p => some (Wrappers.eventfd arch w count flags p)
  | .epollCreate1 flags, p => some (Wrappers.epollCreate1 arch w flags p)
  | .epollPwait fd ev cnt timeout sigs, p =>
    some (Wrappers.epollPwait arch w fd ev cnt timeout sigs p)
  | .inotifyInit1 flags, p => some (Wrappers.inotifyInit1 arch w flags p)
  | .pipe2 fd flag, p => some (Wrappers.pipe2 w fd flag p)
  | .dup3 old new flags, p => Wrappers.dup3 fuel arch w old new flags p
  | .utimensat fd path times flags, p => some (Wrappers.utimensat arch w fd path times flags p)
  | .futimens fd times, p => some (Wrappers.futimens arch w fd times p)
  | .clockGetres clk ts, p => some (Wrappers.clockGetres w clk ts p)
  | .clockSettime clk ts, p => some (Wrappers.clockSettime w clk ts p)

/-! ## Raw results -/

/-- A raw result in an `int`. -/
def rawInt (a : Answer) : CInt := (rawLong a).setWidth 32

theorem toNat_rawLong (a : Answer) :
    (rawLong a).toNat = match a with
      | .ok n => n.val
      | .error e => 2 ^ 64 - e.val.toNat := by
  cases a with
  | ok n =>
      have hn := n.isLt
      show (BitVec.ofInt 64 n.val).toNat = n.val
      rw [BitVec.toNat_ofInt]
      omega
  | error e =>
      have hpos := e.pos
      have hlt := e.lt
      show (BitVec.ofInt 64 (-e.val)).toNat = 2 ^ 64 - e.val.toNat
      rw [BitVec.toNat_ofInt]
      omega

theorem toNat_rawInt (a : Answer) :
    (rawInt a).toNat = match a with
      | .ok n => n.val
      | .error e => 2 ^ 32 - e.val.toNat := by
  rw [rawInt, BitVec.toNat_setWidth, toNat_rawLong]
  cases a with
  | ok n =>
      have hn := n.isLt
      show n.val % 2 ^ 32 = n.val
      omega
  | error e =>
      have hpos := e.pos
      have hlt := e.lt
      show (2 ^ 64 - e.val.toNat) % 2 ^ 32 = 2 ^ 32 - e.val.toNat
      omega

theorem toNat_negated (e : Errno) : (negated e).toNat = 2 ^ 32 - e.val.toNat := by
  have hpos := e.pos
  have hlt := e.lt
  rw [negated, BitVec.toNat_ofInt]
  omega

/-- The comparison `r == -ENOSYS` and its like. -/
theorem rawInt_eq_negated_iff (a : Answer) (e : Errno) :
    rawInt a = negated e ↔ a = .error e := by
  rw [← BitVec.toNat_inj, toNat_rawInt, toNat_negated]
  have hpos := e.pos
  have hlt := e.lt
  cases a with
  | ok n =>
      have hn := n.isLt
      constructor
      · intro h
        replace h : n.val = 2 ^ 32 - e.val.toNat := h
        omega
      · intro h
        cases h
  | error e' =>
      have hpos' := e'.pos
      have hlt' := e'.lt
      constructor
      · intro h
        replace h : 2 ^ 32 - e'.val.toNat = 2 ^ 32 - e.val.toNat := h
        rw [Errno.val_injective (show e'.val = e.val by omega)]
      · intro h
        cases h
        rfl

/-- The way through an `int` loses nothing. -/
theorem signExtend_rawInt (a : Answer) : (rawInt a).signExtend 64 = rawLong a := by
  have hmsb : (rawInt a).msb = decide (2 ^ 31 ≤ (rawInt a).toNat) := by
    rw [BitVec.msb_eq_decide]
  apply BitVec.eq_of_toNat_eq
  rw [BitVec.toNat_signExtend, BitVec.toNat_setWidth, hmsb, toNat_rawInt, toNat_rawLong]
  cases a with
  | ok n =>
      have hn := n.isLt
      show n.val % 2 ^ 64 + (if decide (2 ^ 31 ≤ n.val) = true then 2 ^ 64 - 2 ^ 32 else 0) = n.val
      rw [if_neg (by simp)]
      omega
  | error e =>
      have hpos := e.pos
      have hlt := e.lt
      show (2 ^ 32 - e.val.toNat) % 2 ^ 64
          + (if decide (2 ^ 31 ≤ 2 ^ 32 - e.val.toNat) = true then 2 ^ 64 - 2 ^ 32 else 0)
        = 2 ^ 64 - e.val.toNat
      rw [if_pos (by rw [decide_eq_true_eq]; omega)]
      omega

namespace Process

/-- **`__syscall_ret` turns a raw result into the C convention.** -/
theorem retLong_rawLong (p : Process) (a : Answer) :
    p.retLong (rawLong a) = match a with
      | .ok n => ((n.val : Int), p)
      | .error e => (-1, { p with errno := e.val }) := by
  cases a with
  | ok n =>
      have hn := n.isLt
      have hvalue : (BitVec.ofInt 32 (n.val : Int)).toInt = n.val := by
        rw [BitVec.toInt_ofInt, Int.bmod_def]
        omega
      show p.retLong (BitVec.ofInt 64 n.val) = _
      rw [retLong, syscallRet_ok (by omega) (by omega)]
      show ((BitVec.ofInt 32 (n.val : Int)).toInt, p) = _
      rw [hvalue]
  | error e =>
      show p.retLong (BitVec.ofInt 64 (-e.val)) = _
      rw [retLong, syscallRet_error]
      rfl

theorem ret_rawInt (p : Process) (a : Answer) : p.ret (rawInt a) = p.retLong (rawLong a) := by
  rw [ret, signExtend_rawInt]

theorem ret_negated (p : Process) (e : Errno) :
    p.ret (negated e) = (-1, { p with errno := e.val }) := by
  rw [← (rawInt_eq_negated_iff (.error e) e).mpr rfl, ret_rawInt, retLong_rawLong]

end Process

/-! ## The convention -/

/-- The answer to an attempt. The calls of `fcntl` only set flags of a descriptor. -/
def Event.answer : Event → Option (Except Errno Nat)
  | .syscall (.fcntl ..) _ => none
  | .syscall _ a => some (a.map (·.val))
  | .pipe a => some (a.map fun _ => 0)

def lastAttempt (events : List Event) : Option (Except Errno Nat) :=
  (events.filterMap Event.answer).getLast?

/-- The error that the loop over `times` finds, where there is one. -/
def timesCheck (arch : Arch) (times : Option (Timespec × Timespec)) : Option Errno :=
  match arch, timevals times with
  | .x86_64, .error e => some e
  | _, _ => none

theorem timesCheck_error {times : Option (Timespec × Timespec)} {e : Errno}
    (h : timevals times = .error e) : timesCheck .x86_64 times = some e := by
  unfold timesCheck
  rw [h]

/-- The error that a wrapper finds in its arguments by itself. -/
def Wrapper.ownCheck (arch : Arch) : Wrapper → Option Errno
  | .dup3 old new _ => if arch = .x86_64 ∧ old = new then some .EINVAL else none
  | .utimensat _ _ times _ => timesCheck arch times
  | .futimens _ times => timesCheck arch times
  | _ => none

/-- The C error convention: the result of the last attempt, or -1 with `errno` set to the error of the
last attempt, or to that of the wrapper's own check, made before any attempt or after one that the
kernel does not know. -/
def Convention (arch : Arch) (wrapper : Wrapper) (value : Int) (p : Process) : Prop :=
  (∃ n : Nat, lastAttempt p.events = some (.ok n) ∧ value = n) ∨
    value = -1 ∧ ∃ e : Errno, p.errno = e.val ∧
      (lastAttempt p.events = some (.error e) ∨
        wrapper.ownCheck arch = some e ∧
          (lastAttempt p.events = none ∨ lastAttempt p.events = some (.error .ENOSYS)))

/-- It holds of the returned value and the process left. -/
def Keeps (arch : Arch) (wrapper : Wrapper) (left : Int × Process) : Prop :=
  Convention arch wrapper left.1 left.2

section

variable {arch : Arch} {wrapper : Wrapper} {w : World} {p : Process}

theorem lastAttempt_concat (events : List Event) {e : Event} {o : Except Errno Nat}
    (h : e.answer = some o) : lastAttempt (events ++ [e]) = some o := by
  rw [lastAttempt, List.filterMap_append, List.filterMap_cons_some h, List.filterMap_nil,
    List.getLast?_concat]

theorem lastAttempt_concat_fcntl (events : List Event) (fd cmd arg : CInt) (a : Answer) :
    lastAttempt (events ++ [.syscall (.fcntl fd cmd arg) a]) = lastAttempt events := by
  rw [lastAttempt, List.filterMap_append, List.filterMap_cons_none rfl, List.filterMap_nil,
    List.append_nil]
  rfl

/-- **Returning what the last attempt gave**, through `__syscall_ret`. -/
theorem keeps_retLong {a : Answer} (h : lastAttempt p.events = some (a.map (·.val))) :
    Keeps arch wrapper (p.retLong (rawLong a)) := by
  rw [Process.retLong_rawLong]
  cases a with
  | ok n => exact .inl ⟨n.val, h, rfl⟩
  | error e => exact .inr ⟨rfl, e, rfl, .inl h⟩

theorem keeps_ret {a : Answer} (h : lastAttempt p.events = some (a.map (·.val))) :
    Keeps arch wrapper (p.ret (rawInt a)) := by
  rw [Process.ret_rawInt]
  exact keeps_retLong h

/-- Returning what the wrapper's own check found. -/
theorem keeps_ret_negated {e : Errno} (hcheck : wrapper.ownCheck arch = some e)
    (hlast : lastAttempt p.events = none ∨ lastAttempt p.events = some (.error .ENOSYS)) :
    Keeps arch wrapper (p.ret (negated e)) := by
  rw [Process.ret_negated]
  exact .inr ⟨rfl, e, rfl, .inr ⟨hcheck, hlast⟩⟩

/-- The C library's `pipe` keeps it. -/
theorem keeps_pipe (w : World) (p : Process) : Keeps arch wrapper (p.pipe w) := by
  rw [Process.pipe]
  split
  next => exact .inl ⟨0, lastAttempt_concat _ rfl, rfl⟩
  next e _ => exact .inr ⟨rfl, e, rfl, .inl (lastAttempt_concat _ rfl)⟩

theorem syscallInt_eq (w : World) (p : Process) (call : Call) :
    p.syscallInt w call = (rawInt (w.answers p.made), (p.syscall w call).2) := rfl

/-- A call that is not `fcntl` is the last attempt. -/
theorem lastAttempt_syscall (w : World) (p : Process) (call : Call)
    (h : ∀ a, (Event.syscall call a).answer = some (a.map (·.val))) :
    lastAttempt (p.syscall w call).2.events = some ((w.answers p.made).map (·.val)) :=
  lastAttempt_concat _ (h _)

/-- A call with an older one to fall back to, on x86_64. -/
theorem keeps_withFallback {call old : Call} {cond : Prop} [Decidable cond]
    (hcall : ∀ a, (Event.syscall call a).answer = some (a.map (·.val)))
    (hold : ∀ a, (Event.syscall old a).answer = some (a.map (·.val))) :
    Keeps arch wrapper (withFallback w call (arch.old cond old) p) := by
  rw [withFallback, syscallInt_eq, Arch.old]
  by_cases hcond : arch = .x86_64 ∧ cond
  · simp only [if_pos hcond, syscallInt_eq]
    split
    next => exact keeps_ret (lastAttempt_syscall w _ _ hold)
    next => exact keeps_ret (lastAttempt_syscall w p _ hcall)
  · simp only [if_neg hcond]
    exact keeps_ret (lastAttempt_syscall w p _ hcall)

theorem keeps_futimesat (w : World) (fd : CInt) (path : Pointer)
    (tv : Option (Timeval × Timeval)) (p : Process) :
    Keeps arch wrapper (futimesat w fd path tv p) := by
  rw [futimesat, syscallInt_eq]
  simp only
  split
  next => exact keeps_ret (lastAttempt_syscall w p _ fun _ => rfl)
  next => exact keeps_ret (lastAttempt_syscall w _ _ fun _ => rfl)

theorem keeps_setTimes {times : Option (Timespec × Timespec)}
    (hcheck : ∀ e, arch = .x86_64 → timevals times = .error e → wrapper.ownCheck arch = some e)
    (w : World) (fd : CInt) (path : Pointer) (flags : CInt) (p : Process) :
    Keeps arch wrapper (setTimes arch w fd path times flags p) := by
  have hutimensat := lastAttempt_syscall w p (.utimensat fd path times flags) fun _ => rfl
  rw [setTimes, syscallInt_eq]
  cases arch with
  | aarch64 => exact keeps_ret hutimensat
  | x86_64 =>
      simp only
      split
      next => exact keeps_ret hutimensat
      next hfallback =>
        -- the kernel does not know `utimensat`
        have hnosys : w.answers p.made = .error .ENOSYS :=
          (rawInt_eq_negated_iff _ _).mp (not_not.mp (not_or.mp hfallback).1)
        rw [hnosys] at hutimensat
        cases htimes : timevals times with
        | error e => exact keeps_ret_negated (hcheck e rfl htimes) (.inr hutimensat)
        | ok tv => exact keeps_futimesat w fd path tv _

theorem lastAttempt_setBoth (w : World) (flag bit cmd arg : CInt) (p : Process) :
    lastAttempt (setBoth w flag bit cmd arg p).events = lastAttempt p.events := by
  rw [setBoth]
  split
  next => exact (lastAttempt_concat_fcntl _ _ _ _ _).trans (lastAttempt_concat_fcntl _ _ _ _ _)
  next => rfl

theorem keeps_pipe2 (w : World) (fd : Pointer) (flag : CInt) (p : Process) :
    Keeps arch wrapper (pipe2 w fd flag p) := by
  rw [pipe2]
  split
  next => exact keeps_pipe w p
  next =>
    rw [syscallInt_eq]
    simp only
    split
    next => exact keeps_ret (lastAttempt_syscall w p _ fun _ => rfl)
    next =>
      generalize (p.syscall w (.pipe2 fd flag)).2 = p
      cases hpipe : w.pipe with
      | error e =>
          rw [Process.pipe, hpipe]
          simp only
          rw [if_pos (by decide)]
          exact .inr ⟨rfl, e, rfl, .inl (lastAttempt_concat _ rfl)⟩
      | ok =>
          rw [Process.pipe, hpipe]
          simp only
          rw [if_neg (by decide)]
          refine .inl ⟨0, ?_, rfl⟩
          rw [lastAttempt_setBoth, lastAttempt_setBoth]
          exact lastAttempt_concat _ rfl

/-! ## `EBUSY` -/

/-- From the answer numbered `i` on, the kernel does not answer `EBUSY` for ever. -/
def EndsBusy (w : World) (i : Nat) : Prop := ∃ k ≥ i, w.answers k ≠ .error .EBUSY

/-- The answer numbered `k` is the first from `i` on that is not `EBUSY`. -/
structure FirstNotBusy (w : World) (i k : Nat) : Prop where
  le : i ≤ k
  busy : ∀ j, i ≤ j → j < k → w.answers j = .error .EBUSY
  notBusy : w.answers k ≠ .error .EBUSY

theorem EndsBusy.first {i : Nat} (h : EndsBusy w i) : ∃ k, FirstNotBusy w i k := by
  classical
  have hfind := Nat.find_spec h
  refine ⟨Nat.find h, hfind.1, ?_, hfind.2⟩
  intro j hij hj
  by_contra hne
  exact Nat.find_min h hj ⟨hij, hne⟩

/-- **The loop ends with the first other answer.** -/
theorem whileBusy_of_first (p : Process) (call : Call) {fuel k : Nat}
    (h : FirstNotBusy w p.made k) (hfuel : k - p.made < fuel) :
    ∃ p' events, whileBusy w call fuel p = some (rawInt (w.answers k), p') ∧ p'.made = k + 1 ∧
      p'.events = events ++ [.syscall call (w.answers k)] := by
  induction fuel generalizing p with
  | zero => exact absurd hfuel (Nat.not_lt_zero _)
  | succ fuel ih =>
      rw [whileBusy, syscallInt_eq]
      simp only
      rcases Nat.eq_or_lt_of_le h.le with heq | hlt
      · rw [heq, if_neg (fun hbusy => h.notBusy ((rawInt_eq_negated_iff _ _).mp hbusy))]
        refine ⟨_, p.events, rfl, ?_, ?_⟩
        · rw [← heq]
          rfl
        · rw [← heq]
          rfl
      · rw [if_pos ((rawInt_eq_negated_iff _ _).mpr (h.busy _ le_rfl hlt))]
        have hrest : FirstNotBusy w (p.syscall w call).2.made k :=
          ⟨hlt, fun j hj => h.busy j (Nat.le_of_succ_le hj), h.notBusy⟩
        have hmade : (p.syscall w call).2.made = p.made + 1 := rfl
        exact ih _ hrest (by omega)

/-- And with no other. -/
theorem first_of_whileBusy {call : Call} {fuel : Nat} {r : CInt} {p' : Process}
    (h : whileBusy w call fuel p = some (r, p')) :
    ∃ k, FirstNotBusy w p.made k ∧ r = rawInt (w.answers k) ∧ p'.made = k + 1 := by
  induction fuel generalizing p with
  | zero => cases h
  | succ fuel ih =>
      rw [whileBusy, syscallInt_eq] at h
      simp only at h
      split at h
      next hbusy =>
        obtain ⟨k, hk, hr, hmade⟩ := ih h
        refine ⟨k, ⟨Nat.le_of_succ_le hk.le, ?_, hk.notBusy⟩, hr, hmade⟩
        intro j hj hjk
        rcases Nat.eq_or_lt_of_le hj with rfl | hlt
        · exact (rawInt_eq_negated_iff _ _).mp hbusy
        · exact hk.busy j hlt hjk
      next hother =>
        cases h
        refine ⟨p.made, ⟨le_rfl, fun j hj hlt => absurd hj (Nat.not_le.mpr hlt), ?_⟩, rfl, rfl⟩
        exact fun hbusy => hother ((rawInt_eq_negated_iff _ _).mpr hbusy)

theorem FirstNotBusy.ends {i k : Nat} (h : FirstNotBusy w i k) : EndsBusy w i :=
  ⟨k, h.le, h.notBusy⟩

/-! ## `dup3` -/

theorem exists_dup2Loop (arch : Arch) (wrapper : Wrapper) (p : Process) {fuel k : Nat}
    (h : FirstNotBusy w p.made k) (hfuel : k - p.made < fuel) (old new flags : CInt) :
    ∃ left, dup2Loop fuel w old new flags p = some left ∧ Keeps arch wrapper left := by
  obtain ⟨p', events, hrun, -, hevents⟩ := whileBusy_of_first p (.dup2 old new) h hfuel
  have hlast : lastAttempt p'.events = some ((w.answers k).map (·.val)) := by
    rw [hevents]
    exact lastAttempt_concat _ rfl
  rw [dup2Loop, hrun]
  refine ⟨_, rfl, ?_⟩
  split
  next => exact keeps_ret ((lastAttempt_concat_fcntl _ _ _ _ _).trans hlast)
  next => exact keeps_ret hlast

theorem endsBusy_of_dup2Loop {fuel : Nat} {old new flags : CInt} {left : Int × Process}
    (h : dup2Loop fuel w old new flags p = some left) : EndsBusy w p.made := by
  rw [dup2Loop, Option.bind_eq_bind, Option.bind_eq_some_iff] at h
  obtain ⟨⟨r, p'⟩, hrun, -⟩ := h
  obtain ⟨k, hk, -⟩ := first_of_whileBusy hrun
  exact hk.ends

/-- The loops of `dup3` end. The one around `SYS_dup2` is come to on x86_64 alone, after a first one
only if that ended with `ENOSYS`. -/
def Dup3Ends (arch : Arch) (w : World) (old new flags : CInt) : Prop :=
  match arch with
  | .x86_64 => old = new ∨ EndsBusy w 0 ∧ (flags &&& O_CLOEXEC ≠ 0 →
      ∀ k, FirstNotBusy w 0 k → w.answers k = .error .ENOSYS → EndsBusy w (k + 1))
  | .aarch64 => EndsBusy w 0

theorem FirstNotBusy.unique {i k k' : Nat} (h : FirstNotBusy w i k) (h' : FirstNotBusy w i k') :
    k = k' := by
  rcases Nat.lt_trichotomy k k' with hlt | heq | hlt
  · exact absurd (h'.busy k h.le hlt) h.notBusy
  · exact heq
  · exact absurd (h.busy k' h'.le hlt) h'.notBusy

/-- The call of `SYS_dup3`, where its loop ends and its result is returned. -/
theorem keeps_dup3Loop {k : Nat} {p' : Process} {events : List Event} {call : Call}
    (hcall : ∀ a, (Event.syscall call a).answer = some (a.map (·.val)))
    (hevents : p'.events = events ++ [.syscall call (w.answers k)]) :
    Keeps arch wrapper (p'.ret (rawInt (w.answers k))) := by
  apply keeps_ret
  rw [hevents]
  exact lastAttempt_concat _ (hcall _)

theorem exists_dup3 {old new flags : CInt} (h : Dup3Ends arch w old new flags) (errno : Int) :
    ∃ fuel left, dup3 fuel arch w old new flags ⟨errno, 0, []⟩ = some left ∧
      Keeps arch (.dup3 old new flags) left := by
  cases arch with
  | aarch64 =>
      obtain ⟨k, hk⟩ := EndsBusy.first h
      obtain ⟨p', events, hrun, -, hevents⟩ := whileBusy_of_first ⟨errno, 0, []⟩
        (.dup3 old new flags) hk (show k - 0 < k + 1 by omega)
      refine ⟨k + 1, p'.ret (rawInt (w.answers k)), ?_, keeps_dup3Loop (fun _ => rfl) hevents⟩
      rw [dup3, hrun]
      rfl
  | x86_64 =>
      by_cases hsame : old = new
      · refine ⟨0, _, by rw [dup3, if_pos hsame], ?_⟩
        exact keeps_ret_negated (if_pos ⟨rfl, hsame⟩) (.inl rfl)
      · obtain ⟨hends, hagain⟩ := h.resolve_left hsame
        obtain ⟨k, hk⟩ := hends.first
        by_cases hcloexec : flags &&& O_CLOEXEC ≠ 0
        · by_cases hnosys : w.answers k = .error .ENOSYS
          · -- both loops run
            obtain ⟨k', hk'⟩ := (hagain hcloexec k hk hnosys).first
            obtain ⟨p', events, hrun, hmade, -⟩ := whileBusy_of_first ⟨errno, 0, []⟩
              (.dup3 old new flags) hk (show k - 0 < k + k' + 1 by omega)
            rw [← hmade] at hk'
            obtain ⟨left, hleft, hkeeps⟩ := exists_dup2Loop .x86_64 (.dup3 old new flags) p'
              hk' (show k' - p'.made < k + k' + 1 by omega) old new flags
            refine ⟨k + k' + 1, left, ?_, hkeeps⟩
            rw [dup3, if_neg hsame, if_pos hcloexec, hrun]
            simp only [Option.bind_eq_bind, Option.bind_some]
            rw [if_neg (not_not.mpr ((rawInt_eq_negated_iff _ _).mpr hnosys)), hleft]
          · obtain ⟨p', events, hrun, -, hevents⟩ := whileBusy_of_first ⟨errno, 0, []⟩
              (.dup3 old new flags) hk (show k - 0 < k + 1 by omega)
            refine ⟨k + 1, p'.ret (rawInt (w.answers k)), ?_,
              keeps_dup3Loop (fun _ => rfl) hevents⟩
            rw [dup3, if_neg hsame, if_pos hcloexec, hrun]
            simp only [Option.bind_eq_bind, Option.bind_some]
            rw [if_pos (mt (rawInt_eq_negated_iff _ _).mp hnosys)]
            rfl
        · obtain ⟨left, hleft, hkeeps⟩ := exists_dup2Loop .x86_64 (.dup3 old new flags)
            ⟨errno, 0, []⟩ hk (show k - 0 < k + 1 by omega) old new flags
          refine ⟨k + 1, left, ?_, hkeeps⟩
          rw [dup3, if_neg hsame, if_neg hcloexec, hleft]

theorem dup3Ends_of_run {fuel : Nat} {old new flags : CInt} {errno : Int} {left : Int × Process}
    (h : dup3 fuel arch w old new flags ⟨errno, 0, []⟩ = some left) :
    Dup3Ends arch w old new flags := by
  cases arch with
  | aarch64 =>
      rw [dup3, Option.bind_eq_bind, Option.bind_eq_some_iff] at h
      obtain ⟨⟨r, p'⟩, hrun, -⟩ := h
      obtain ⟨k, hk, -⟩ := first_of_whileBusy hrun
      exact hk.ends
  | x86_64 =>
      by_cases hsame : old = new
      · exact .inl hsame
      · right
        rw [dup3, if_neg hsame] at h
        split at h
        next hcloexec =>
          obtain ⟨⟨r, p'⟩, hrun, hrest⟩ := Option.bind_eq_some_iff.mp h
          obtain ⟨k, hk, hr, hmade⟩ := first_of_whileBusy hrun
          refine ⟨hk.ends, fun _ k' hk' hnosys => ?_⟩
          obtain rfl := hk.unique hk'
          have hr := hr.trans ((rawInt_eq_negated_iff _ _).mpr hnosys)
          simp only [if_neg (not_not.mpr hr)] at hrest
          rw [← hmade]
          exact endsBusy_of_dup2Loop hrest
        next hcloexec =>
          exact ⟨endsBusy_of_dup2Loop h, fun hflag => absurd hflag hcloexec⟩

/-! ## Every wrapper -/

theorem toInt_rawInt (a : Answer) :
    (rawInt a).toInt = match a with
      | .ok n => (n.val : Int)
      | .error e => -e.val := by
  rw [BitVec.toInt_eq_toNat_cond, toNat_rawInt]
  cases a with
  | ok n =>
      have hn := n.isLt
      show (if 2 * n.val < 2 ^ 32 then ((n.val : Nat) : Int) else _) = n.val
      rw [if_pos (by omega)]
  | error e =>
      have hpos := e.pos
      have hlt := e.lt
      show (if 2 * (2 ^ 32 - e.val.toNat) < 2 ^ 32 then _
        else ((2 ^ 32 - e.val.toNat : Nat) : Int) - (2 ^ 32 : Nat)) = -e.val
      rw [if_neg (by omega)]
      omega

/-- `sync_file_range` returns the raw result, which is in the convention if it is no error, or if it
is -1 and says so already. -/
theorem keeps_syncFileRange_iff (w : World) (fd : CInt) (pos len : Long) (flags : CInt)
    (errno : Int) :
    Keeps arch (.syncFileRange fd pos len flags)
        (syncFileRange w fd pos len flags ⟨errno, 0, []⟩) ↔
      (∃ n, w.answers 0 = .ok n) ∨
        w.answers 0 = .error .EPERM ∧ errno = Errno.EPERM.val := by
  have hvalue : (syncFileRange w fd pos len flags ⟨errno, 0, []⟩).1 = (rawInt (w.answers 0)).toInt :=
    rfl
  have hlast : lastAttempt (syncFileRange w fd pos len flags ⟨errno, 0, []⟩).2.events
      = some ((w.answers 0).map (·.val)) := rfl
  have herrno : (syncFileRange w fd pos len flags ⟨errno, 0, []⟩).2.errno = errno := rfl
  rw [Keeps, Convention, hvalue, hlast, herrno, toInt_rawInt]
  cases w.answers 0 with
  | ok n => exact iff_of_true (.inl ⟨n.val, rfl, rfl⟩) (.inl ⟨n, rfl⟩)
  | error e =>
      constructor
      · rintro (⟨n, hok, -⟩ | ⟨hminus, e', herrno, hdecided⟩)
        · cases hok
        · right
          have he : e = .EPERM := Errno.val_injective (by
            show e.val = 1
            replace hminus : -e.val = -1 := hminus
            omega)
          rcases hdecided with herror | ⟨hcheck, -⟩
          · cases herror
            exact ⟨by rw [he], by rw [herrno, he]⟩
          · cases hcheck
      · rintro (⟨n, hok⟩ | ⟨herror, rfl⟩)
        · cases hok
        · cases herror
          exact .inr ⟨rfl, .EPERM, rfl, .inl rfl⟩

/-- When a wrapper called with `errno` set to this returns, in the C convention. -/
def Wrapper.Meets (arch : Arch) (w : World) (errno : Int) : Wrapper → Prop
  | .syncFileRange .. => (∃ n, w.answers 0 = .ok n) ∨
      w.answers 0 = .error .EPERM ∧ errno = Errno.EPERM.val
  | .dup3 old new flags => Dup3Ends arch w old new flags
  | _ => True

/-- A wrapper without a loop. -/
theorem exists_run_iff {left : Int × Process} {P : Prop}
    (hrun : ∀ fuel, wrapper.run fuel arch w p = some left) (h : Keeps arch wrapper left ↔ P) :
    (∃ fuel left, wrapper.run fuel arch w p = some left ∧ Keeps arch wrapper left) ↔ P := by
  rw [← h]
  constructor
  · rintro ⟨fuel, left', hrun', hkeeps⟩
    rw [hrun] at hrun'
    cases hrun'
    exact hkeeps
  · intro hkeeps
    exact ⟨0, left, hrun 0, hkeeps⟩

/-- **When the wrappers keep the C error convention**, for every architecture and whatever the kernel
answers: a call returns, and in the convention. -/
theorem convention_iff (wrapper : Wrapper) (arch : Arch) (w : World) (errno : Int) :
    (∃ fuel left, wrapper.run fuel arch w ⟨errno, 0, []⟩ = some left ∧ Keeps arch wrapper left) ↔
      wrapper.Meets arch w errno := by
  cases wrapper with
  | syncFileRange fd pos len flags =>
      exact exists_run_iff (fun _ => rfl) (keeps_syncFileRange_iff w fd pos len flags errno)
  | dup3 old new flags =>
      constructor
      · rintro ⟨fuel, left, hrun, -⟩
        exact dup3Ends_of_run hrun
      · intro hends
        exact exists_dup3 hends errno
  | eventfd | epollCreate1 | epollPwait | inotifyInit1 =>
      exact exists_run_iff (fun _ => rfl)
        (iff_of_true (keeps_withFallback (fun _ => rfl) fun _ => rfl) trivial)
  | pipe2 fd flag => exact exists_run_iff (fun _ => rfl) (iff_of_true (keeps_pipe2 w fd flag _) trivial)
  | utimensat fd path times flags =>
      refine exists_run_iff (fun _ => rfl) (iff_of_true (keeps_setTimes ?_ w fd path flags _) trivial)
      rintro e rfl htimes
      exact timesCheck_error htimes
  | futimens fd times =>
      refine exists_run_iff (fun _ => rfl) (iff_of_true (keeps_setTimes ?_ w fd 0 0 _) trivial)
      rintro e rfl htimes
      exact timesCheck_error htimes
  | clockGetres | clockSettime =>
      exact exists_run_iff (fun _ => rfl)
        (iff_of_true (keeps_retLong (lastAttempt_syscall w _ _ fun _ => rfl)) trivial)

end

/-- A kernel that answers `EBADF` to everything. -/
def badDescriptor : World := ⟨fun _ => .error .EBADF, .error .EBADF, (0, 0)⟩

/-- `sync_file_range` of a descriptor that is not open returns -9, with `errno` as it was. -/
theorem syncFileRange_raw :
    (syncFileRange badDescriptor (-1) 0 0 0 ⟨0, 0, []⟩).1 = -9 ∧
      ¬ ∃ fuel left, (Wrapper.syncFileRange (-1) 0 0 0).run fuel .x86_64 badDescriptor ⟨0, 0, []⟩
          = some left ∧ Keeps .x86_64 (.syncFileRange (-1) 0 0 0) left := by
  refine ⟨by decide, ?_⟩
  rintro ⟨fuel, left, hrun, hkeeps⟩
  cases hrun
  rcases (keeps_syncFileRange_iff badDescriptor _ _ _ _ 0).mp hkeeps with ⟨n, hok⟩ | ⟨herror, -⟩
  · cases hok
  · cases herror

end LdbToolchain.Wrappers
