import LdbToolchain.Lib.Threads
import LdbToolchain.Wrappers

/-!
# Calls through the vDSO

`clock_gettime` and `sched_getcpu` call a function of the vDSO where there is one, and the kernel
otherwise. Each has a pointer `vdso_func` of its own, which starts at an initialiser; the first call
looks the function up and moves the pointer. No thread can tell: whatever the pointers hold and
whoever moves them in between, each call is answered as if the lookup had been made at once
(`calls_linearizable`). The pointer for `sched_getcpu` is on x86-64 only.
-/

namespace LdbToolchain.Vdso

open Threads Linearizable Wrappers

/-- What `vdso_func` holds: the initialiser, or the address found, `none` for `NULL`. -/
inductive VdsoFunc where
  | init
  | found (p : Option Pointer)
  deriving DecidableEq

/-- The static variables of the two files. -/
structure Shared where
  cgt : VdsoFunc
  getcpu : VdsoFunc

/-- What `__vdsosym` finds for each of them. -/
structure Symbols where
  cgt : Option Pointer
  getcpu : Option Pointer

/-! ## clock_gettime -/

def CLOCK_REALTIME : CInt := 0

/-- A call of `clock_gettime`, and how it would be answered: by a function of the vDSO, by the system
call, and by `gettimeofday`. Each says what it leaves in `*ts`. -/
structure ClockCall where
  clk : CInt
  ts : Timespec
  errno : Int
  vdso : Pointer → Timespec → CInt × Timespec
  gettime : Timespec → Answer × Timespec
  gettimeofday : Timespec → Timespec

/-- What a call returns, with `errno` and `*ts`. -/
structure ClockResult where
  ret : Int
  errno : Int
  ts : Timespec

/-- `return __syscall_ret(r);` -/
def ret (r : CInt) (errno : Int) : Int × Int :=
  let (value, errno) := syscallRet (r.signExtend 64) errno
  ((BitVec.ofInt 32 value).toInt, errno)

/-- `clock_gettime` from its system call on. -/
def ClockCall.viaSyscall (c : ClockCall) (ts : Timespec) : ClockResult :=
  let (answer, ts) := c.gettime ts
  let r := rawInt answer
  if r = negated .ENOSYS then
    if c.clk = CLOCK_REALTIME then
      let ts := c.gettimeofday ts
      ⟨0, c.errno, { ts with tvNsec := ((ts.tvNsec.setWidth 32 : CInt) * 1000).signExtend 64 }⟩
    else
      let (value, errno) := ret (negated .EINVAL) c.errno
      ⟨value, errno, ts⟩
  else
    let (value, errno) := ret r c.errno
    ⟨value, errno, ts⟩

/-- `clock_gettime` after the call of `f`. -/
def ClockCall.afterVdso (c : ClockCall) (r : CInt) (ts : Timespec) : ClockResult :=
  if r = 0 then
    ⟨0, c.errno, ts⟩
  else if r = negated .EINVAL then
    let (value, errno) := ret r c.errno
    ⟨value, errno, ts⟩
  else
    -- some vDSOs do not know every clock
    c.viaSyscall ts

/-- `-ENOSYS` stands for there being no function at all. -/
theorem ClockCall.afterVdso_unknown (c : ClockCall) (ts : Timespec) :
    c.afterVdso (negated .ENOSYS) ts = c.viaSyscall ts := by
  rw [afterVdso, if_neg (by decide), if_neg (by decide)]

/-- `a_cas_p(&vdso_func, (void *)cgt_init, p)`. -/
def casCgt (p : Option Pointer) : Prog Shared Unit :=
  .write fun s => if s.cgt = .init then { s with cgt := .found p } else s

/-- `cgt_init`. -/
def cgtInit (syms : Symbols) (c : ClockCall) : Prog Shared (CInt × Timespec) := do
  casCgt syms.cgt
  match syms.cgt with
  | some p => return c.vdso p c.ts
  | none => return (negated .ENOSYS, c.ts)

/-- `clock_gettime`. -/
def clockGettime (syms : Symbols) (c : ClockCall) : Prog Shared ClockResult := do
  match ← .read fun s => s.cgt with
  | .found none => return c.viaSyscall c.ts
  | .found (some p) => return c.afterVdso (c.vdso p c.ts).1 (c.vdso p c.ts).2
  | .init =>
      let r ← cgtInit syms c
      return c.afterVdso r.1 r.2

/-- `clock_gettime` with its function at hand. -/
def ClockCall.direct (c : ClockCall) : Option Pointer → ClockResult
  | some p => c.afterVdso (c.vdso p c.ts).1 (c.vdso p c.ts).2
  | none => c.viaSyscall c.ts

def TIME_UTC : CInt := 1

/-- What `timespec_get` makes of the result of `clock_gettime`. -/
def ClockResult.based (r : ClockResult) (base : CInt) : ClockResult :=
  { r with ret := if r.ret < 0 then 0 else base.toInt }

/-- `timespec_get`. -/
def timespecGet (syms : Symbols) (base : CInt) (c : ClockCall) : Prog Shared ClockResult := do
  if base ≠ TIME_UTC then return ⟨0, c.errno, c.ts⟩
  else
    let r ← clockGettime syms { c with clk := CLOCK_REALTIME }
    return r.based base

/-- `timespec_get` with the function at hand. -/
def ClockCall.directTimespec (c : ClockCall) (base : CInt) (p : Option Pointer) : ClockResult :=
  if base ≠ TIME_UTC then ⟨0, c.errno, c.ts⟩
  else ({ c with clk := CLOCK_REALTIME }.direct p).based base

/-! ## sched_getcpu -/

/-- A call of `sched_getcpu`, and how it would be answered: each answer with what it leaves in
`cpu`. -/
structure GetcpuCall where
  errno : Int
  vdso : Pointer → BitVec 32 → CInt × BitVec 32
  getcpu : BitVec 32 → Answer × BitVec 32

/-- `sched_getcpu` from its system call on. -/
def GetcpuCall.viaSyscall (c : GetcpuCall) (cpu : BitVec 32) : Int × Int :=
  let (answer, cpu) := c.getcpu cpu
  let r := rawInt answer
  if r = 0 then (cpu.toInt, c.errno) else ret r c.errno

/-- `sched_getcpu` after the call of `f`. -/
def GetcpuCall.afterVdso (c : GetcpuCall) (r : CInt) (cpu : BitVec 32) : Int × Int :=
  if r = 0 then (cpu.toInt, c.errno)
  else if r ≠ negated .ENOSYS then ret r c.errno
  else c.viaSyscall cpu

theorem GetcpuCall.afterVdso_unknown (c : GetcpuCall) (cpu : BitVec 32) :
    c.afterVdso (negated .ENOSYS) cpu = c.viaSyscall cpu := by
  rw [afterVdso, if_neg (by decide), if_neg (by simp)]

/-- `a_cas_p(&vdso_func, (void *)getcpu_init, p)`. -/
def casGetcpu (p : Option Pointer) : Prog Shared Unit :=
  .write fun s => if s.getcpu = .init then { s with getcpu := .found p } else s

/-- `getcpu_init`. -/
def getcpuInit (syms : Symbols) (c : GetcpuCall) : Prog Shared (CInt × BitVec 32) := do
  casGetcpu syms.getcpu
  match syms.getcpu with
  | some p => return c.vdso p 0
  | none => return (negated .ENOSYS, 0)

/-- `sched_getcpu`. -/
def schedGetcpu (arch : Arch) (syms : Symbols) (c : GetcpuCall) : Prog Shared (Int × Int) :=
  match arch with
  | .aarch64 => return c.viaSyscall 0
  | .x86_64 => do
      match ← .read fun s => s.getcpu with
      | .found none => return c.viaSyscall 0
      | .found (some p) => return c.afterVdso (c.vdso p 0).1 (c.vdso p 0).2
      | .init =>
          let r ← getcpuInit syms c
          return c.afterVdso r.1 r.2

/-- `sched_getcpu` with its function at hand. -/
def GetcpuCall.direct (c : GetcpuCall) : Arch → Option Pointer → Int × Int
  | .x86_64, some p => c.afterVdso (c.vdso p 0).1 (c.vdso p 0).2
  | _, _ => c.viaSyscall 0

/-! ## Every history -/

/-- The calls of the threads. -/
inductive Op where
  | clockGettime (c : ClockCall)
  | timespecGet (base : CInt) (c : ClockCall)
  | schedGetcpu (c : GetcpuCall)

inductive Result where
  | clock (r : ClockResult)
  | cpu (ret errno : Int)

def code (arch : Arch) (syms : Symbols) : Op → Prog Shared Result
  | .clockGettime c => do return .clock (← clockGettime syms c)
  | .timespecGet base c => do return .clock (← timespecGet syms base c)
  | .schedGetcpu c => do
      let r ← schedGetcpu arch syms c
      return .cpu r.1 r.2

/-- The answer when the functions are at hand. -/
def answer (arch : Arch) (syms : Symbols) : Op → Result
  | .clockGettime c => .clock (c.direct syms.cgt)
  | .timespecGet base c => .clock (c.directTimespec base syms.cgt)
  | .schedGetcpu c => .cpu (c.direct arch syms.getcpu).1 (c.direct arch syms.getcpu).2

/-- The pointers are where they were, or where they belong. -/
structure Resolving (syms : Symbols) (s : Shared) : Prop where
  cgt : s.cgt = .init ∨ s.cgt = .found syms.cgt
  getcpu : s.getcpu = .init ∨ s.getcpu = .found syms.getcpu

/-- A pointer moves once. -/
structure Settled (s s' : Shared) : Prop where
  cgt : s.cgt ≠ .init → s'.cgt = s.cgt
  getcpu : s.getcpu ≠ .init → s'.getcpu = s.getcpu

theorem Settled.trans {s s' s'' : Shared} (h : Settled s s') (h' : Settled s' s'') :
    Settled s s'' where
  cgt hs := by
    have heq := h.cgt hs
    rw [h'.cgt (by rwa [heq]), heq]
  getcpu hs := by
    have heq := h.getcpu hs
    rw [h'.getcpu (by rwa [heq]), heq]

def protocol (syms : Symbols) : Protocol Shared where
  Inv := Resolving syms
  Forward := Settled
  refl _ := ⟨fun _ => rfl, fun _ => rfl⟩
  trans := Settled.trans

variable {arch : Arch} {syms : Symbols} {s : Shared}

theorem safe_casCgt : Safe (protocol syms) (fun _ _ => True) (casCgt syms.cgt) s := by
  apply Safe.write
  intro s' _ hinv
  by_cases h : s'.cgt = .init
  · rw [if_pos h]
    exact ⟨⟨.inr rfl, hinv.getcpu⟩, ⟨fun hne => absurd h hne, fun _ => rfl⟩, fun _ _ _ => trivial⟩
  · rw [if_neg h]
    exact ⟨hinv, (protocol syms).refl s', fun _ _ _ => trivial⟩

theorem safe_casGetcpu : Safe (protocol syms) (fun _ _ => True) (casGetcpu syms.getcpu) s := by
  apply Safe.write
  intro s' _ hinv
  by_cases h : s'.getcpu = .init
  · rw [if_pos h]
    exact ⟨⟨hinv.cgt, .inr rfl⟩, ⟨fun _ => rfl, fun hne => absurd h hne⟩, fun _ _ _ => trivial⟩
  · rw [if_neg h]
    exact ⟨hinv, (protocol syms).refl s', fun _ _ _ => trivial⟩

theorem safe_clockGettime (c : ClockCall) :
    Safe (protocol syms) (fun r _ => r = c.direct syms.cgt) (clockGettime syms c) s := by
  have hread : Safe (protocol syms) (fun f _ => f = .init ∨ f = .found syms.cgt)
      (.read fun s => s.cgt) s := Safe.read fun _ _ hinv _ _ _ => hinv.cgt
  refine hread.bind fun f s₁ _ _ hf => ?_
  rcases hf with rfl | rfl
  · -- the first call of this thread
    refine Safe.bind (Q := fun r _ => c.afterVdso r.1 r.2 = c.direct syms.cgt) ?_ ?_
    · refine safe_casCgt.bind fun _ s₂ _ _ _ => ?_
      cases hsym : syms.cgt with
      | some p => exact Safe.pure fun _ _ _ => rfl
      | none => exact Safe.pure fun _ _ _ => c.afterVdso_unknown c.ts
    · intro r s₂ _ _ hr
      exact Safe.pure fun _ _ _ => hr
  · cases hsym : syms.cgt with
    | some p => exact Safe.pure fun _ _ _ => rfl
    | none => exact Safe.pure fun _ _ _ => rfl

theorem safe_timespecGet (base : CInt) (c : ClockCall) :
    Safe (protocol syms) (fun r _ => r = c.directTimespec base syms.cgt) (timespecGet syms base c)
      s := by
  unfold timespecGet ClockCall.directTimespec
  by_cases hbase : base ≠ TIME_UTC
  · rw [if_pos hbase, if_pos hbase]
    exact Safe.pure fun _ _ _ => rfl
  · rw [if_neg hbase, if_neg hbase]
    refine (safe_clockGettime _).bind fun r _ _ _ hr => ?_
    exact Safe.pure fun _ _ _ => by rw [hr]

theorem safe_schedGetcpu (c : GetcpuCall) :
    Safe (protocol syms) (fun r _ => r = c.direct arch syms.getcpu) (schedGetcpu arch syms c) s := by
  cases arch with
  | aarch64 => exact Safe.pure fun _ _ _ => rfl
  | x86_64 =>
      have hread : Safe (protocol syms) (fun f _ => f = .init ∨ f = .found syms.getcpu)
          (.read fun s => s.getcpu) s := Safe.read fun _ _ hinv _ _ _ => hinv.getcpu
      refine hread.bind fun f s₁ _ _ hf => ?_
      rcases hf with rfl | rfl
      · refine Safe.bind (Q := fun r _ => c.afterVdso r.1 r.2 = c.direct .x86_64 syms.getcpu) ?_ ?_
        · refine safe_casGetcpu.bind fun _ s₂ _ _ _ => ?_
          cases hsym : syms.getcpu with
          | some p => exact Safe.pure fun _ _ _ => rfl
          | none => exact Safe.pure fun _ _ _ => c.afterVdso_unknown 0
        · intro r s₂ _ _ hr
          exact Safe.pure fun _ _ _ => hr
      · cases hsym : syms.getcpu with
        | some p => exact Safe.pure fun _ _ _ => rfl
        | none => exact Safe.pure fun _ _ _ => rfl

theorem safe_code (op : Op) :
    Safe (protocol syms) (fun r _ => r = answer arch syms op) (code arch syms op) s := by
  cases op with
  | clockGettime c =>
      refine (safe_clockGettime c).bind fun r _ _ _ hr => ?_
      exact Safe.pure fun _ _ _ => by rw [hr]; rfl
  | timespecGet base c =>
      refine (safe_timespecGet base c).bind fun r _ _ _ hr => ?_
      exact Safe.pure fun _ _ _ => by rw [hr]; rfl
  | schedGetcpu c =>
      refine (safe_schedGetcpu c).bind fun r _ _ _ hr => ?_
      exact Safe.pure fun _ _ _ => by rw [hr]; rfl

/-- How the two files start. -/
def Shared.initial : Shared := ⟨.init, .init⟩

/-- **No thread can tell when the functions were looked up**: every history of calls is one in which
they were at hand from the start. -/
theorem calls_linearizable {ι : Type} [DecidableEq ι] (arch : Arch) (syms : Symbols)
    {es : List (Ev ι Op Result)}
    (htrace : ((impl ι (code arch syms)).system (· = .initial)).Trace es) :
    (atomicObject (fun op (u : Unit) => (u, answer arch syms op)) ()).Trace es :=
  linearizable (P := protocol syms) (fun op _ _ => safe_code op) ⟨.inl rfl, .inl rfl⟩ htrace

/-- A clock that the vDSO does not know, on a kernel without the system call. -/
def askEarly : ClockCall where
  clk := CLOCK_REALTIME
  ts := ⟨0, 0⟩
  errno := 0
  vdso _ ts := (negated .ENOSYS, ts)
  gettime ts := (.error .ENOSYS, ts)
  gettimeofday _ := ⟨5, 7⟩

/-- The second thread calls while the first has read the pointer and not yet moved it. -/
theorem calls_linearizable_early :
    (atomicObject (ι := Bool) (fun op (u : Unit) => (u, answer .x86_64 ⟨some 64, none⟩ op)) ()).Trace
      [.call false (.clockGettime askEarly), .call true (.clockGettime askEarly),
        .ret true (.clock ⟨0, 0, ⟨5, 7000⟩⟩), .ret false (.clock ⟨0, 0, ⟨5, 7000⟩⟩)] :=
  calls_linearizable .x86_64 ⟨some 64, none⟩
    ⟨_, _, ⟨rfl, rfl⟩,
      .visible (.call rfl) <| .visible (.call rfl) <|
      .silent (.work (i := false) rfl ⟨_, _, rfl, rfl, rfl⟩) <|
      .silent (.work (i := true) rfl ⟨_, _, rfl, rfl, rfl⟩) <|
      .silent (.work (i := true) rfl ⟨_, _, rfl, rfl, rfl⟩) <|
      .visible (.ret (i := true) rfl rfl) <|
      .silent (.work (i := false) rfl ⟨_, _, rfl, rfl, rfl⟩) <|
      .visible (.ret (i := false) rfl rfl) <| .nil _⟩

end LdbToolchain.Vdso
