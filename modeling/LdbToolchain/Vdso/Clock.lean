import LdbToolchain.Vdso.Image
import LdbToolchain.Vdso.Lazy

/-!
# The time

Under which names the initialisers look the vDSO's functions up, and what `clock_gettime` and
`timespec_get` give to any number of threads. Whichever of the vDSO, the
system call and `gettimeofday` answers in the end, the result is the time it told, to the microsecond
at least, or an error; and the error is never `ENOSYS`, which only says that somebody else should be
asked.
-/

namespace LdbToolchain.Vdso

open Memory Threads Linearizable Wrappers

/-! ## The symbols -/

def bytes (s : String) : List Byte := s.toList.map fun c => BitVec.ofNat 8 c.toNat

def VDSO_CGT_SYM : Arch → List Byte
  | .x86_64 => bytes "__vdso_clock_gettime"
  | .aarch64 => bytes "__kernel_clock_gettime"

def VDSO_CGT_VER : Arch → List Byte
  | .x86_64 => bytes "LINUX_2.6"
  | .aarch64 => bytes "LINUX_2.6.39"

def VDSO_GETCPU_SYM : List Byte := bytes "__vdso_getcpu"
def VDSO_GETCPU_VER : List Byte := bytes "LINUX_2.6"

/-- What the initialisers look up. -/
def findSymbols (fuel : Nat) (m : Mem 64 Byte) (eh : Addr) (arch : Arch) : Option Symbols := do
  let cgt ← vdsosym fuel m eh (VDSO_CGT_VER arch) (VDSO_CGT_SYM arch)
  let getcpu ← match arch with
    | .x86_64 => vdsosym fuel m eh VDSO_GETCPU_VER VDSO_GETCPU_SYM
    | .aarch64 => some none
  return ⟨cgt, getcpu⟩

theorem findSymbols_eq {img : Image} {m : Mem 64 Byte} {eh : Addr} (hat : img.At m eh) {fuel : Nat}
    (hdyns : img.dyns.length < fuel) (hverdefs : img.verdefs.length ≤ fuel) (arch : Arch) :
    findSymbols fuel m eh arch = some ⟨img.address eh (VDSO_CGT_VER arch) (VDSO_CGT_SYM arch),
      if arch = .x86_64 then img.address eh VDSO_GETCPU_VER VDSO_GETCPU_SYM else none⟩ := by
  have hcgt : vdsosym fuel m eh (VDSO_CGT_VER arch) (VDSO_CGT_SYM arch)
      = some (img.address eh (VDSO_CGT_VER arch) (VDSO_CGT_SYM arch)) := by
    cases arch with
    | x86_64 => exact vdsosym_eq_address hat (by decide) (by decide) hdyns hverdefs
    | aarch64 => exact vdsosym_eq_address hat (by decide) (by decide) hdyns hverdefs
  have hgetcpu : vdsosym fuel m eh VDSO_GETCPU_VER VDSO_GETCPU_SYM
      = some (img.address eh VDSO_GETCPU_VER VDSO_GETCPU_SYM) :=
    vdsosym_eq_address hat (by decide) (by decide) hdyns hverdefs
  cases arch with
  | x86_64 =>
      rw [findSymbols, hcgt, hgetcpu]
      rfl
  | aarch64 =>
      rw [findSymbols, hcgt]
      rfl

/-! ## The answers -/

/-- `ret` on the raw result of a call. -/
theorem ret_rawInt (a : Answer) (errno : Int) :
    ret (rawInt a) errno = match a with
      | .ok n => ((n.val : Int), errno)
      | .error e => (-1, e.val) := by
  have h := Process.retLong_rawLong ⟨errno, 0, []⟩ a
  rw [← Process.ret_rawInt] at h
  have hret : ret (rawInt a) errno
      = ((Process.ret ⟨errno, 0, []⟩ (rawInt a)).1, (Process.ret ⟨errno, 0, []⟩ (rawInt a)).2.errno) :=
    rfl
  rw [hret, h]
  cases a with
  | ok n => rfl
  | error e => rfl

theorem ret_negated (e : Errno) (errno : Int) : ret (negated e) errno = (-1, e.val) := by
  rw [← (rawInt_eq_negated_iff (.error e) e).mpr rfl, ret_rawInt]

/-- `(int)ts->tv_nsec * 1000` does not overflow on microseconds. -/
theorem nsec_of_usec {usec : Long} (h : usec.toNat < 1000000) :
    ((usec.setWidth 32 : CInt) * 1000).signExtend 64 = usec * 1000 := by
  have hnat : ((usec.setWidth 32 : CInt) * 1000).toNat = usec.toNat * 1000 := by
    rw [BitVec.toNat_mul, BitVec.toNat_setWidth]
    show usec.toNat % 2 ^ 32 * 1000 % 2 ^ 32 = _
    omega
  have hmsb : ((usec.setWidth 32 : CInt) * 1000).msb = false := by
    rw [BitVec.msb_eq_decide, hnat]
    simp only [decide_eq_false_iff_not]
    omega
  apply BitVec.eq_of_toNat_eq
  rw [BitVec.toNat_signExtend, BitVec.toNat_setWidth, hmsb, hnat, BitVec.toNat_mul]
  show usec.toNat * 1000 % 2 ^ 64 + 0 = usec.toNat * 1000 % 2 ^ 64
  omega

/-- The time is `t` nanoseconds or `tv` microseconds: whoever answers without an error tells it. -/
structure ClockCall.Tells (c : ClockCall) (t : Timespec) (tv : Timeval) : Prop where
  vdso : ∀ p ts, (c.vdso p ts).1 = 0 → (c.vdso p ts).2 = t
  gettime : ∀ ts n, (c.gettime ts).1 = .ok n → n = 0 ∧ (c.gettime ts).2 = t
  gettimeofday : ∀ ts, c.gettimeofday ts = ⟨tv.tvSec, tv.tvUsec⟩
  usec : tv.tvUsec.toNat < 1000000

/-- The time, or an error other than `ENOSYS`. -/
def ClockResult.Right (r : ClockResult) (errno : Int) (t : Timespec) (tv : Timeval) : Prop :=
  (r.ret = 0 ∧ r.errno = errno ∧ (r.ts = t ∨ r.ts = ⟨tv.tvSec, tv.tvUsec * 1000⟩)) ∨
    (r.ret = -1 ∧ ∃ e : Errno, e ≠ .ENOSYS ∧ r.errno = e.val)

theorem viaSyscall_right {c : ClockCall} {t : Timespec} {tv : Timeval} (h : c.Tells t tv)
    (ts : Timespec) : (c.viaSyscall ts).Right c.errno t tv := by
  unfold ClockCall.viaSyscall
  obtain ⟨a, hanswer⟩ : ∃ a, (c.gettime ts).1 = a := ⟨_, rfl⟩
  dsimp only
  rw [hanswer]
  by_cases hunknown : rawInt a = negated .ENOSYS
  · rw [if_pos hunknown]
    by_cases hclk : c.clk = CLOCK_REALTIME
    · rw [if_pos hclk, h.gettimeofday]
      exact .inl ⟨rfl, rfl, .inr (congrArg (Timespec.mk tv.tvSec) (nsec_of_usec h.usec))⟩
    · rw [if_neg hclk, ret_negated]
      exact .inr ⟨rfl, .EINVAL, by decide, rfl⟩
  · rw [if_neg hunknown, ret_rawInt]
    cases a with
    | ok n =>
        obtain ⟨hn, hts⟩ := h.gettime ts n hanswer
        subst hn
        exact .inl ⟨rfl, rfl, .inl hts⟩
    | error e =>
        refine .inr ⟨rfl, e, ?_, rfl⟩
        intro he
        exact hunknown ((rawInt_eq_negated_iff _ _).mpr (by rw [he]))

theorem direct_right {c : ClockCall} {t : Timespec} {tv : Timeval} (h : c.Tells t tv)
    (p : Option Pointer) : (c.direct p).Right c.errno t tv := by
  cases p with
  | none => exact viaSyscall_right h c.ts
  | some p =>
      unfold ClockCall.direct ClockCall.afterVdso
      dsimp only
      by_cases hzero : (c.vdso p c.ts).1 = 0
      · rw [if_pos hzero]
        exact .inl ⟨rfl, rfl, .inl (h.vdso p c.ts hzero)⟩
      rw [if_neg hzero]
      by_cases hinval : (c.vdso p c.ts).1 = negated .EINVAL
      · rw [if_pos hinval, hinval, ret_negated]
        exact .inr ⟨rfl, .EINVAL, by decide, rfl⟩
      · rw [if_neg hinval]
        exact viaSyscall_right h _

/-- `timespec_get` returns its base where it has the time, and 0 otherwise. -/
def ClockResult.RightFor (r : ClockResult) (base : CInt) (t : Timespec) (tv : Timeval) : Prop :=
  (base = TIME_UTC ∧ r.ret = base.toInt ∧ (r.ts = t ∨ r.ts = ⟨tv.tvSec, tv.tvUsec * 1000⟩)) ∨
    r.ret = 0

theorem directTimespec_right {c : ClockCall} {t : Timespec} {tv : Timeval} (h : c.Tells t tv)
    (base : CInt) (p : Option Pointer) : (c.directTimespec base p).RightFor base t tv := by
  unfold ClockCall.directTimespec
  by_cases hbase : base ≠ TIME_UTC
  · rw [if_pos hbase]
    exact .inr rfl
  · rw [if_neg hbase]
    have htells : ClockCall.Tells { c with clk := CLOCK_REALTIME } t tv :=
      ⟨h.vdso, h.gettime, h.gettimeofday, h.usec⟩
    rcases direct_right htells p with ⟨hret, -, hts⟩ | ⟨hret, -⟩
    · left
      refine ⟨not_not.mp hbase, ?_, hts⟩
      rw [ClockResult.based, hret]
      rfl
    · right
      rw [ClockResult.based, hret]
      rfl

/-- **Every thread gets the time.** In every state that calls from any threads lead to, a finished
call of `clock_gettime` or `timespec_get` has the time its answers tell, or has failed. -/
theorem clocks_right {ι : Type} [DecidableEq ι] {arch : Arch} {syms : Symbols} {s : Shared}
    {es : List (Ev ι Op Result)} {threads : ι → Thread Op (Prog Shared Result)}
    (hrun : ((impl ι (code arch syms)).system (· = .initial)).Run (.initial, fun _ => .idle) es
      (s, threads)) {c : ClockCall} {t : Timespec} {tv : Timeval} (h : c.Tells t tv) :
    (∀ i r, threads i = .running (.clockGettime c) (.ret r) →
      ∃ r', r = .clock r' ∧ r'.Right c.errno t tv) ∧
    ∀ i base r, threads i = .running (.timespecGet base c) (.ret r) →
      ∃ r', r = .clock r' ∧ r'.RightFor base t tv := by
  have hkeeps := keeps_run (P := protocol syms) (fun op _ _ => safe_code op)
    ⟨.inl rfl, .inl rfl⟩ hrun
  constructor
  · intro i r hi
    have hanswer : r = answer arch syms (.clockGettime c) :=
      hkeeps.safe i _ _ hi s ((protocol syms).refl s) hkeeps.inv
    exact ⟨_, hanswer, direct_right h syms.cgt⟩
  · intro i base r hi
    have hanswer : r = answer arch syms (.timespecGet base c) :=
      hkeeps.safe i _ _ hi s ((protocol syms).refl s) hkeeps.inv
    exact ⟨_, hanswer, directTimespec_right h base syms.cgt⟩

theorem askEarly_tells : askEarly.Tells ⟨0, 0⟩ ⟨5, 7⟩ where
  vdso _ _ h := absurd h (show negated .ENOSYS ≠ 0 by decide)
  gettime _ _ h := by cases h
  gettimeofday _ := rfl
  usec := by decide

/-- Neither the vDSO nor the kernel knows the clock: the time comes from `gettimeofday`. -/
theorem clocks_right_early : ∃ r', Result.clock ⟨0, 0, ⟨5, 7000⟩⟩ = .clock r' ∧
    r'.Right 0 ⟨0, 0⟩ ⟨5, 7⟩ := by
  obtain ⟨⟨s, threads⟩, hrun, hdone⟩ : ∃ t, ((impl Unit (code .aarch64 ⟨some 64, none⟩)).system
      (· = .initial)).Run (.initial, fun _ => .idle) [.call () (.clockGettime askEarly)] t ∧
      t.2 () = .running (.clockGettime askEarly) (.ret (.clock ⟨0, 0, ⟨5, 7000⟩⟩)) :=
    ⟨_, .visible (.call rfl) <| .silent (.work (i := ()) rfl ⟨_, _, rfl, rfl, rfl⟩) <|
      .silent (.work (i := ()) rfl ⟨_, _, rfl, rfl, rfl⟩) <| .nil _, rfl⟩
  exact (clocks_right hrun askEarly_tells).1 () _ hdone

end LdbToolchain.Vdso
