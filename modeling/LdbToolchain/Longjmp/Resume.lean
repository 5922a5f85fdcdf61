import LdbToolchain.Longjmp.X86
import LdbToolchain.Longjmp.Aarch64

/-!
# `__longjmp_chk`

What the caller of setjmp is promised: its registers as they were, and `val` as the value of setjmp,
or 1 if `val` is 0. `__longjmp_chk` leaves both to `musl_glibc_longjmp`. The x86_64 routine moves
`val` to `%eax` as it is; the aarch64 routine replaces a 0, but looks for it in all of `x1`.
-/

namespace LdbToolchain.Longjmp

open LdbToolchain.Memory

abbrev Word := BitVec 64

/-- The value of setjmp's second return. -/
def secondReturn (val : BitVec 32) : BitVec 32 := if val = 0 then 1 else val

variable {val upper : BitVec 32}

/-- **On x86_64 setjmp returns 0 once more when `val` is 0.** -/
theorem x86_returns_iff {s : X86.State} {env : Word} {c : X86.Context}
    (h : X86.SavedAt s.mem env s.guard c) :
    (∃ s', X86.longjmpChk s env val upper = some s' ∧ X86.Restored c s' ∧
      s'.eax = secondReturn val) ↔ val ≠ 0 := by
  obtain ⟨s', hrun, hrestored, heax⟩ := X86.longjmpChk_restores h val upper
  constructor
  · intro hreturn hzero
    obtain ⟨t, ht, -, hsecond⟩ := hreturn
    rw [hrun] at ht
    cases ht
    rw [heax, hzero] at hsecond
    exact absurd hsecond (by decide)
  · intro hne
    refine ⟨s', hrun, hrestored, ?_⟩
    rw [heax, secondReturn, if_neg hne]

/-- `x1` is zero when both of its halves are. -/
theorem append_eq_zero : (upper ++ val : Word) = 0 ↔ upper = 0 ∧ val = 0 := by
  constructor
  · intro h
    have hupper := congrArg (BitVec.extractLsb' 32 32) h
    have hval := congrArg (BitVec.setWidth 32) h
    rw [BitVec.extractLsb'_append_eq_left] at hupper
    rw [BitVec.setWidth_append_eq_right] at hval
    exact ⟨hupper, hval⟩
  · intro h
    rw [h.1, h.2]
    rfl

/-- **On aarch64 a `val` of 0 is replaced when the upper half of `x1` is zero too.** The registers
and the address to go on at come from the `jmp_buf` in any case. -/
theorem aarch64_returns_iff {s : Aarch64.State} {env : Word} :
    (∃ s', Aarch64.longjmpChk s env val upper = some s' ∧ Aarch64.Loaded s.mem env s' ∧
      s'.pc = loadWord s.mem (env + 88) ∧ s'.w0 = secondReturn val) ↔ val ≠ 0 ∨ upper = 0 := by
  obtain ⟨s', hrun, hloaded, hpc, hx0⟩ := Aarch64.longjmpChk_loads s env val upper
  have hw0 : s'.w0 = if upper = 0 ∧ val = 0 then 1 else val := by
    rw [Aarch64.State.w0, hx0]
    by_cases hzero : (upper ++ val : Word) = 0
    · rw [if_pos hzero, if_pos (append_eq_zero.mp hzero)]
      rfl
    · rw [if_neg hzero, if_neg (fun h => hzero (append_eq_zero.mpr h))]
      exact BitVec.setWidth_append_eq_right
  have hreturn : s'.w0 = secondReturn val ↔ val ≠ 0 ∨ upper = 0 := by
    rw [hw0, secondReturn]
    by_cases hval : val = 0
    · rw [if_pos hval]
      by_cases hupper : upper = 0
      · rw [if_pos ⟨hupper, hval⟩]
        exact iff_of_true rfl (Or.inr hupper)
      · rw [if_neg (fun h => hupper h.1), hval]
        exact iff_of_false (by decide) (not_or.mpr ⟨not_not.mpr rfl, hupper⟩)
    · rw [if_neg hval, if_neg (fun h => hval h.2)]
      exact iff_of_true rfl (Or.inl hval)
  rw [← hreturn]
  constructor
  · intro h
    obtain ⟨t, ht, -, -, hsecond⟩ := h
    rw [hrun] at ht
    cases ht
    exact hsecond
  · intro hsecond
    exact ⟨s', hrun, hloaded, hpc, hsecond⟩

/-- `__longjmp_chk(env, val)` resumes on both architectures as setjmp's callers are promised: with
their registers, at the address that setjmp returns to, and with the value of its second return. -/
structure Resumes (x : X86.State) (c : X86.Context) (a : Aarch64.State) (env env' : Word)
    (val upper upper' : BitVec 32) : Prop where
  x86 : ∃ s', X86.longjmpChk x env val upper = some s' ∧ X86.Restored c s' ∧
    s'.eax = secondReturn val
  aarch64 : ∃ s', Aarch64.longjmpChk a env' val upper' = some s' ∧
    Aarch64.Loaded a.mem env' s' ∧ s'.pc = loadWord a.mem (env' + 88) ∧ s'.w0 = secondReturn val

/-- **`__longjmp_chk` resumes as promised exactly for a `val` that is not 0**, whatever the pointer
guard and the saved context. -/
theorem longjmpChk_resumes_iff {x : X86.State} {c : X86.Context} {env : Word}
    (h : X86.SavedAt x.mem env x.guard c) (a : Aarch64.State) (env' : Word)
    (val upper upper' : BitVec 32) :
    Resumes x c a env env' val upper upper' ↔ val ≠ 0 := by
  constructor
  · intro hresumes
    exact (x86_returns_iff h).mp hresumes.x86
  · intro hval
    exact ⟨(x86_returns_iff h).mpr hval, aarch64_returns_iff.mpr (Or.inl hval)⟩

/-! ### A context -/

def savedContext : X86.Context where
  rbx := 1
  rbp := 0x7ffe00000100
  r12 := 2
  r13 := 3
  r14 := 4
  r15 := 5
  rsp := 0x7ffe000000f0
  rip := 0x401136

def pointerGuard : Word := 0xdeadbeefcafef00d

/-- The pointer guard at `0x7030`, and a `jmp_buf` everywhere else. -/
def savedMemory : Mem 64 X86.Byte := fun a =>
  let word : Word :=
    if a.toNat / 8 = 0x7030 / 8 then pointerGuard
    else [savedContext.rbx, X86.mangle pointerGuard savedContext.rbp, savedContext.r12,
      savedContext.r13, savedContext.r14, savedContext.r15,
      X86.mangle pointerGuard savedContext.rsp,
      X86.mangle pointerGuard savedContext.rip].getD (a.toNat / 8 % 8) 0
  Lanes.lane 8 word (a.toNat % 8)

def x86State : X86.State where
  regs _ := 0
  rip := 0
  fs := 0x7000
  mem := savedMemory

def aarch64State : Aarch64.State where
  x _ := 0
  sp := 0
  pc := 0
  d _ := 0
  mem := savedMemory

theorem savedMemory_savedAt : X86.SavedAt x86State.mem 0x1000 x86State.guard savedContext := by
  constructor <;> decide +kernel

theorem longjmpChk_resumes_iff_saved :
    Resumes x86State savedContext aarch64State 0x1000 0x1000 42 0 0 ↔ (42 : BitVec 32) ≠ 0 :=
  longjmpChk_resumes_iff savedMemory_savedAt aarch64State 0x1000 42 0 0

/-- `longjmp(env, 0)`. -/
theorem longjmpChk_zero_not_resumes :
    X86.SavedAt x86State.mem 0x1000 x86State.guard savedContext ∧
      ¬ Resumes x86State savedContext aarch64State 0x1000 0x1000 0 0 0 := by
  refine ⟨savedMemory_savedAt, ?_⟩
  intro hresumes
  exact (x86_returns_iff savedMemory_savedAt).mp hresumes.x86 rfl

end LdbToolchain.Longjmp
