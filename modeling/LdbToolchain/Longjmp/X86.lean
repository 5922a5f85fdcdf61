import LdbToolchain.Lib.Code
import LdbToolchain.Lib.Memory

/-!
# `musl_glibc_longjmp` on x86_64

The instructions of `musl/x86_64/longjmp.s`, the machine they run on, and what setjmp left in the
`jmp_buf`. glibc keeps the stack pointer, the frame pointer and the return address there in mangled
form: exclusive-ored with the pointer guard of the thread, which is at `%fs:0x30`, and rotated left
by 17 bits. The flags are left out: no instruction of the routine reads one.
-/

namespace LdbToolchain.Longjmp.X86

open LdbToolchain.Code LdbToolchain.Memory

abbrev Word := BitVec 64

abbrev Byte := BitVec 8

inductive Reg where
  | rax | rcx | rdx | rbx | rsp | rbp | rsi | rdi | r8 | r9 | r10 | r11 | r12 | r13 | r14 | r15
  deriving DecidableEq

structure State where
  regs : Reg → Word
  rip : Word
  /-- The base of the `%fs` segment. -/
  fs : Word
  mem : Mem 64 Byte

def State.set (s : State) (r : Reg) (v : Word) : State :=
  { s with regs := Function.update s.regs r v }

@[simp] theorem State.set_regs (s : State) (r x : Reg) (v : Word) :
    (s.set r v).regs x = if x = r then v else s.regs x := Function.update_apply s.regs r v x
@[simp] theorem State.set_rip (s : State) (r : Reg) (v : Word) : (s.set r v).rip = s.rip := rfl
@[simp] theorem State.set_fs (s : State) (r : Reg) (v : Word) : (s.set r v).fs = s.fs := rfl
@[simp] theorem State.set_mem (s : State) (r : Reg) (v : Word) : (s.set r v).mem = s.mem := rfl

/-- Operands stand in the order of the source: what is read first, what is written last. -/
inductive Instr where
  /-- `mov disp(base),dst` -/
  | load (disp : Word) (base dst : Reg)
  /-- `ror $count,dst` -/
  | ror (count : Nat) (dst : Reg)
  /-- `xor %fs:disp,dst` -/
  | xorFs (disp : Word) (dst : Reg)
  /-- `mov src,dst` on the lower halves, which clears the upper half of `dst` -/
  | movl (src dst : Reg)
  /-- `mov src,dst` -/
  | mov (src dst : Reg)
  /-- `jmpq *reg` -/
  | jmp (target : Reg)

def exec : Instr → State → Outcome State
  | .load disp base dst, s => .next (s.set dst (loadWord s.mem (s.regs base + disp)))
  | .ror count dst, s => .next (s.set dst ((s.regs dst).rotateRight count))
  | .xorFs disp dst, s => .next (s.set dst (s.regs dst ^^^ loadWord s.mem (s.fs + disp)))
  | .movl src dst, s => .next (s.set dst (((s.regs src).setWidth 32).setWidth 64))
  | .mov src dst, s => .next (s.set dst (s.regs src))
  | .jmp target, s => .leave { s with rip := s.regs target }

def isa : Isa Instr State where
  exec := exec
  label _ := none

def muslGlibcLongjmp : List Instr := [
  .load 0x30 .rdi .r8,
  .load 0x8 .rdi .r9,
  .load 0x38 .rdi .rdx,
  .ror 0x11 .r8,
  .xorFs 0x30 .r8,
  .ror 0x11 .r9,
  .xorFs 0x30 .r9,
  .ror 0x11 .rdx,
  .xorFs 0x30 .rdx,
  .load 0 .rdi .rbx,
  .load 0x10 .rdi .r12,
  .load 0x18 .rdi .r13,
  .load 0x20 .rdi .r14,
  .load 0x28 .rdi .r15,
  .movl .rsi .rax,
  .mov .r8 .rsp,
  .mov .r9 .rbp,
  .jmp .rdx]

/-- `__longjmp_chk(env, val)`, which hands its arguments on as they are. The calling convention
leaves the upper half of the register of an `int` argument open. -/
def longjmpChk (s : State) (env : Word) (val upper : BitVec 32) : Option State :=
  isa.run muslGlibcLongjmp ((s.set .rdi env).set .rsi (upper ++ val))

/-- What the caller of setjmp finds in `%eax`. -/
def State.eax (s : State) : BitVec 32 := (s.regs .rax).setWidth 32

/-! ## The saved context -/

/-- The registers a second return of setjmp brings back. -/
structure Context where
  (rbx rbp r12 r13 r14 r15 rsp rip : Word)

/-- glibc's `PTR_MANGLE`. -/
def mangle (guard v : Word) : Word := (v ^^^ guard).rotateLeft 17

/-- The `jmp_buf` at `env` as glibc's setjmp fills it. -/
structure SavedAt (m : Mem 64 Byte) (env guard : Word) (c : Context) : Prop where
  rbx : loadWord m env = c.rbx
  rbp : loadWord m (env + 0x8) = mangle guard c.rbp
  r12 : loadWord m (env + 0x10) = c.r12
  r13 : loadWord m (env + 0x18) = c.r13
  r14 : loadWord m (env + 0x20) = c.r14
  r15 : loadWord m (env + 0x28) = c.r15
  rsp : loadWord m (env + 0x30) = mangle guard c.rsp
  rip : loadWord m (env + 0x38) = mangle guard c.rip

/-- The pointer guard of the thread. -/
def State.guard (s : State) : Word := loadWord s.mem (s.fs + 0x30)

/-- The saved registers are back, and the run goes on at the saved address. -/
structure Restored (c : Context) (s : State) : Prop where
  rbx : s.regs .rbx = c.rbx
  rbp : s.regs .rbp = c.rbp
  r12 : s.regs .r12 = c.r12
  r13 : s.regs .r13 = c.r13
  r14 : s.regs .r14 = c.r14
  r15 : s.regs .r15 = c.r15
  rsp : s.regs .rsp = c.rsp
  rip : s.rip = c.rip

theorem rotateRight_rotateLeft {w r : Nat} (x : BitVec w) (hr : r < w) :
    (x.rotateLeft r).rotateRight r = x := by
  apply BitVec.eq_of_getLsbD_eq
  intro i hi
  rw [BitVec.getLsbD_rotateRight_of_lt hr, BitVec.getLsbD_rotateLeft_of_le hr,
    BitVec.getLsbD_rotateLeft_of_le hr]
  by_cases hlow : i < w - r
  · have hlt : r + i < w := by omega
    simp [hlow, hlt]
  · have hwrap : i - (w - r) < r := by omega
    have hback : w - r + (i - (w - r)) = i := by omega
    simp [hlow, hi, hwrap, hback]

/-- `ror` and `xor` undo `PTR_MANGLE`. -/
theorem demangle_mangle (guard v : Word) : (mangle guard v).rotateRight 17 ^^^ guard = v := by
  rw [mangle, rotateRight_rotateLeft _ (by decide), BitVec.xor_assoc, BitVec.xor_self,
    BitVec.xor_zero]

/-- No instruction writes memory. -/
theorem exec_mem (i : Instr) (s : State) : (exec i s).state.mem = s.mem := by
  cases i <;> rfl

/-- The jump leaves memory, the `jmp_buf` included, as it was. -/
theorem longjmpChk_mem {s s' : State} {env : Word} {val upper : BitVec 32}
    (h : longjmpChk s env val upper = some s') : s'.mem = s.mem := by
  apply run_preserves (P := fun t => t.mem = s.mem) _ h rfl
  intro i _ t ht
  show (exec i t).state.mem = s.mem
  rw [exec_mem, ht]

/-- **The jump restores what setjmp saved**, whatever the guard, and `%eax` is `val`. -/
theorem longjmpChk_restores {s : State} {env : Word} {c : Context}
    (h : SavedAt s.mem env s.guard c) (val upper : BitVec 32) :
    ∃ s', longjmpChk s env val upper = some s' ∧ Restored c s' ∧ s'.eax = val := by
  unfold longjmpChk muslGlibcLongjmp
  repeat rw [run_next rfl]
  rw [run_leave rfl]
  refine ⟨_, rfl, ⟨?_, ?_, ?_, ?_, ?_, ?_, ?_, ?_⟩, ?_⟩
  · show loadWord s.mem (env + 0) = c.rbx
    rw [show env + 0 = env from BitVec.add_zero env, h.rbx]
  · show (loadWord s.mem (env + 0x8)).rotateRight 17 ^^^ s.guard = c.rbp
    rw [h.rbp, demangle_mangle]
  · exact h.r12
  · exact h.r13
  · exact h.r14
  · exact h.r15
  · show (loadWord s.mem (env + 0x30)).rotateRight 17 ^^^ s.guard = c.rsp
    rw [h.rsp, demangle_mangle]
  · show (loadWord s.mem (env + 0x38)).rotateRight 17 ^^^ s.guard = c.rip
    rw [h.rip, demangle_mangle]
  · show (((upper ++ val).setWidth 32).setWidth 64).setWidth 32 = val
    rw [BitVec.setWidth_append_eq_right, BitVec.setWidth_setWidth_of_le _ (by decide),
      BitVec.setWidth_eq]

end LdbToolchain.Longjmp.X86
