import LdbToolchain.Lib.Code
import LdbToolchain.Lib.Memory

/-!
# `musl_glibc_longjmp` on aarch64

The instructions of `musl/aarch64/longjmp.s` and the machine they run on. `val` arrives in the lower
half of `x1`; the routine tests all of `x1`.
-/

namespace LdbToolchain.Longjmp.Aarch64

open LdbToolchain.Code LdbToolchain.Memory

abbrev Word := BitVec 64

abbrev Byte := BitVec 8

structure State where
  /-- `x0` to `x30`. -/
  x : Fin 31 → Word
  sp : Word
  pc : Word
  /-- `d0` to `d31`. -/
  d : Fin 32 → Word
  mem : Mem 64 Byte

def State.setX (s : State) (r : Fin 31) (v : Word) : State :=
  { s with x := Function.update s.x r v }

def State.setD (s : State) (r : Fin 32) (v : Word) : State :=
  { s with d := Function.update s.d r v }

theorem State.setX_setX (s : State) (r : Fin 31) (v w : Word) :
    (s.setX r v).setX r w = s.setX r w := by
  unfold State.setX
  rw [Function.update_idem]

/-- Operands stand in the order of the source: what is written first. -/
inductive Instr where
  /-- `ldp xt1, xt2, [xbase,#imm]` -/
  | ldp (t1 t2 base : Fin 31) (imm : Word)
  /-- `ldr xt, [xbase,#imm]` -/
  | ldr (t base : Fin 31) (imm : Word)
  /-- `mov sp, xsrc` -/
  | movSp (src : Fin 31)
  /-- `ldp dt1, dt2, [xbase,#imm]` -/
  | ldpD (t1 t2 : Fin 32) (base : Fin 31) (imm : Word)
  /-- `mov xdst, xsrc` -/
  | mov (dst src : Fin 31)
  /-- `cbnz xt, lf`: on to the next label `l` unless `xt` is zero -/
  | cbnz (t : Fin 31) (l : Nat)
  /-- `mov xdst, #imm` -/
  | movImm (dst : Fin 31) (imm : Word)
  /-- `l:` -/
  | label (l : Nat)
  /-- `br xt` -/
  | br (t : Fin 31)

def exec : Instr → State → Outcome State
  | .ldp t1 t2 base imm, s =>
    let a := s.x base + imm
    .next ((s.setX t1 (loadWord s.mem a)).setX t2 (loadWord s.mem (a + 8)))
  | .ldr t base imm, s => .next (s.setX t (loadWord s.mem (s.x base + imm)))
  | .movSp src, s => .next { s with sp := s.x src }
  | .ldpD t1 t2 base imm, s =>
    let a := s.x base + imm
    .next ((s.setD t1 (loadWord s.mem a)).setD t2 (loadWord s.mem (a + 8)))
  | .mov dst src, s => .next (s.setX dst (s.x src))
  | .cbnz t l, s => if s.x t ≠ 0 then .skip l s else .next s
  | .movImm dst imm, s => .next (s.setX dst imm)
  | .label _, s => .next s
  | .br t, s => .leave { s with pc := s.x t }

def isa : Isa Instr State where
  exec := exec
  label
    | .label l => some l
    | _ => none

def muslGlibcLongjmp : List Instr := [
  .ldp 19 20 0 0,
  .ldp 21 22 0 16,
  .ldp 23 24 0 32,
  .ldp 25 26 0 48,
  .ldp 27 28 0 64,
  .ldp 29 30 0 80,
  .ldr 2 0 104,
  .movSp 2,
  .ldpD 8 9 0 112,
  .ldpD 10 11 0 128,
  .ldpD 12 13 0 144,
  .ldpD 14 15 0 160,
  .mov 0 1,
  .cbnz 1 1,
  .movImm 0 1,
  .label 1,
  .br 30]

/-- `__longjmp_chk(env, val)`, which hands its arguments on as they are. The calling convention
leaves the upper half of the register of an `int` argument open. -/
def longjmpChk (s : State) (env : Word) (val upper : BitVec 32) : Option State :=
  isa.run muslGlibcLongjmp ((s.setX 0 env).setX 1 (upper ++ val))

/-- What the caller of setjmp finds in `w0`. -/
def State.w0 (s : State) : BitVec 32 := (s.x 0).setWidth 32

/-- The callee-saved registers hold the words of the `jmp_buf` at `env`. -/
structure Loaded (m : Mem 64 Byte) (env : Word) (s : State) : Prop where
  x : ∀ r : Fin 31, 19 ≤ r.val → s.x r = loadWord m (env + BitVec.ofNat 64 (8 * (r.val - 19)))
  sp : s.sp = loadWord m (env + 104)
  d : ∀ r : Fin 32, 8 ≤ r.val → r.val < 16 →
    s.d r = loadWord m (env + BitVec.ofNat 64 (112 + 8 * (r.val - 8)))

/-- No instruction writes memory. -/
theorem exec_mem (i : Instr) (s : State) : (exec i s).state.mem = s.mem := by
  cases i with
  | cbnz t l =>
      show (if s.x t ≠ 0 then Outcome.skip l s else Outcome.next s).state.mem = s.mem
      split <;> rfl
  | _ => rfl

theorem longjmpChk_mem {s s' : State} {env : Word} {val upper : BitVec 32}
    (h : longjmpChk s env val upper = some s') : s'.mem = s.mem := by
  apply run_preserves (P := fun t => t.mem = s.mem) _ h rfl
  intro i _ t ht
  show (exec i t).state.mem = s.mem
  rw [exec_mem, ht]

/-- The routine up to its return value. -/
theorem run_loads (s : State) :
    ∃ t, isa.run muslGlibcLongjmp s = isa.run (muslGlibcLongjmp.drop 12) t ∧
      Loaded s.mem (s.x 0) t ∧ t.x 1 = s.x 1 := by
  unfold muslGlibcLongjmp
  iterate 12 rw [run_next rfl]
  refine ⟨_, rfl, ⟨?_, rfl, ?_⟩, rfl⟩
  · intro r hr
    obtain ⟨n, hn⟩ := r
    interval_cases n <;> simp [State.setX, State.setD, Function.update, BitVec.add_assoc]
  · intro r hr hr'
    obtain ⟨n, hn⟩ := r
    interval_cases n <;> simp [State.setX, State.setD, Function.update, BitVec.add_assoc]

/-- The rest of it: the test is made on all of `x1`. -/
theorem run_return (t : State) :
    isa.run (muslGlibcLongjmp.drop 12) t
      = some { t.setX 0 (if t.x 1 = 0 then 1 else t.x 1) with pc := t.x 30 } := by
  show isa.run [.mov 0 1, .cbnz 1 1, .movImm 0 1, .label 1, .br 30] t = _
  rw [run_next rfl]
  by_cases hzero : t.x 1 = 0
  · have hstay : isa.exec (.cbnz 1 1) (t.setX 0 (t.x 1)) = .next (t.setX 0 (t.x 1)) :=
      if_neg (not_not.mpr hzero)
    rw [run_next hstay, run_next rfl, run_next rfl, run_leave rfl, if_pos hzero]
    show some { (t.setX 0 (t.x 1)).setX 0 1 with pc := t.x 30 } = _
    rw [State.setX_setX]
  · have hjump : isa.exec (.cbnz 1 1) (t.setX 0 (t.x 1)) = .skip 1 (t.setX 0 (t.x 1)) :=
      if_pos hzero
    rw [run_skip hjump]
    show isa.run [.label 1, .br 30] (t.setX 0 (t.x 1)) = _
    rw [run_next rfl, run_leave rfl, if_neg hzero]
    rfl

/-- **The jump loads every callee-saved register from its place** and goes on at the address in
`x30`, with `x1` in `x0`, or 1 when all of `x1` is zero. -/
theorem longjmpChk_loads (s : State) (env : Word) (val upper : BitVec 32) :
    ∃ s', longjmpChk s env val upper = some s' ∧ Loaded s.mem env s' ∧
      s'.pc = loadWord s.mem (env + 88) ∧
      s'.x 0 = if (upper ++ val : Word) = 0 then 1 else upper ++ val := by
  obtain ⟨t, hrun, hloaded, hval⟩ := run_loads ((s.setX 0 env).setX 1 (upper ++ val))
  rw [run_return, hval] at hrun
  refine ⟨_, hrun, ⟨?_, hloaded.sp, hloaded.d⟩, hloaded.x 30 (by decide), rfl⟩
  intro r hr
  have hne : r ≠ 0 := by
    rintro rfl
    exact absurd hr (by decide)
  show Function.update t.x 0 _ r = _
  rw [Function.update_of_ne hne]
  exact hloaded.x r hr

end LdbToolchain.Longjmp.Aarch64
