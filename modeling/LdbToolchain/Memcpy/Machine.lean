import LdbToolchain.Lib.Lanes
import LdbToolchain.Lib.Memory
import LdbToolchain.Lib.Wp

/-!
# The machine `inline_memcpy` runs on

Addresses and `size_t` are 64-bit words, memory is byte addressed. A run keeps, next to the memory,
the list of what it did that matters from outside: the loads and stores it issued, the subtractions
it made on `size` (they are unsigned and would wrap silently), and each entry into the branch for
large sizes. Nothing in the program reads that list.

The two source files differ in their vector intrinsics only: `memcpy_x86_64.cpp` takes them from
`emmintrin.h`, `memcpy_aarch64.cpp` defines them over NEON. `Simd` is what the common body uses of
them, and `x86_64` and `aarch64` are the two instances.
-/

namespace LdbToolchain.Memcpy

open LdbToolchain.Memory LdbToolchain.Lanes

/-- Pointers and `size_t`. -/
abbrev Word := BitVec 64

abbrev Byte := BitVec 8

/-- What a run is seen to do. -/
inductive Event where
  /-- `len` bytes loaded from `addr` on. -/
  | load (addr : Word) (len : Nat)
  /-- `len` bytes stored from `addr` on; `aligned` for the stores issued by `_mm_store_si128`. -/
  | store (addr : Word) (len : Nat) (aligned : Bool)
  /-- `size - k` was computed. -/
  | subSize (size k : Word)
  /-- The branch for large sizes was entered. -/
  | large
  deriving DecidableEq

structure Machine where
  mem : Mem 64 Byte
  trace : List Event

/-- The one thing that can go wrong: an aligned store at an address that is not. -/
inductive Fault where
  | misaligned (addr : Word)
  deriving DecidableEq

abbrev M := StateT Machine (Except Fault)

def Machine.log (s : Machine) (e : Event) : Machine := { s with trace := s.trace ++ [e] }

@[simp] theorem Machine.log_mem (s : Machine) (e : Event) : (s.log e).mem = s.mem := rfl

def Machine.write (s : Machine) (a : Word) (bs : List Byte) : Machine :=
  { s with mem := writeBytes s.mem a bs }

def emit (e : Event) : M PUnit := modify (·.log e)

def load (a : Word) (k : Nat) : M (List Byte) := do
  emit (.load a k)
  return readBytes (← get).mem a k

def store (aligned : Bool) (a : Word) (bs : List Byte) : M PUnit := do
  emit (.store a bs.length aligned)
  modify (·.write a bs)

/-- `size - k`. -/
def minusSize (size k : Word) : M Word := do
  emit (.subSize size k)
  return size - k

/-- `p + size - k`, the address `k` before the end of the block at `p`. -/
def fromEnd (p size k : Word) : M Word := do
  emit (.subSize size k)
  return p + size - k

/-- `__builtin_memcpy(dst, src, k)` with a constant `k`: one load and one store. -/
def builtinMemcpy (dst src : Word) (k : Nat) : M PUnit := do
  store false dst (← load src k)

/-! ## Vector registers -/

/-- A 16-byte vector unit: what `_mm_loadu_si128` makes of 16 bytes of memory, what the store
intrinsics make of a register, and whether `_mm_store_si128` insists on alignment. -/
structure Simd where
  Reg : Type
  ofBytes : List Byte → Reg
  toBytes : Reg → List Byte
  alignedOnly : Bool
  length_toBytes : ∀ r, (toBytes r).length = 16
  toBytes_ofBytes : ∀ bs, bs.length = 16 → toBytes (ofBytes bs) = bs

def mmLoaduSi128 (V : Simd) (p : Word) : M V.Reg := do
  return V.ofBytes (← load p 16)

def mmStoreuSi128 (V : Simd) (p : Word) (a : V.Reg) : M PUnit :=
  store false p (V.toBytes a)

def mmStoreSi128 (V : Simd) (p : Word) (a : V.Reg) : M PUnit := do
  if V.alignedOnly = true ∧ p % 16 ≠ 0 then
    throw (.misaligned p)
  store true p (V.toBytes a)

/-- SSE2: a register is a 128-bit word, little endian in memory, and `movdqa` faults on an address
that is not a multiple of 16. -/
def x86_64 : Simd where
  Reg := BitVec 128
  ofBytes := ofLanes 128
  toBytes := toLanes 8 16
  alignedOnly := true
  length_toBytes := by simp [toLanes]
  toBytes_ofBytes := by
    intro bs hbs
    have h := toLanes_ofLanes (n := 128) bs (by simp [hbs])
    rwa [hbs] at h

/-! ### NEON

`__m128i` is `int64x2_t` there; loads and stores go through `int32x4_t`. -/

structure Int32x4 where
  (a0 a1 a2 a3 : BitVec 32)

structure Int64x2 where
  (b0 b1 : BitVec 64)

/-- Four consecutive 32-bit elements, each little endian in memory. -/
def vld1qS32 (bs : List Byte) : Int32x4 where
  a0 := ofLanes 32 (bs.take 4)
  a1 := ofLanes 32 ((bs.drop 4).take 4)
  a2 := ofLanes 32 ((bs.drop 8).take 4)
  a3 := ofLanes 32 (bs.drop 12)

def vst1qS32 (v : Int32x4) : List Byte :=
  toLanes 8 4 v.a0 ++ toLanes 8 4 v.a1 ++ toLanes 8 4 v.a2 ++ toLanes 8 4 v.a3

def vreinterpretqM128iS32 (v : Int32x4) : Int64x2 where
  b0 := ofLanes 64 [v.a0, v.a1]
  b1 := ofLanes 64 [v.a2, v.a3]

def vreinterpretqS32M128i (v : Int64x2) : Int32x4 where
  a0 := lane 32 v.b0 0
  a1 := lane 32 v.b0 1
  a2 := lane 32 v.b1 0
  a3 := lane 32 v.b1 1

/-- Reinterpretation moves no bit. -/
theorem vreinterpretq_roundtrip (v : Int32x4) :
    vreinterpretqS32M128i (vreinterpretqM128iS32 v) = v := by
  obtain ⟨a0, a1, a2, a3⟩ := v
  have low : ∀ a b : BitVec 32, lane 32 (ofLanes 64 [a, b]) 0 = a := fun a b =>
    lane_ofLanes (n := 64) [a, b] (by simp) (i := 0) (by simp)
  have high : ∀ a b : BitVec 32, lane 32 (ofLanes 64 [a, b]) 1 = b := fun a b =>
    lane_ofLanes (n := 64) [a, b] (by simp) (i := 1) (by simp)
  simp only [vreinterpretqM128iS32, vreinterpretqS32M128i, low, high]

theorem vst1q_vld1q {bs : List Byte} (hbs : bs.length = 16) : vst1qS32 (vld1qS32 bs) = bs := by
  have piece : ∀ l : List Byte, l.length = 4 → toLanes 8 4 (ofLanes 32 l) = l := by
    intro l hl
    have h := toLanes_ofLanes (n := 32) l (by omega)
    rwa [hl] at h
  unfold vst1qS32 vld1qS32
  rw [piece _ (by simp [hbs]), piece _ (by simp [hbs]), piece _ (by simp [hbs]),
    piece _ (by simp [hbs]), List.append_assoc, List.append_assoc]
  have join : ∀ k, (bs.drop k).take 4 ++ bs.drop (k + 4) = bs.drop k := by
    intro k
    rw [← List.drop_drop, List.take_append_drop]
  rw [join 8, join 4, List.take_append_drop]

/-- NEON: both stores are `vst1q_s32`, which asks for no alignment. -/
def aarch64 : Simd where
  Reg := Int64x2
  ofBytes bs := vreinterpretqM128iS32 (vld1qS32 bs)
  toBytes a := vst1qS32 (vreinterpretqS32M128i a)
  alignedOnly := false
  length_toBytes := by simp [vst1qS32, toLanes]
  toBytes_ofBytes := by
    intro bs hbs
    rw [vreinterpretq_roundtrip, vst1q_vld1q hbs]

end LdbToolchain.Memcpy
