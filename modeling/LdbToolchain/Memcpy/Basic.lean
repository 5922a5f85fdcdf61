import LdbToolchain.Memcpy.Machine

/-!
# `inline_memcpy`

`memcpy_x86_64.cpp` and `memcpy_aarch64.cpp` share their body word for word, so it is translated
once, over a vector unit `V`. The label `tail` is a function of the registers `dst`, `src` and
`size`; the `goto tail` after the unrolled loop is its recursive call, which is well founded because
the loop leaves fewer than 128 bytes.
-/

namespace LdbToolchain.Memcpy

variable (V : Simd)

/-- `while (size > 16)`: 16 bytes at a time from the beginning. -/
def mediumLoop (dst src size : Word) : M PUnit := do
  if h : 16 < size then
    mmStoreuSi128 V dst (← mmLoaduSi128 V src)
    let _ ← minusSize size 16
    mediumLoop (dst + 16) (src + 16) (size - 16)
termination_by size.toNat
decreasing_by bv_omega

/-- The registers the unrolled loop leaves behind. -/
structure Remainder where
  (dst src size : Word)
  size_lt : size < 128

/-- `while (size >= 128)`: eight loads, then eight aligned stores. -/
def largeLoop (dst src size : Word) : M Remainder := do
  if h : 128 ≤ size then
    let c0 ← mmLoaduSi128 V (src + 16 * 0)
    let c1 ← mmLoaduSi128 V (src + 16 * 1)
    let c2 ← mmLoaduSi128 V (src + 16 * 2)
    let c3 ← mmLoaduSi128 V (src + 16 * 3)
    let c4 ← mmLoaduSi128 V (src + 16 * 4)
    let c5 ← mmLoaduSi128 V (src + 16 * 5)
    let c6 ← mmLoaduSi128 V (src + 16 * 6)
    let c7 ← mmLoaduSi128 V (src + 16 * 7)
    mmStoreSi128 V (dst + 16 * 0) c0
    mmStoreSi128 V (dst + 16 * 1) c1
    mmStoreSi128 V (dst + 16 * 2) c2
    mmStoreSi128 V (dst + 16 * 3) c3
    mmStoreSi128 V (dst + 16 * 4) c4
    mmStoreSi128 V (dst + 16 * 5) c5
    mmStoreSi128 V (dst + 16 * 6) c6
    mmStoreSi128 V (dst + 16 * 7) c7
    let _ ← minusSize size 128
    largeLoop (dst + 128) (src + 128) (size - 128)
  else
    return { dst, src, size, size_lt := by bv_omega }
termination_by size.toNat
decreasing_by bv_omega

/-- Sizes up to 16: two overlapping moves, the tail first and then the head. -/
def copySmall (dst src size : Word) : M PUnit := do
  if 8 ≤ size then
    builtinMemcpy (← fromEnd dst size 8) (← fromEnd src size 8) 8
    builtinMemcpy dst src 8
  else if 4 ≤ size then
    builtinMemcpy (← fromEnd dst size 4) (← fromEnd src size 4) 4
    builtinMemcpy dst src 4
  else if 2 ≤ size then
    builtinMemcpy (← fromEnd dst size 2) (← fromEnd src size 2) 2
    builtinMemcpy dst src 2
  else if 1 ≤ size then
    store false dst (← load src 1)

/-- Sizes 17 to 128: the last 16 bytes, then the rest from the beginning. -/
def copyMedium (dst src size : Word) : M PUnit := do
  let last ← mmLoaduSi128 V (← fromEnd src size 16)
  mmStoreuSi128 V (← fromEnd dst size 16) last
  mediumLoop V dst src size

/-- Bring `dst` to a 16-byte boundary. The first 16 bytes are copied whole, so up to 15 of them are
copied again later. -/
def alignHead (dst src size : Word) : M (Word × Word × Word) := do
  let padding := (16 - (dst &&& 15)) &&& 15
  if 0 < padding then
    let head ← mmLoaduSi128 V src
    mmStoreuSi128 V dst head
    let size ← minusSize size padding
    return (dst + padding, src + padding, size)
  else
    return (dst, src, size)

theorem largeBranch_decreases {size rest : Word} (h : ¬ size ≤ 128) (hr : rest < 128) :
    rest.toNat < size.toNat := by
  bv_omega

/-- The code from the label `tail` on. -/
def tail (dst src size : Word) : M PUnit := do
  if size ≤ 16 then
    copySmall dst src size
  else if _h : size ≤ 128 then
    copyMedium V dst src size
  else
    emit .large
    let (dst, src, size') ← alignHead V dst src size
    let rest ← largeLoop V dst src size'
    tail rest.dst rest.src rest.size
termination_by size.toNat
decreasing_by exact largeBranch_decreases ‹_› rest.size_lt

/-- The body common to both files: it returns the original `dst`. -/
def inlineMemcpy (dst src size : Word) : M Word := do
  let ret := dst
  tail V dst src size
  return ret

/-- `inline_memcpy` of `memcpy_x86_64.cpp`. -/
def X86.inlineMemcpy : Word → Word → Word → M Word := Memcpy.inlineMemcpy x86_64

/-- `inline_memcpy` of `memcpy_aarch64.cpp`. -/
def Arm.inlineMemcpy : Word → Word → Word → M Word := Memcpy.inlineMemcpy aarch64

end LdbToolchain.Memcpy
