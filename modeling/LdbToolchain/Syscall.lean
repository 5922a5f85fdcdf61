import Mathlib

/-!
# The system call convention

A raw system call returns a non-negative result or the negated error number; `__syscall_ret` turns
that into the C convention, -1 with `errno` set. Error numbers lie between 1 and 4095, which is what
makes the two ranges disjoint, so an `Errno` carries that bound.
-/

namespace LdbToolchain

/-- An error number. -/
structure Errno where
  val : Int
  pos : 0 < val
  lt : val < 4096
  deriving DecidableEq

namespace Errno

def EPERM : Errno := ⟨1, by decide, by decide⟩
def ENOENT : Errno := ⟨2, by decide, by decide⟩
def EBADF : Errno := ⟨9, by decide, by decide⟩
def EACCES : Errno := ⟨13, by decide, by decide⟩
def EBUSY : Errno := ⟨16, by decide, by decide⟩
def EEXIST : Errno := ⟨17, by decide, by decide⟩
def ENOTDIR : Errno := ⟨20, by decide, by decide⟩
def EINVAL : Errno := ⟨22, by decide, by decide⟩
def ENAMETOOLONG : Errno := ⟨36, by decide, by decide⟩
def ENOSYS : Errno := ⟨38, by decide, by decide⟩

theorem val_injective {e e' : Errno} (h : e.val = e'.val) : e = e' := by
  cases e
  cases e'
  cases h
  rfl

end Errno

/-- What a raw system call returns: its result, or the negated error number. -/
def rawResult : Except Errno Int → Int
  | .ok r => r
  | .error e => -e.val

/-- `__syscall_ret`: the value returned, and `errno` afterwards. -/
def syscallRet (r : BitVec 64) (errno : Int) : Int × Int :=
  if BitVec.ofInt 64 (-4096) < r then
    (-1, (-r).toInt)
  else
    (r.toInt, errno)

/-- An error becomes -1 with `errno` set to it. -/
theorem syscallRet_error (e : Errno) (errno : Int) :
    syscallRet (BitVec.ofInt 64 (-e.val)) errno = (-1, e.val) := by
  obtain ⟨n, hn⟩ : ∃ n : Nat, e.val = n := ⟨e.val.toNat, by have := e.pos; omega⟩
  have hpos : 0 < n := by have := e.pos; omega
  have hlt : n < 4096 := by have := e.lt; omega
  have hnat : (BitVec.ofInt 64 (-e.val)).toNat = 2 ^ 64 - n := by
    rw [hn, BitVec.toNat_ofInt]
    omega
  have hneg : (-BitVec.ofInt 64 (-e.val)).toNat = n := by
    rw [BitVec.toNat_neg, hnat]
    omega
  have hbig : BitVec.ofInt 64 (-4096) < BitVec.ofInt 64 (-e.val) := by
    rw [BitVec.lt_def, hnat]
    show 2 ^ 64 - 4096 < 2 ^ 64 - n
    omega
  unfold syscallRet
  rw [if_pos hbig, BitVec.toInt_eq_toNat_of_lt (by omega), hneg, hn]

/-- A result that fits an `int` is returned as it is, with `errno` untouched. -/
theorem syscallRet_ok {r : Int} (h0 : 0 ≤ r) (h : r < 2 ^ 31) (errno : Int) :
    syscallRet (BitVec.ofInt 64 r) errno = (r, errno) := by
  have hnat : (BitVec.ofInt 64 r).toNat = r.toNat := by
    rw [BitVec.toNat_ofInt]
    omega
  have hsmall : ¬ BitVec.ofInt 64 (-4096) < BitVec.ofInt 64 r := by
    rw [BitVec.lt_def, hnat]
    show ¬ 2 ^ 64 - 4096 < r.toNat
    omega
  unfold syscallRet
  rw [if_neg hsmall, BitVec.toInt_eq_toNat_of_lt (by omega), hnat]
  congr 1
  omega

end LdbToolchain
