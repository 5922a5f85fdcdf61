import Mathlib

/-!
# Words as vectors of lanes

A machine word of `w * k` bits read as `k` lanes of `w` bits, lane `0` being the least significant.
With `w = 8` this is the little-endian byte image of the word. `ofLanes` packs, `lane` unpacks, and
`lane_ofLanes` says that unpacking returns what was packed.
-/

namespace LdbToolchain.Lanes

variable {w : Nat}

/-- The value of a list of lanes, least significant first. -/
def value (ls : List (BitVec w)) : Nat :=
  ls.foldr (fun l acc => l.toNat + 2 ^ w * acc) 0

/-- Pack lanes into a word, least significant first. -/
def ofLanes (n : Nat) (ls : List (BitVec w)) : BitVec n := BitVec.ofNat n (value ls)

/-- Lane `i` of a word. -/
def lane (w : Nat) {n : Nat} (v : BitVec n) (i : Nat) : BitVec w := v.extractLsb' (w * i) w

/-- The lanes of a word, least significant first. -/
def toLanes (w k : Nat) {n : Nat} (v : BitVec n) : List (BitVec w) := (List.range k).map (lane w v)

theorem value_cons (l : BitVec w) (ls : List (BitVec w)) :
    value (l :: ls) = l.toNat + 2 ^ w * value ls := rfl

theorem value_shift_mod (ls : List (BitVec w)) {i : Nat} (hi : i < ls.length) :
    value ls / 2 ^ (w * i) % 2 ^ w = ls[i].toNat := by
  induction ls generalizing i with
  | nil => exact absurd hi (Nat.not_lt_zero i)
  | cons l ls ih =>
      have hpos : 0 < 2 ^ w := Nat.two_pow_pos w
      rw [value_cons]
      cases i with
      | zero =>
          rw [Nat.mul_zero, Nat.pow_zero, Nat.div_one, Nat.add_mul_mod_self_left,
            Nat.mod_eq_of_lt l.isLt]
          rfl
      | succ i =>
          rw [Nat.mul_succ, Nat.add_comm (w * i) w, Nat.pow_add, ← Nat.div_div_eq_div_mul,
            Nat.add_mul_div_left _ _ hpos, Nat.div_eq_of_lt l.isLt, Nat.zero_add]
          exact ih (Nat.lt_of_succ_lt_succ hi)

/-- **Unpacking returns what was packed**, when the word has room for every lane. -/
theorem lane_ofLanes {n : Nat} (ls : List (BitVec w)) (hn : w * ls.length ≤ n) {i : Nat}
    (hi : i < ls.length) : lane w (ofLanes n ls) i = ls[i] := by
  apply BitVec.eq_of_toNat_eq
  have hroom : w * i + w ≤ n := by
    have : w * (i + 1) ≤ w * ls.length := Nat.mul_le_mul_left w hi
    rw [Nat.mul_succ] at this
    omega
  -- cutting the value down to `n` bits does not reach the lane
  have hcut : value ls % 2 ^ n / 2 ^ (w * i) % 2 ^ w = value ls / 2 ^ (w * i) % 2 ^ w := by
    obtain ⟨r, rfl⟩ : ∃ r, n = w * i + (w + r) := ⟨n - w * i - w, by omega⟩
    rw [Nat.pow_add, Nat.mod_mul_right_div_self, Nat.pow_add, Nat.mod_mul_right_mod]
  unfold lane ofLanes
  rw [BitVec.extractLsb'_toNat, BitVec.toNat_ofNat, Nat.shiftRight_eq_div_pow, hcut,
    value_shift_mod ls hi]

theorem toLanes_ofLanes {n : Nat} (ls : List (BitVec w)) (hn : w * ls.length ≤ n) :
    toLanes w ls.length (ofLanes n ls) = ls := by
  apply List.ext_getElem
  · simp [toLanes]
  · intro i _ hi
    simpa [toLanes] using lane_ofLanes ls hn hi

/-! ## Bitwise operations, lane by lane -/

variable {n : Nat}

theorem toNat_lane (x : BitVec n) (i : Nat) :
    (lane w x i).toNat = x.toNat / 2 ^ (w * i) % 2 ^ w := by
  rw [lane, BitVec.extractLsb'_toNat, Nat.shiftRight_eq_div_pow]

@[simp] theorem lane_and (x y : BitVec n) (i : Nat) :
    lane w (x &&& y) i = lane w x i &&& lane w y i := BitVec.extractLsb'_and

@[simp] theorem lane_xor (x y : BitVec n) (i : Nat) :
    lane w (x ^^^ y) i = lane w x i ^^^ lane w y i := BitVec.extractLsb'_xor

@[simp] theorem lane_zero (i : Nat) : lane w (0 : BitVec n) i = 0 := by
  simp [lane]

theorem lane_not (x : BitVec n) {i : Nat} (hi : w * i + w ≤ n) :
    lane w (~~~x) i = ~~~lane w x i := by
  apply BitVec.eq_of_getLsbD_eq
  intro j hj
  have hlt : w * i + j < n := by omega
  simp [lane, hj, hlt]

/-- A word is given by its lanes. -/
theorem eq_of_lanes {k : Nat} {x y : BitVec (w * k)} (h : ∀ i < k, lane w x i = lane w y i) :
    x = y := by
  apply BitVec.eq_of_getLsbD_eq
  intro j hj
  have hpos : 0 < w := Nat.pos_of_mul_pos_right (Nat.zero_lt_of_lt hj)
  have hbit := congrArg (fun v => v.getLsbD (j % w)) (h (j / w) (Nat.div_lt_of_lt_mul hj))
  simpa [lane, Nat.mod_lt j hpos, Nat.div_add_mod] using hbit

end LdbToolchain.Lanes
