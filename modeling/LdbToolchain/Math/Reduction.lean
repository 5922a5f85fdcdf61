import LdbToolchain.Lib.Binary

/-!
# Taking a number apart for its logarithm

`log`, `log2`, `pow` and their `float` siblings all begin in the same way: with integer arithmetic on
its pattern, a positive number becomes `2 ^ k * z`, where `z` is between `OFF` and `2 * OFF`, and an
interval of the table is found for `z`. Numbers are their patterns here.

`split_of` is the rule for this step. Below the first full exponent, the code first multiplies the
number by a power of two and takes the exponent down again afterwards; the exponent then stands in
the sign bit too (`toInt_normalized`).
-/

namespace LdbToolchain.Math

open Binary

def double : Format := ⟨11, 52⟩

def single : Format := ⟨8, 23⟩

abbrev Word := BitVec 64

abbrev Word32 := BitVec 32

/-- The number of a positive pattern with a full exponent, such as the constants of the code are. -/
theorem double_value_eq {n : Nat} (hlow : 2 ^ 52 ≤ n) (hhigh : n < 2 ^ 63) :
    double.value n = (2 ^ 52 + n % 2 ^ 52 : Nat) * 2 ^ ((n / 2 ^ 52 : Nat) - 1075 : ℤ) := by
  have hexp : ((n / 2 ^ 52 : Nat) - 1075 : ℤ) = n / 2 ^ 52 - 1023 - 52 := by
    push_cast
    ring
  rw [Format.value_of_lt hhigh, Format.size_of_le hlow, Format.ray, hexp]
  push_cast
  rfl

theorem double_one : double.value 0x3ff0000000000000 = 1 := by
  rw [double_value_eq (by decide) (by decide)]
  norm_num

theorem single_one : single.value 0x3f800000 = 1 := by
  rw [Format.value_of_lt (by decide)]
  norm_num [single, Format.size, Format.ray, Format.bias]

/-- Finite and not 0. -/
def Ordinary (F : Format) (n : Nat) : Prop := F.IsFinite n ∧ ¬ F.IsZero n

theorem ordinary_iff {F : Format} {n : Nat} : Ordinary F n ↔ F.magnitude n ≠ 0 ∧ F.magnitude n < F.infinity :=
  and_comm

/-- `x * 0x1p52`, or `x * 0x1p23f`, as a pattern. Asked for numbers below the first full exponent
only, where the product is exact. -/
def timesTwoPow {w : Nat} (F : Format) (x : BitVec w) : BitVec w :=
  BitVec.ofNat w ((if F.negative x.toNat then F.signWeight else 0) + F.scaleUp (F.magnitude x.toNat))

/-! ## The step -/

/-- The exponent, the interval of the table, and the pattern of `z`. -/
structure Parts (w : Nat) where
  k : Int
  i : Nat
  iz : BitVec w

def split {w : Nat} (fracBits tableBits : Nat) (topMask off ix : BitVec w) : Parts w :=
  let tmp := ix - off
  { i := (tmp >>> (fracBits - tableBits)).toNat % 2 ^ tableBits
    k := (tmp.sshiftRight fracBits).toInt
    iz := ix - (tmp &&& topMask) }

/-- `v` is taken apart: `z` is exact and between `off` and its double, in the `i`th of
`2 ^ tableBits` intervals. -/
structure Parts.Of {w : Nat} (F : Format) (tableBits off : Nat) (v : ℚ) (r : Parts w) : Prop where
  exact : v = 2 ^ r.k * F.value r.iz.toNat
  off_le : F.value off ≤ F.value r.iz.toNat
  lt_off : F.value r.iz.toNat < 2 * F.value off
  index : r.i < 2 ^ tableBits
  interval_le : F.value (off + r.i * 2 ^ (F.fracBits - tableBits)) ≤ F.value r.iz.toNat
  lt_interval : F.value r.iz.toNat < F.value (off + (r.i + 1) * 2 ^ (F.fracBits - tableBits))

variable {F : Format} {w tableBits : Nat}

/-- What is left of `ix` without the top bits of its distance from `off`. -/
theorem sub_top (off ix : BitVec w) (p : Nat) :
    ix - ((ix - off) &&& (BitVec.allOnes w <<< p)) = off + BitVec.ofNat w ((ix - off).toNat % 2 ^ p) := by
  have hlow : ∀ t : BitVec w, t - (t &&& (BitVec.allOnes w <<< p)) = BitVec.ofNat w (t.toNat % 2 ^ p) := by
    intro t
    have htop : (t >>> p <<< p).toNat = t.toNat / 2 ^ p * 2 ^ p := by
      rw [BitVec.toNat_shiftLeft, BitVec.toNat_ushiftRight, Nat.shiftRight_eq_div_pow,
        Nat.shiftLeft_eq, Nat.mod_eq_of_lt (lt_of_le_of_lt (Nat.div_mul_le_self _ _) t.isLt)]
    have hle : t >>> p <<< p ≤ t := by
      rw [BitVec.le_def, htop]
      exact Nat.div_mul_le_self _ _
    rw [← BitVec.shiftLeft_ushiftRight, ← BitVec.toNat_inj, BitVec.toNat_sub_of_le hle, htop,
      BitVec.toNat_ofNat, Nat.mod_eq_of_lt (lt_of_le_of_lt (Nat.mod_le _ _) t.isLt)]
    have hsplit := Nat.div_add_mod t.toNat (2 ^ p)
    rw [mul_comm] at hsplit
    omega
  rw [← hlow (ix - off)]
  ring

theorem toInt_emod (t : BitVec w) {p : Nat} (h : p ≤ w) :
    t.toInt % 2 ^ p = (t.toNat % 2 ^ p : Nat) := by
  have hdvd : (2 ^ p : ℤ) ∣ 2 ^ w := pow_dvd_pow 2 h
  rw [BitVec.toInt_eq_toNat_cond]
  push_cast
  split
  · rfl
  · rw [Int.sub_emod, Int.emod_eq_zero_of_dvd hdvd, sub_zero, Int.emod_emod]

/-- A distance from `off` that is not too far to the left. -/
theorem toInt_sub_off {off ix : BitVec w} (hoff : off.toNat < 2 ^ (w - 1))
    (hrange : -(2 ^ (w - 1) : Nat) ≤ ix.toInt - off.toNat) (hw : 0 < w) :
    (ix - off).toInt = ix.toInt - off.toNat := by
  have hdouble : 2 ^ w = 2 * 2 ^ (w - 1) := by
    rw [← pow_succ']
    congr 1
    omega
  have hlt : ix.toInt < (2 ^ (w - 1) : Nat) := by exact_mod_cast BitVec.toInt_lt (x := ix)
  rw [BitVec.toInt_sub, BitVec.toInt_eq_toNat_of_lt (x := off) (by omega)]
  apply Int.bmod_eq_of_le_mul_two
  · rw [hdouble]
    omega
  · rw [hdouble]
    omega

/-- What the words of the step are, when the distance from `off` does not overflow: the low bits of
the distance stay, the others are the exponent. -/
theorem split_spec {p : Nat} {off ix : BitVec w} (hp : p < w) (htable : tableBits ≤ p)
    (hoff : off.toNat + 2 ^ p ≤ 2 ^ (w - 1)) (hrange : -(2 ^ (w - 1) : Nat) ≤ ix.toInt - off.toNat) :
    ∃ low < 2 ^ p,
      (split p tableBits (BitVec.allOnes w <<< p) off ix).iz.toNat = off.toNat + low ∧
      ix.toInt = (off.toNat + low : Nat)
        + (split p tableBits (BitVec.allOnes w <<< p) off ix).k * 2 ^ p ∧
      (split p tableBits (BitVec.allOnes w <<< p) off ix).i = low / 2 ^ (p - tableBits) := by
  have hpos : 0 < 2 ^ p := by positivity
  have hlt : (ix - off).toNat % 2 ^ p < 2 ^ p := Nat.mod_lt _ hpos
  have hsub := toInt_sub_off (by omega) hrange (by omega)
  refine ⟨(ix - off).toNat % 2 ^ p, hlt, ?_, ?_, ?_⟩
  · have hmono : 2 ^ (w - 1) < 2 ^ w := Nat.pow_lt_pow_right one_lt_two (by omega)
    show (ix - ((ix - off) &&& (BitVec.allOnes w <<< p))).toNat = _
    rw [sub_top, BitVec.toNat_add, BitVec.toNat_ofNat, Nat.add_mod_mod, Nat.mod_eq_of_lt (by omega)]
  · show _ = _ + ((ix - off).sshiftRight p).toInt * 2 ^ p
    have hsplit := Int.mul_ediv_add_emod (ix - off).toInt (2 ^ p)
    rw [toInt_emod _ hp.le] at hsplit
    rw [BitVec.toInt_sshiftRight, Int.shiftRight_eq_div_pow, Nat.cast_add]
    push_cast at hsplit hsub ⊢
    linarith
  · show ((ix - off) >>> (p - tableBits)).toNat % 2 ^ tableBits = _
    have hbits : 2 ^ p = 2 ^ (p - tableBits) * 2 ^ tableBits := by
      rw [← pow_add]
      congr 1
      omega
    rw [BitVec.toNat_ushiftRight, Nat.shiftRight_eq_div_pow, hbits, Nat.mod_mul_right_div_self]

/-! ## Numbers -/

/-- What the constants of a reduction satisfy: `off` is a normal number, with room to its left for
the exponents of the numbers that are taken down by `down`. -/
structure Suited (F : Format) (tableBits : Nat) (topMask off down : BitVec w) : Prop where
  width : w = 1 + F.expBits + F.fracBits
  topMask : topMask = BitVec.allOnes w <<< F.fracBits
  tableBits : tableBits ≤ F.fracBits
  normal : 2 ^ F.fracBits ≤ off.toNat
  finite : off.toNat + 2 ^ F.fracBits ≤ F.infinity
  down : down.toNat = F.fracBits * 2 ^ F.fracBits
  room : off.toNat + F.fracBits * 2 ^ F.fracBits ≤ F.signWeight

variable {topMask off down ix : BitVec w}

theorem Suited.signWeight (h : Suited F tableBits topMask off down) : F.signWeight = 2 ^ (w - 1) := by
  rw [Format.signWeight, h.width]
  congr 1
  omega

/-- **The reduction step.** -/
theorem Suited.split_of (h : Suited F tableBits topMask off down)
    (hrange : -(F.signWeight : ℤ) ≤ ix.toInt - off.toNat) :
    (split F.fracBits tableBits topMask off ix).Of F tableBits off.toNat (F.ray ix.toInt) := by
  have hinf := F.infinity_lt
  have hwidth := h.width
  have hnormal := h.normal
  have hfinite := h.finite
  obtain ⟨low, hlt, hz, hk, hi⟩ := @split_spec w tableBits F.fracBits off ix (by omega) h.tableBits
    (by rw [← h.signWeight]; omega) (by rw [← h.signWeight]; exact hrange)
  rw [← h.topMask] at hz hk hi
  have hvalue : ∀ n, 2 ^ F.fracBits ≤ n → n ≤ F.infinity → F.value n = F.ray n := by
    intro n hle hn
    rw [Format.value_of_lt (by omega), Format.size_of_le hle]
  have hmono : ∀ {m n : Nat}, m < n → n ≤ F.infinity → F.value m < F.value n := by
    intro m n hmn hn
    rw [Format.value_of_lt (by omega), Format.value_of_lt (by omega)]
    exact Format.size_strictMono hmn
  have hle : ∀ {m n : Nat}, m ≤ n → n ≤ F.infinity → F.value m ≤ F.value n := by
    intro m n hmn hn
    rcases hmn.lt_or_eq with hlt | heq
    · exact (hmono hlt hn).le
    · rw [heq]
  have htop : (off.toNat + 2 ^ F.fracBits : Nat) = (off.toNat : ℤ) + 1 * 2 ^ F.fracBits := by
    push_cast
    ring
  -- The table's intervals cut the low bits.
  have hbits : 2 ^ F.fracBits = 2 ^ (F.fracBits - tableBits) * 2 ^ tableBits := by
    rw [← pow_add, Nat.sub_add_cancel h.tableBits]
  have hindex : low / 2 ^ (F.fracBits - tableBits) < 2 ^ tableBits := by
    rw [Nat.div_lt_iff_lt_mul (by positivity), mul_comm, ← hbits]
    exact hlt
  have hfirst := Nat.div_mul_le_self low (2 ^ (F.fracBits - tableBits))
  have hnext : low < (low / 2 ^ (F.fracBits - tableBits) + 1) * 2 ^ (F.fracBits - tableBits) := by
    rw [add_one_mul]
    exact Nat.lt_div_mul_add (by positivity)
  have hlast : (low / 2 ^ (F.fracBits - tableBits) + 1) * 2 ^ (F.fracBits - tableBits)
      ≤ 2 ^ F.fracBits := by
    rw [hbits, mul_comm]
    exact Nat.mul_le_mul_left _ hindex
  refine ⟨?_, ?_, ?_, ?_, ?_, ?_⟩
  · rw [hk, hz, Format.ray_add_mul, hvalue _ (by omega) (by omega)]
  · rw [hz]
    exact hle (by omega) (by omega)
  · rw [hz]
    calc F.value (off.toNat + low)
        < F.value (off.toNat + 2 ^ F.fracBits) := hmono (by omega) hfinite
      _ = 2 * F.value off.toNat := by
        rw [hvalue _ (by omega) hfinite, hvalue _ hnormal (by omega), htop, Format.ray_add_mul, zpow_one]
  · rw [hi]
    exact hindex
  · rw [hi, hz]
    exact hle (by omega) (by omega)
  · rw [hi, hz]
    exact hmono (by omega) (by omega)

/-- A normal number is taken apart as it is. -/
theorem Suited.normal_of (h : Suited F tableBits topMask off down) (hle : 2 ^ F.fracBits ≤ ix.toNat)
    (hlt : ix.toNat < F.infinity) :
    (split F.fracBits tableBits topMask off ix).Of F tableBits off.toNat (F.value ix.toNat) := by
  have hinf := F.infinity_lt
  have hfinite := h.finite
  have hpos : 0 < 2 ^ F.fracBits := by positivity
  have hdouble : 2 ^ w = 2 * F.signWeight := by
    rw [h.signWeight, ← pow_succ', Nat.sub_add_cancel (by have := h.width; omega)]
  have hint : ix.toInt = ix.toNat := BitVec.toInt_eq_toNat_of_lt (by omega)
  have hrange : -(F.signWeight : ℤ) ≤ ix.toInt - off.toNat := by omega
  have hof := h.split_of hrange
  rwa [hint, ← Format.size_of_le hle, ← Format.value_of_lt (by omega)] at hof

/-- A smaller one after it has been multiplied and its exponent taken down again. -/
theorem Suited.subnormal_of (h : Suited F tableBits topMask off down) {m : Nat} (hm : m ≠ 0)
    (hlt : m < 2 ^ F.fracBits) (hix : ix.toNat = F.scaleUp m) :
    (split F.fracBits tableBits topMask off (ix - down)).Of F tableBits off.toNat (F.size m) := by
  have hroom := h.room
  have hnormal := h.normal
  have hdown := h.down
  have hpos : 0 < 2 ^ F.fracBits := by positivity
  have hle := Format.two_pow_le_scaleUp (F := F) (m := m)
  have hscale := Format.scaleUp_lt hm hlt
  rw [add_one_mul] at hscale
  have hdouble : 2 ^ w = 2 * F.signWeight := by
    rw [h.signWeight, ← pow_succ', Nat.sub_add_cancel (by have := h.width; omega)]
  have hint : ix.toInt = F.scaleUp m := by
    rw [BitVec.toInt_eq_toNat_of_lt (by omega), hix]
  have hsub : (ix - down).toInt = F.scaleUp m - F.fracBits * 2 ^ F.fracBits := by
    rw [toInt_sub_off (by rw [← h.signWeight]; omega) (by rw [← h.signWeight]; omega)
      (by have := h.width; omega), hint, hdown]
    push_cast
    rfl
  have hrange : -(F.signWeight : ℤ) ≤ (ix - down).toInt - off.toNat := by
    rw [hsub]
    zify at hroom hle
    linarith
  have hof := h.split_of hrange
  rwa [hsub, Format.ray_scaleUp_sub hm hlt] at hof

/-- The product of a small number has its sign. -/
theorem Suited.toNat_timesTwoPow (h : Suited F tableBits topMask off down)
    (hne : F.magnitude ix.toNat ≠ 0) (hlt : F.magnitude ix.toNat < 2 ^ F.fracBits) :
    (timesTwoPow F ix).toNat = (if F.negative ix.toNat then F.signWeight else 0)
        + F.scaleUp (F.magnitude ix.toNat) ∧
      F.magnitude (timesTwoPow F ix).toNat = F.scaleUp (F.magnitude ix.toNat) := by
  have hroom := h.room
  have hnormal := h.normal
  have hdouble : 2 ^ w = 2 * F.signWeight := by
    rw [h.signWeight, ← pow_succ', Nat.sub_add_cancel (by have := h.width; omega)]
  have hscale := Format.scaleUp_lt hne hlt
  rw [add_one_mul] at hscale
  have hnat : (timesTwoPow F ix).toNat = (if F.negative ix.toNat then F.signWeight else 0)
      + F.scaleUp (F.magnitude ix.toNat) := by
    rw [timesTwoPow, BitVec.toNat_ofNat, Nat.mod_eq_of_lt]
    split
    · omega
    · omega
  refine ⟨hnat, ?_⟩
  rw [hnat, Format.magnitude]
  split
  · rw [Nat.add_mod_left, Nat.mod_eq_of_lt (by omega)]
  · rw [Nat.zero_add, Nat.mod_eq_of_lt (by omega)]

end LdbToolchain.Math
