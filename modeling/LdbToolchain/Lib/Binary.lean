import Mathlib

/-!
# Binary floating-point formats

A pattern of a binary interchange format has a sign, a biased exponent and a fraction. `magnitude`
is a pattern without its sign, and `value` is the number that a finite pattern stands for.

Magnitudes are in the order of their values (`value_lt_value`), and integer arithmetic on a magnitude
is arithmetic on the number: a step of the exponent field doubles it. `ray` lets the exponent run on
beyond its field, in both directions (`ray_add_mul`), which is how code that takes numbers apart
treats the tiny ones below `2 ^ fracBits`.
-/

namespace LdbToolchain.Binary

structure Format where
  expBits : Nat
  fracBits : Nat

namespace Format

variable (F : Format)

def bias : Nat := 2 ^ (F.expBits - 1) - 1

/-- The weight of the sign. -/
def signWeight : Nat := 2 ^ (F.expBits + F.fracBits)

def negative (n : Nat) : Bool := decide (F.signWeight ≤ n)

/-- The pattern of the absolute value. -/
def magnitude (n : Nat) : Nat := n % F.signWeight

/-- The pattern of the positive infinity. -/
def infinity : Nat := (2 ^ F.expBits - 1) * 2 ^ F.fracBits

/-! ## Kinds of patterns -/

def IsZero (n : Nat) : Prop := F.magnitude n = 0

def IsInf (n : Nat) : Prop := F.magnitude n = F.infinity

def IsNaN (n : Nat) : Prop := F.infinity < F.magnitude n

def IsFinite (n : Nat) : Prop := F.magnitude n < F.infinity

instance (n : Nat) : Decidable (F.IsZero n) := inferInstanceAs (Decidable (_ = _))
instance (n : Nat) : Decidable (F.IsInf n) := inferInstanceAs (Decidable (_ = _))
instance (n : Nat) : Decidable (F.IsNaN n) := inferInstanceAs (Decidable (_ < _))
instance (n : Nat) : Decidable (F.IsFinite n) := inferInstanceAs (Decidable (_ < _))

/-! ## Values -/

/-- The number with the exponent `n / 2 ^ fracBits` and the fraction `n % 2 ^ fracBits`. -/
def ray (n : ℤ) : ℚ :=
  (2 ^ F.fracBits + n % 2 ^ F.fracBits : ℤ)
    * (2 : ℚ) ^ (n / 2 ^ F.fracBits - F.bias - F.fracBits : ℤ)

/-- The number of a magnitude. Below the first full exponent there is no hidden bit. -/
def size (m : Nat) : ℚ :=
  if m < 2 ^ F.fracBits then m * (2 : ℚ) ^ (1 - F.bias - F.fracBits : ℤ) else F.ray m

def value (n : Nat) : ℚ :=
  if F.negative n then -F.size (F.magnitude n) else F.size (F.magnitude n)

variable {F} {m n : Nat} {a b : ℤ}

/-- A step of the exponent doubles the number. -/
theorem ray_add_mul : F.ray (a + b * 2 ^ F.fracBits) = 2 ^ b * F.ray a := by
  have hpos : (2 : ℤ) ^ F.fracBits ≠ 0 := by positivity
  rw [ray, ray, Int.add_mul_emod_self_right, Int.add_mul_ediv_right _ _ hpos]
  rw [show a / 2 ^ F.fracBits + b - F.bias - F.fracBits
      = b + (a / 2 ^ F.fracBits - F.bias - F.fracBits) by ring, zpow_add₀ two_ne_zero]
  ring

/-- The exponent and the fraction of a number that is written with both. -/
theorem ray_eq {e f : ℤ} (hnonneg : 0 ≤ f) (hlt : f < 2 ^ F.fracBits) :
    F.ray (e * 2 ^ F.fracBits + f) = (2 ^ F.fracBits + f : ℤ) * 2 ^ (e - F.bias - F.fracBits) := by
  rw [ray, add_comm (e * _) f, Int.add_mul_emod_self_right, Int.add_mul_ediv_right _ _ (by positivity),
    Int.emod_eq_of_lt hnonneg hlt, Int.ediv_eq_zero_of_lt hnonneg hlt, zero_add]

theorem ray_strictMono : StrictMono F.ray := by
  refine strictMono_int_of_lt_succ fun a => ?_
  obtain ⟨e, f, hnonneg, hlt, rfl⟩ : ∃ e f : ℤ, 0 ≤ f ∧ f < 2 ^ F.fracBits ∧
      a = e * 2 ^ F.fracBits + f :=
    ⟨a / 2 ^ F.fracBits, a % 2 ^ F.fracBits, Int.emod_nonneg _ (by positivity),
      Int.emod_lt_of_pos _ (by positivity), by rw [mul_comm]; exact (Int.mul_ediv_add_emod _ _).symm⟩
  have hscale : (0 : ℚ) < 2 ^ (e - F.bias - F.fracBits : ℤ) := by positivity
  rw [ray_eq hnonneg hlt]
  by_cases hnext : f + 1 < 2 ^ F.fracBits
  · rw [add_assoc, ray_eq (by omega) hnext]
    refine mul_lt_mul_of_pos_right ?_ hscale
    exact_mod_cast (by omega : 2 ^ F.fracBits + f < 2 ^ F.fracBits + (f + 1))
  · -- The fraction is full: the next number has the next exponent.
    have hfull : f + 1 = 2 ^ F.fracBits := by omega
    have hcarry : e * 2 ^ F.fracBits + f + 1 = 0 * 2 ^ F.fracBits + 0 + (e + 1) * 2 ^ F.fracBits := by
      rw [add_assoc, hfull]
      ring
    rw [hcarry, ray_add_mul, ray_eq le_rfl (by positivity)]
    have hdouble : ((2 : ℚ) ^ (e + 1)) * ((2 ^ F.fracBits + 0 : ℤ) * 2 ^ (0 - F.bias - F.fracBits : ℤ))
        = (2 * 2 ^ F.fracBits : ℤ) * 2 ^ (e - F.bias - F.fracBits : ℤ) := by
      have hexp : (e - F.bias - F.fracBits : ℤ) = e + (0 - F.bias - F.fracBits) := by ring
      rw [hexp, zpow_add_one₀ two_ne_zero, zpow_add₀ two_ne_zero]
      push_cast
      ring
    rw [hdouble]
    refine mul_lt_mul_of_pos_right ?_ hscale
    exact_mod_cast (by omega : 2 ^ F.fracBits + f < 2 * 2 ^ F.fracBits)

theorem size_of_lt (h : m < 2 ^ F.fracBits) :
    F.size m = m * (2 : ℚ) ^ (1 - F.bias - F.fracBits : ℤ) := if_pos h

theorem size_of_le (h : 2 ^ F.fracBits ≤ m) : F.size m = F.ray m := if_neg (by omega)

theorem size_strictMono : StrictMono F.size := by
  refine strictMono_nat_of_lt_succ fun m => ?_
  have hscale : (0 : ℚ) < 2 ^ (1 - F.bias - F.fracBits : ℤ) := by positivity
  by_cases hlt : m < 2 ^ F.fracBits
  · rw [size_of_lt hlt]
    by_cases hnext : m + 1 < 2 ^ F.fracBits
    · rw [size_of_lt hnext]
      refine mul_lt_mul_of_pos_right ?_ hscale
      exact_mod_cast Nat.lt_succ_self m
    · have hfull : m + 1 = 2 ^ F.fracBits := by omega
      have hfirst : ((m + 1 : Nat) : ℤ) = 1 * 2 ^ F.fracBits + 0 := by
        rw [hfull]
        push_cast
        ring
      rw [size_of_le (by omega), hfirst, ray_eq le_rfl (by positivity)]
      refine mul_lt_mul_of_pos_right ?_ hscale
      rw [add_zero]
      exact_mod_cast hlt
  · rw [size_of_le (by omega), size_of_le (by omega)]
    exact ray_strictMono (by exact_mod_cast Nat.lt_succ_self m)

@[simp] theorem size_zero : F.size 0 = 0 := by
  rw [size_of_lt (by positivity)]
  simp

theorem size_nonneg : 0 ≤ F.size m := by
  rw [← size_zero (F := F)]
  exact size_strictMono.monotone (Nat.zero_le m)

theorem size_pos : 0 < F.size m ↔ m ≠ 0 := by
  rw [← size_zero (F := F), size_strictMono.lt_iff_lt]
  exact Nat.pos_iff_ne_zero

theorem abs_value : |F.value n| = F.size (F.magnitude n) := by
  rw [value]
  split
  · rw [abs_neg, abs_of_nonneg size_nonneg]
  · rw [abs_of_nonneg size_nonneg]

theorem magnitude_lt : F.magnitude n < F.signWeight := Nat.mod_lt _ (by unfold signWeight; positivity)

theorem magnitude_of_lt (h : n < F.signWeight) : F.magnitude n = n := Nat.mod_eq_of_lt h

theorem negative_eq_false (h : n < F.signWeight) : F.negative n = false :=
  decide_eq_false (by omega)

theorem magnitude_of_negative (h : F.negative n = false) : F.magnitude n = n := by
  rw [negative, decide_eq_false_iff_not] at h
  exact magnitude_of_lt (by omega)

theorem value_of_lt (h : n < F.signWeight) : F.value n = F.size n := by
  rw [value, negative_eq_false h, magnitude_of_lt h]
  rfl

theorem value_lt_value (hm : m < F.signWeight) (hn : n < F.signWeight) :
    F.value m < F.value n ↔ m < n := by
  rw [value_of_lt hm, value_of_lt hn]
  exact size_strictMono.lt_iff_lt

theorem value_le_value (hm : m < F.signWeight) (hn : n < F.signWeight) :
    F.value m ≤ F.value n ↔ m ≤ n := by
  rw [value_of_lt hm, value_of_lt hn]
  exact size_strictMono.le_iff_le

theorem value_inj (hm : m < F.signWeight) (hn : n < F.signWeight) :
    F.value m = F.value n ↔ m = n := by
  rw [value_of_lt hm, value_of_lt hn]
  exact size_strictMono.injective.eq_iff

theorem value_eq_zero_iff : F.value n = 0 ↔ F.IsZero n := by
  rw [← abs_eq_zero, abs_value, IsZero]
  constructor
  · intro h
    by_contra hne
    exact absurd h (size_pos.mpr hne).ne'
  · intro h
    rw [h, size_zero]

theorem value_neg_iff : F.value n < 0 ↔ F.negative n = true ∧ ¬ F.IsZero n := by
  rw [value, IsZero]
  cases F.negative n with
  | false => simpa using (size_nonneg (F := F) (m := F.magnitude n))
  | true => simpa using size_pos (F := F) (m := F.magnitude n)

theorem value_pos_iff : 0 < F.value n ↔ F.negative n = false ∧ ¬ F.IsZero n := by
  rw [value, IsZero]
  cases F.negative n with
  | false => simpa using size_pos (F := F) (m := F.magnitude n)
  | true => simpa using (size_nonneg (F := F) (m := F.magnitude n))

theorem infinity_lt : F.infinity < F.signWeight := by
  have hpos : 0 < 2 ^ F.fracBits := by positivity
  have hexp : 0 < 2 ^ F.expBits := by positivity
  rw [infinity, signWeight, pow_add]
  exact Nat.mul_lt_mul_of_pos_right (by omega) hpos

/-- A positive number has one pattern. -/
theorem eq_of_value_eq_size (hm : m ≠ 0) (h : F.value n = F.size m) : n = m := by
  have hpos : 0 < F.value n := by
    rw [h]
    exact size_pos.mpr hm
  have hneg := (value_pos_iff.mp hpos).1
  rw [value, hneg, if_neg Bool.false_ne_true, magnitude_of_negative hneg] at h
  exact size_strictMono.injective h

/-- Beyond the infinity there are the patterns that are no numbers, and then the negative ones. -/
theorem isNaN_or_negative (h : F.infinity < n) : F.IsNaN n ∨ F.negative n = true := by
  by_cases hlt : n < F.signWeight
  · left
    rw [IsNaN, magnitude_of_lt hlt]
    exact h
  · right
    exact decide_eq_true (by omega)

/-! ## Powers of two -/

/-- A magnitude with an empty fraction. -/
theorem size_mul_two_pow {e : Nat} (he : e ≠ 0) : F.size (e * 2 ^ F.fracBits) = 2 ^ (e - F.bias : ℤ) := by
  have hle : 2 ^ F.fracBits ≤ e * 2 ^ F.fracBits := Nat.le_mul_of_pos_left _ (Nat.pos_of_ne_zero he)
  have hray : ((e * 2 ^ F.fracBits : Nat) : ℤ) = e * 2 ^ F.fracBits + 0 := by
    push_cast
    ring
  rw [size_of_le hle, hray, ray_eq le_rfl (by positivity), add_zero, zpow_sub₀ two_ne_zero]
  push_cast
  rw [zpow_natCast]
  field_simp

theorem two_pow_le_abs_value {e : Nat} (he : e ≠ 0) :
    2 ^ (e - F.bias : ℤ) ≤ |F.value n| ↔ e ≤ F.magnitude n / 2 ^ F.fracBits := by
  rw [abs_value, ← size_mul_two_pow he, size_strictMono.le_iff_le,
    Nat.le_div_iff_mul_le (by positivity)]

/-- The pattern of a number below the first full exponent, times `2 ^ fracBits`. The product is
exact. -/
def scaleUp (m : Nat) : Nat :=
  (m.log2 + 1) * 2 ^ F.fracBits + (m * 2 ^ (F.fracBits - m.log2) - 2 ^ F.fracBits)

theorem ray_scaleUp (hne : m ≠ 0) (hlt : m < 2 ^ F.fracBits) :
    F.ray (F.scaleUp m) = 2 ^ F.fracBits * F.size m := by
  have hlog : m.log2 < F.fracBits := (Nat.log2_lt hne).mpr hlt
  have hsplit : 2 ^ F.fracBits = 2 ^ m.log2 * 2 ^ (F.fracBits - m.log2) := by
    rw [← pow_add, Nat.add_sub_cancel' hlog.le]
  have hlow : 2 ^ F.fracBits ≤ m * 2 ^ (F.fracBits - m.log2) := by
    conv_lhs => rw [hsplit]
    exact Nat.mul_le_mul_right _ (Nat.log2_self_le hne)
  have hhigh : m * 2 ^ (F.fracBits - m.log2) < 2 ^ F.fracBits + 2 ^ F.fracBits := by
    have hm : m < 2 ^ m.log2 * 2 := by
      rw [← pow_succ]
      exact Nat.lt_log2_self
    calc m * 2 ^ (F.fracBits - m.log2)
        < 2 ^ m.log2 * 2 * 2 ^ (F.fracBits - m.log2) := Nat.mul_lt_mul_of_pos_right hm (by positivity)
      _ = 2 ^ F.fracBits + 2 ^ F.fracBits := by
        rw [hsplit]
        ring
  obtain ⟨f, hf⟩ := Nat.exists_eq_add_of_le hlow
  have hscale : F.scaleUp m = (m.log2 + 1) * 2 ^ F.fracBits + f := by
    rw [scaleUp, hf, Nat.add_sub_cancel_left]
  have hsig : ((2 ^ F.fracBits + f : ℤ) : ℚ) = m * 2 ^ (F.fracBits - m.log2 : ℤ) := by
    have hcast : (2 : ℚ) ^ (F.fracBits - m.log2 : ℤ) = ((2 ^ (F.fracBits - m.log2) : Nat) : ℚ) := by
      rw [← Nat.cast_sub hlog.le, zpow_natCast]
      push_cast
      rfl
    rw [hcast]
    exact_mod_cast hf.symm
  have hray : ((F.scaleUp m : Nat) : ℤ) = ((m.log2 : ℤ) + 1) * 2 ^ F.fracBits + f := by
    rw [hscale]
    push_cast
    ring
  have hflt : (f : ℤ) < 2 ^ F.fracBits := by
    exact_mod_cast (by omega : f < 2 ^ F.fracBits)
  rw [hray, ray_eq (by positivity) hflt, hsig, size_of_lt hlt, mul_assoc, ← zpow_add₀ two_ne_zero,
    mul_left_comm, ← zpow_natCast (2 : ℚ) F.fracBits, ← zpow_add₀ two_ne_zero]
  congr 2
  ring

/-- Taken down again by the exponent, it is the number itself. -/
theorem ray_scaleUp_sub (hne : m ≠ 0) (hlt : m < 2 ^ F.fracBits) :
    F.ray (F.scaleUp m - F.fracBits * 2 ^ F.fracBits) = F.size m := by
  have hsub : (F.scaleUp m - F.fracBits * 2 ^ F.fracBits : ℤ)
      = F.scaleUp m + (-(F.fracBits : ℤ)) * 2 ^ F.fracBits := by ring
  rw [hsub, ray_add_mul, ray_scaleUp hne hlt, zpow_neg, zpow_natCast]
  field_simp

theorem two_pow_le_scaleUp : 2 ^ F.fracBits ≤ F.scaleUp m :=
  Nat.le_add_right_of_le (Nat.le_mul_of_pos_left _ (Nat.succ_pos _))

theorem scaleUp_lt (hne : m ≠ 0) (hlt : m < 2 ^ F.fracBits) :
    F.scaleUp m < (F.fracBits + 1) * 2 ^ F.fracBits := by
  have hsize : F.size m < F.size (2 ^ F.fracBits) := size_strictMono hlt
  have hfirst : F.size (1 * 2 ^ F.fracBits) = 2 ^ ((1 : Nat) - F.bias : ℤ) :=
    size_mul_two_pow one_ne_zero
  have hlast : F.size ((F.fracBits + 1) * 2 ^ F.fracBits) = 2 ^ ((F.fracBits + 1 : Nat) - F.bias : ℤ) :=
    size_mul_two_pow (Nat.succ_ne_zero _)
  rw [← size_strictMono.lt_iff_lt (f := F.size), size_of_le two_pow_le_scaleUp, ray_scaleUp hne hlt,
    hlast]
  rw [one_mul] at hfirst
  rw [hfirst] at hsize
  have hexp : ((F.fracBits + 1 : Nat) - F.bias : ℤ) = F.fracBits + ((1 : Nat) - F.bias) := by
    push_cast
    ring
  rw [hexp, zpow_add₀ two_ne_zero, zpow_natCast]
  exact mul_lt_mul_of_pos_left hsize (by positivity)

/-! ## Integers -/

/-- The significand of a magnitude, its hidden bit included. -/
def significand (m : Nat) : Nat := 2 ^ F.fracBits + m % 2 ^ F.fracBits

theorem size_eq_significand (h : 2 ^ F.fracBits ≤ m) :
    F.size m = F.significand m * 2 ^ ((m / 2 ^ F.fracBits : Nat) - F.bias - F.fracBits : ℤ) := by
  rw [size_of_le h, ray, significand]
  push_cast
  rfl

/-- Above the fraction all numbers are even. -/
theorem even_size (h : F.bias + F.fracBits < m / 2 ^ F.fracBits) :
    ∃ z : ℤ, F.size m = z ∧ Even z := by
  have hle : 2 ^ F.fracBits ≤ m := by
    have hone : 1 ≤ m / 2 ^ F.fracBits := by omega
    exact (Nat.one_le_div_iff (by positivity)).mp hone
  obtain ⟨k, hk⟩ := Nat.exists_eq_add_of_lt h
  refine ⟨F.significand m * 2 ^ (k + 1), ?_, ?_⟩
  · have hexp : ((m / 2 ^ F.fracBits : Nat) - F.bias - F.fracBits : ℤ) = (k + 1 : Nat) := by
      rw [hk]
      push_cast
      ring
    rw [size_eq_significand hle, hexp, zpow_natCast]
    push_cast
    rfl
  · rw [pow_succ, ← mul_assoc]
    exact even_two.mul_left _

/-- Of the bits below the point and the one above it, the hidden bit changes none. -/
theorem exists_hidden (hbias : Odd F.bias) (hlow : F.bias ≤ m / 2 ^ F.fracBits)
    (hhigh : m / 2 ^ F.fracBits ≤ F.bias + F.fracBits) :
    ∃ t, m = F.significand m + t * 2 * 2 ^ (F.bias + F.fracBits - m / 2 ^ F.fracBits) := by
  obtain ⟨e, he⟩ : ∃ e, m / 2 ^ F.fracBits = e + 1 := by
    refine Nat.exists_eq_succ_of_ne_zero fun h => ?_
    obtain ⟨b, hb⟩ := hbias
    omega
  have hm : m = F.significand m + e * 2 ^ F.fracBits := by
    have hsplit := Nat.div_add_mod m (2 ^ F.fracBits)
    rw [he] at hsplit
    rw [significand]
    linarith
  rcases hlow.lt_or_eq with hlt | heq
  · refine ⟨e * 2 ^ (m / 2 ^ F.fracBits - F.bias - 1), ?_⟩
    have hpow : 2 ^ (m / 2 ^ F.fracBits - F.bias - 1) * 2
        * 2 ^ (F.bias + F.fracBits - m / 2 ^ F.fracBits) = 2 ^ F.fracBits := by
      rw [← pow_succ, ← pow_add]
      congr 1
      omega
    rw [mul_assoc, mul_assoc, ← mul_assoc (2 ^ _) 2, hpow]
    exact hm
  · -- Here the bit above the point is the hidden one, and the exponent field's last bit stands there.
    obtain ⟨b, hb⟩ := hbias
    refine ⟨b, ?_⟩
    have hd : F.bias + F.fracBits - m / 2 ^ F.fracBits = F.fracBits := by omega
    rw [hd]
    have hbe : b * 2 = e := by omega
    rw [hbe]
    exact hm

theorem size_mul_point (hle : 2 ^ F.fracBits ≤ m)
    (hhigh : m / 2 ^ F.fracBits ≤ F.bias + F.fracBits) :
    F.size m * 2 ^ (F.bias + F.fracBits - m / 2 ^ F.fracBits) = F.significand m := by
  have hexp : ((m / 2 ^ F.fracBits : Nat) - F.bias - F.fracBits : ℤ)
      = -((F.bias + F.fracBits - m / 2 ^ F.fracBits : Nat) : ℤ) := by
    rw [Nat.cast_sub hhigh]
    push_cast
    ring
  rw [size_eq_significand hle, hexp, zpow_neg, zpow_natCast]
  field_simp

theorem exists_size_eq_iff (hbias : Odd F.bias) (hlow : F.bias ≤ m / 2 ^ F.fracBits)
    (hhigh : m / 2 ^ F.fracBits ≤ F.bias + F.fracBits) :
    ∃ t : ℤ, ∀ z : ℤ, F.size m = z ↔
      (m : ℤ) = (z + t * 2) * 2 ^ (F.bias + F.fracBits - m / 2 ^ F.fracBits) := by
  obtain ⟨t, ht⟩ := exists_hidden hbias hlow hhigh
  have hle : 2 ^ F.fracBits ≤ m := by
    obtain ⟨b, hb⟩ := hbias
    have hone : 1 ≤ m / 2 ^ F.fracBits := by omega
    exact (Nat.one_le_div_iff (by positivity)).mp hone
  have hpoint := size_mul_point hle hhigh
  generalize F.bias + F.fracBits - m / 2 ^ F.fracBits = d at ht hpoint
  refine ⟨t, fun z => ?_⟩
  have hcast : (m : ℤ) = F.significand m + t * 2 * 2 ^ d := by exact_mod_cast ht
  constructor
  · intro hz
    rw [hz] at hpoint
    have hsig : z * 2 ^ d = (F.significand m : ℤ) := by exact_mod_cast hpoint
    rw [hcast, ← hsig]
    ring
  · intro hz
    have hsig : (F.significand m : ℤ) = z * 2 ^ d := by linarith
    have hsig' : (F.significand m : ℚ) = z * 2 ^ d := by exact_mod_cast hsig
    rw [hsig'] at hpoint
    exact mul_right_cancel₀ (by positivity) hpoint

/-- Between, a number is an integer when the bits below the point are 0. -/
theorem integer_iff (hbias : Odd F.bias) (hlow : F.bias ≤ m / 2 ^ F.fracBits)
    (hhigh : m / 2 ^ F.fracBits ≤ F.bias + F.fracBits) :
    (∃ z : ℤ, F.size m = z) ↔ 2 ^ (F.bias + F.fracBits - m / 2 ^ F.fracBits) ∣ m := by
  obtain ⟨t, ht⟩ := exists_size_eq_iff hbias hlow hhigh
  generalize F.bias + F.fracBits - m / 2 ^ F.fracBits = d at ht
  constructor
  · rintro ⟨z, hz⟩
    have hdvd : (2 ^ d : ℤ) ∣ m := ⟨z + t * 2, by rw [(ht z).mp hz, mul_comm]⟩
    exact_mod_cast hdvd
  · rintro ⟨c, hc⟩
    refine ⟨c - t * 2, (ht _).mpr ?_⟩
    rw [hc]
    push_cast
    ring

/-- It is odd when the bit above the point is 1. -/
theorem odd_iff (hbias : Odd F.bias) (hlow : F.bias ≤ m / 2 ^ F.fracBits)
    (hhigh : m / 2 ^ F.fracBits ≤ F.bias + F.fracBits) {z : ℤ} (hz : F.size m = z) :
    Odd z ↔ m / 2 ^ (F.bias + F.fracBits - m / 2 ^ F.fracBits) % 2 = 1 := by
  obtain ⟨t, ht⟩ := exists_size_eq_iff hbias hlow hhigh
  generalize F.bias + F.fracBits - m / 2 ^ F.fracBits = d at ht
  have hquot : (m / 2 ^ d : Nat) = z + t * 2 := by
    push_cast
    rw [(ht z).mp hz, Int.mul_ediv_cancel _ (by positivity)]
  rw [Int.odd_iff]
  omega

/-! ## Patterns in machine words -/

theorem magnitude_div : F.magnitude n / 2 ^ F.fracBits = n / 2 ^ F.fracBits % 2 ^ F.expBits := by
  rw [magnitude, signWeight, add_comm, pow_add, Nat.mod_mul_right_div_self]

theorem dvd_magnitude {d : Nat} (h : d ≤ F.expBits + F.fracBits) :
    2 ^ d ∣ F.magnitude n ↔ 2 ^ d ∣ n := by
  rw [magnitude, signWeight, Nat.dvd_mod_iff (pow_dvd_pow 2 h)]

theorem magnitude_div_mod_two {d : Nat} (h : d < F.expBits + F.fracBits) :
    F.magnitude n / 2 ^ d % 2 = n / 2 ^ d % 2 := by
  obtain ⟨k, hk⟩ := Nat.exists_eq_add_of_lt h
  rw [magnitude, signWeight, hk, add_assoc, pow_add 2 d, Nat.mod_mul_right_div_self, pow_succ,
    Nat.mod_mul_left_mod]

end Format

/-- The field of `e` bits from bit `s` on. -/
theorem toNat_and_mask {w : Nat} (x : BitVec w) {s e : Nat} (h : s + e ≤ w) :
    (x &&& (BitVec.ofNat w (2 ^ e - 1) <<< s)).toNat = x.toNat / 2 ^ s % 2 ^ e * 2 ^ s := by
  have hmask : (2 ^ e - 1) * 2 ^ s < 2 ^ w :=
    calc (2 ^ e - 1) * 2 ^ s
        < 2 ^ e * 2 ^ s := Nat.mul_lt_mul_of_pos_right (Nat.sub_lt (by positivity) one_pos) (by positivity)
      _ = 2 ^ (s + e) := by rw [← pow_add, add_comm]
      _ ≤ 2 ^ w := Nat.pow_le_pow_right two_pos h
  have hones : 2 ^ e - 1 < 2 ^ w :=
    lt_of_le_of_lt (Nat.le_mul_of_pos_right _ (by positivity)) hmask
  rw [BitVec.toNat_and, BitVec.toNat_shiftLeft, BitVec.toNat_ofNat, Nat.mod_eq_of_lt hones,
    Nat.shiftLeft_eq, Nat.mod_eq_of_lt hmask]
  rw [← Nat.and_two_pow_sub_one_eq_mod, ← Nat.shiftRight_eq_div_pow, ← Nat.shiftLeft_eq,
    ← Nat.shiftLeft_eq, Nat.shiftLeft_and_distrib]
  refine Nat.eq_of_testBit_eq fun i => ?_
  by_cases hi : s ≤ i
  · simp [hi]
  · simp [hi]

theorem toNat_shiftRight_and_mask {w : Nat} (x : BitVec w) (p : Nat) {e : Nat} (h : e ≤ w) :
    (x >>> p &&& BitVec.ofNat w (2 ^ e - 1)).toNat = x.toNat / 2 ^ p % 2 ^ e := by
  have hfield := toNat_and_mask (x >>> p) (s := 0) (e := e) (by omega)
  simpa [Nat.shiftRight_eq_div_pow] using hfield

theorem and_low_eq_zero_iff {w : Nat} (x : BitVec w) {d : Nat} (h : d < w) :
    x &&& ((1#w <<< d) - 1#w) = 0#w ↔ 2 ^ d ∣ x.toNat := by
  have hlow : (1#w <<< d) - 1#w = BitVec.ofNat w (2 ^ d - 1) <<< 0 := by
    rw [BitVec.shiftLeft_zero, ← BitVec.ofNat_sub_ofNat_of_le _ _ (Nat.one_lt_two_pow (by omega))
      Nat.one_le_two_pow, ← BitVec.twoPow_eq, ← BitVec.toNat_inj, BitVec.toNat_sub, BitVec.toNat_sub,
      BitVec.toNat_twoPow, BitVec.toNat_ofNat (2 ^ d)]
  rw [← BitVec.toNat_inj, hlow, toNat_and_mask x (by omega), Nat.dvd_iff_mod_eq_zero]
  simp

theorem and_bit_ne_zero_iff {w : Nat} (x : BitVec w) {d : Nat} (h : d < w) :
    x &&& (1#w <<< d) ≠ 0#w ↔ x.toNat / 2 ^ d % 2 = 1 := by
  have hfield : (x &&& (1#w <<< d)).toNat = x.toNat / 2 ^ d % 2 * 2 ^ d :=
    toNat_and_mask x (e := 1) (by omega)
  have hpos : 2 ^ d ≠ 0 := by positivity
  rw [Ne, ← BitVec.toNat_inj, hfield, BitVec.toNat_zero, Nat.mul_eq_zero, not_or]
  constructor
  · rintro ⟨hbit, -⟩
    omega
  · intro hbit
    exact ⟨by omega, hpos⟩

/-- A range checked with one comparison. -/
theorem sub_lt_sub_iff {w : Nat} {x lo hi : BitVec w} (h : lo ≤ hi) :
    x - lo < hi - lo ↔ lo ≤ x ∧ x < hi := by
  rw [BitVec.lt_def, BitVec.lt_def, BitVec.le_def, BitVec.toNat_sub_of_le h, BitVec.toNat_sub]
  rw [BitVec.le_def] at h
  have hx := x.isLt
  have hlo := lo.isLt
  have hhi := hi.isLt
  by_cases hle : lo.toNat ≤ x.toNat
  · have hsub : 2 ^ w - lo.toNat + x.toNat = x.toNat - lo.toNat + 2 ^ w := by omega
    rw [hsub, Nat.add_mod_right, Nat.mod_eq_of_lt (by omega)]
    omega
  · rw [Nat.mod_eq_of_lt (by omega)]
    omega

end LdbToolchain.Binary
