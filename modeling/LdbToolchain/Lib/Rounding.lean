import LdbToolchain.Lib.Binary

/-!
# Rounding to nearest

A result of floating-point arithmetic is the exact one rounded to the format, to the nearest number
and to the even one of two. `place` is the exponent of the last place that a number has in the format.
`nearest_eq_self` says which results are exact, and `abs_nearest_sub_le` bounds the error of the
others. `nearest_sub_add` is the theorem behind sums in two numbers: what a sum has lost can be had
back without a further error.
-/

namespace LdbToolchain.Binary

/-! ## Integers -/

/-- The nearest integer, and the even one of two. -/
def roundEven (q : ℚ) : ℤ :=
  if 1 / 2 < q - ⌊q⌋ ∨ q - ⌊q⌋ = 1 / 2 ∧ ¬ Even ⌊q⌋ then ⌊q⌋ + 1 else ⌊q⌋

theorem abs_roundEven_sub_le (q : ℚ) : |(roundEven q : ℚ) - q| ≤ 1 / 2 := by
  have hle := Int.floor_le q
  have hlt := Int.lt_floor_add_one q
  rw [roundEven]
  split
  · next h =>
      have hhalf : 1 / 2 ≤ q - ⌊q⌋ := by
        rcases h with h | ⟨h, -⟩
        · exact h.le
        · exact h.ge
      rw [abs_le]
      push_cast
      constructor
      · linarith
      · linarith
  · next h =>
      rw [not_or, not_lt] at h
      rw [abs_le]
      constructor
      · linarith [h.1]
      · linarith

theorem roundEven_le {q : ℚ} {z : ℤ} (h : q ≤ z) : roundEven q ≤ z := by
  have hclose := (abs_le.mp (abs_roundEven_sub_le q)).2
  have hlt : (roundEven q : ℚ) < z + 1 := by linarith
  exact Int.lt_add_one_iff.mp (by exact_mod_cast hlt)

theorem le_roundEven {q : ℚ} {z : ℤ} (h : z ≤ q) : z ≤ roundEven q := by
  have hclose := (abs_le.mp (abs_roundEven_sub_le q)).1
  have hlt : (z : ℚ) < roundEven q + 1 := by linarith
  exact Int.lt_add_one_iff.mp (by exact_mod_cast hlt)

/-- No other integer is nearer. -/
theorem abs_roundEven_sub_le_abs (q : ℚ) (z : ℤ) : |(roundEven q : ℚ) - q| ≤ |z - q| := by
  by_cases h : roundEven q = z
  · rw [h]
  · have hone : (1 : ℚ) ≤ |(roundEven q : ℚ) - z| := by
      exact_mod_cast Int.one_le_abs (sub_ne_zero.mpr h)
    have htriangle := abs_sub_le (roundEven q : ℚ) q z
    have hclose := abs_roundEven_sub_le q
    rw [abs_sub_comm q z] at htriangle
    linarith

/-! ## Grids -/

/-- A multiple of `2 ^ t`. -/
def OnGrid (t : ℤ) (q : ℚ) : Prop := ∃ z : ℤ, q = z * 2 ^ t

section Grid

variable {t u : ℤ} {a b : ℚ}

theorem OnGrid.mono (h : OnGrid t a) (hle : u ≤ t) : OnGrid u a := by
  obtain ⟨z, rfl⟩ := h
  obtain ⟨d, hd⟩ := Int.eq_ofNat_of_zero_le (sub_nonneg.mpr hle)
  refine ⟨z * 2 ^ d, ?_⟩
  rw [Int.cast_mul, Int.cast_pow, Int.cast_ofNat, ← zpow_natCast, ← hd, mul_assoc,
    ← zpow_add₀ two_ne_zero, sub_add_cancel]

theorem OnGrid.add (ha : OnGrid t a) (hb : OnGrid t b) : OnGrid t (a + b) := by
  obtain ⟨y, rfl⟩ := ha
  obtain ⟨z, rfl⟩ := hb
  exact ⟨y + z, by push_cast; ring⟩

theorem OnGrid.neg (ha : OnGrid t a) : OnGrid t (-a) := by
  obtain ⟨y, rfl⟩ := ha
  exact ⟨-y, by push_cast; ring⟩

theorem OnGrid.sub (ha : OnGrid t a) (hb : OnGrid t b) : OnGrid t (a - b) := by
  rw [sub_eq_add_neg]
  exact ha.add hb.neg

theorem OnGrid.mul (ha : OnGrid t a) (hb : OnGrid u b) : OnGrid (t + u) (a * b) := by
  obtain ⟨y, rfl⟩ := ha
  obtain ⟨z, rfl⟩ := hb
  exact ⟨y * z, by rw [zpow_add₀ two_ne_zero]; push_cast; ring⟩

theorem OnGrid.two_pow_le (ha : OnGrid t a) (h : a ≠ 0) : 2 ^ t ≤ |a| := by
  obtain ⟨z, rfl⟩ := ha
  have hpos : (0 : ℚ) < 2 ^ t := by positivity
  have hz : z ≠ 0 := by
    rintro rfl
    exact h (by rw [Int.cast_zero, zero_mul])
  have hone : (1 : ℚ) ≤ |(z : ℚ)| := by exact_mod_cast Int.one_le_abs hz
  rw [abs_mul, abs_of_pos hpos]
  exact le_mul_of_one_le_left hpos.le hone

/-- Below a power of two there is room for one unit. -/
theorem OnGrid.le_sub {n : Nat} (ha : OnGrid t a) (h : |a| < 2 ^ (t + n)) : |a| ≤ 2 ^ (t + n) - 2 ^ t := by
  obtain ⟨z, rfl⟩ := ha
  have hpos : (0 : ℚ) < 2 ^ t := by positivity
  rw [abs_mul, abs_of_pos hpos, zpow_add₀ two_ne_zero, zpow_natCast, mul_comm, ← Int.cast_abs] at h ⊢
  have hlt : ((|z| : ℤ) : ℚ) < 2 ^ n := lt_of_mul_lt_mul_left h hpos.le
  have hle : ((|z| : ℤ) : ℚ) + 1 ≤ 2 ^ n := by
    have hint : |z| < 2 ^ n := by exact_mod_cast hlt
    exact_mod_cast Int.add_one_le_iff.mpr hint
  calc 2 ^ t * ((|z| : ℤ) : ℚ) = 2 ^ t * (|z| + 1 : ℤ) - 2 ^ t := by push_cast; ring
    _ ≤ 2 ^ t * 2 ^ n - 2 ^ t := by
      refine sub_le_sub_right (mul_le_mul_of_nonneg_left ?_ hpos.le) _
      exact_mod_cast hle

end Grid

namespace Format

variable (F : Format)

/-- The exponent of the last place of a number. -/
def place (q : ℚ) : ℤ :=
  (if |q| < 2 ^ (2 - F.bias : ℤ) then (1 - F.bias : ℤ) else Int.log 2 |q|) - F.fracBits

/-- How many of the last place. -/
def units (q : ℚ) : Nat := (roundEven (|q| / 2 ^ F.place q)).toNat

/-- The pattern of the nearest number. Where the units make up the next power of two, the carry goes
to the exponent; what is too large becomes infinite. -/
def round (q : ℚ) : Nat :=
  (if q < 0 then F.signWeight else 0) +
    min F.infinity (((F.place q + F.fracBits + F.bias - 1) * 2 ^ F.fracBits).toNat + F.units q)

/-- The rounded number. -/
def nearest (q : ℚ) : ℚ := F.value (F.round q)

variable {F} {q : ℚ} {e : ℤ}

theorem place_ge : 1 - F.bias - F.fracBits ≤ F.place q := by
  rw [place]
  split
  · exact le_rfl
  · next h =>
      have hpos : 0 < |q| := lt_of_lt_of_le (by positivity) (not_lt.mp h)
      have hlog := (Int.zpow_le_iff_le_log (b := 2) (by decide) hpos).mp (not_lt.mp h)
      omega

theorem place_le (h : |q| < 2 ^ (e + 1)) (he : 1 - F.bias ≤ e) : F.place q ≤ e - F.fracBits := by
  rw [place]
  split
  · omega
  · next hlarge =>
      have hpos : 0 < |q| := lt_of_lt_of_le (by positivity) (not_lt.mp hlarge)
      have hlog := (Int.lt_zpow_iff_log_lt (b := 2) (by decide) hpos).mp h
      omega

theorem lt_two_pow_place : |q| < 2 ^ (F.place q + F.fracBits + 1) := by
  rw [place, sub_add_cancel]
  split
  · next h =>
      have hexp : (1 - F.bias + 1 : ℤ) = 2 - F.bias := by ring
      rwa [hexp]
  · exact Int.lt_zpow_succ_log_self (b := 2) (by decide) |q|

theorem two_pow_place_le (h : 1 - F.bias - F.fracBits < F.place q) :
    2 ^ (F.place q + F.fracBits) ≤ |q| := by
  rw [place] at h ⊢
  split
  · next hsmall =>
      rw [if_pos hsmall] at h
      omega
  · next hlarge =>
      have hpos : 0 < |q| := lt_of_lt_of_le (by positivity) (not_lt.mp hlarge)
      rw [sub_add_cancel]
      exact Int.zpow_log_le_self (b := 2) (by decide) hpos

/-- The last place of a number whose exponent is known. -/
theorem place_eq (hle : 2 ^ e ≤ |q|) (hlt : |q| < 2 ^ (e + 1)) (he : 1 - F.bias ≤ e) :
    F.place q = e - F.fracBits := by
  refine le_antisymm (place_le hlt he) ?_
  have hbelow := (zpow_lt_zpow_iff_right₀ (one_lt_two (α := ℚ))).mp (hle.trans_lt (lt_two_pow_place (F := F)))
  omega

theorem place_mono {a b : ℚ} (h : |b| ≤ |a|) : F.place b ≤ F.place a := by
  have hlow := place_ge (F := F) (q := a)
  have hle := place_le (F := F) (e := F.place a + F.fracBits) (h.trans_lt lt_two_pow_place) (by omega)
  omega

/-! ## What the units are -/

theorem units_cast : (F.units q : ℤ) = roundEven (|q| / 2 ^ F.place q) :=
  Int.toNat_of_nonneg (le_roundEven (by positivity))

theorem abs_units_sub_le : |(F.units q * 2 ^ F.place q - |q| : ℚ)| ≤ 2 ^ F.place q / 2 := by
  have hpos : (0 : ℚ) < 2 ^ F.place q := by positivity
  have hcast : (F.units q : ℚ) = roundEven (|q| / 2 ^ F.place q) := by exact_mod_cast units_cast
  have hclose := abs_roundEven_sub_le (|q| / 2 ^ F.place q)
  have hdiff : F.units q * 2 ^ F.place q - |q|
      = (roundEven (|q| / 2 ^ F.place q) - |q| / 2 ^ F.place q) * 2 ^ F.place q := by
    rw [hcast, sub_mul, div_mul_cancel₀ _ hpos.ne']
  rw [hdiff, abs_mul, abs_of_pos hpos]
  calc _ ≤ 1 / 2 * 2 ^ F.place q := mul_le_mul_of_nonneg_right hclose hpos.le
    _ = 2 ^ F.place q / 2 := by ring

theorem units_mul_le (h : |q| ≤ 2 ^ e) (he : F.place q ≤ e) : F.units q * 2 ^ F.place q ≤ (2 : ℚ) ^ e := by
  have hpos : (0 : ℚ) < 2 ^ F.place q := by positivity
  obtain ⟨d, hd⟩ := Int.eq_ofNat_of_zero_le (sub_nonneg.mpr he)
  have hsplit : (2 : ℚ) ^ e = (2 ^ d : ℤ) * 2 ^ F.place q := by
    rw [Int.cast_pow, ← zpow_natCast, Int.cast_ofNat, ← hd, ← zpow_add₀ two_ne_zero, sub_add_cancel]
  have hunits : (F.units q : ℤ) ≤ 2 ^ d := by
    rw [units_cast]
    refine roundEven_le ?_
    rw [div_le_iff₀ hpos, ← hsplit]
    exact h
  rw [hsplit]
  exact mul_le_mul_of_nonneg_right (by exact_mod_cast hunits) hpos.le

theorem units_le : F.units q ≤ 2 ^ (F.fracBits + 1) := by
  have hpos : (0 : ℚ) < 2 ^ F.place q := by positivity
  have hunits : (F.units q : ℤ) ≤ (2 ^ (F.fracBits + 1) : Nat) := by
    rw [units_cast]
    refine roundEven_le ?_
    rw [div_le_iff₀ hpos]
    push_cast
    rw [← zpow_natCast, ← zpow_add₀ two_ne_zero]
    refine (lt_two_pow_place (F := F)).le.trans_eq ?_
    congr 1
    push_cast
    ring
  exact_mod_cast hunits

theorem le_units (h : 1 - F.bias - F.fracBits < F.place q) : 2 ^ F.fracBits ≤ F.units q := by
  have hpos : (0 : ℚ) < 2 ^ F.place q := by positivity
  have hunits : ((2 ^ F.fracBits : Nat) : ℤ) ≤ F.units q := by
    rw [units_cast]
    refine le_roundEven ?_
    rw [le_div_iff₀ hpos]
    push_cast
    rw [← zpow_natCast, ← zpow_add₀ two_ne_zero, add_comm]
    exact two_pow_place_le h
  exact_mod_cast hunits

/-- The magnitude that is so many units of a place. -/
theorem size_units {p : ℤ} {m : Nat} (hplace : 1 - F.bias - F.fracBits ≤ p)
    (hle : m ≤ 2 ^ (F.fracBits + 1)) (hfull : 1 - F.bias - F.fracBits < p → 2 ^ F.fracBits ≤ m) :
    F.size (((p + F.fracBits + F.bias - 1) * 2 ^ F.fracBits).toNat + m) = m * 2 ^ p := by
  have hpos : (0 : ℤ) < 2 ^ F.fracBits := by positivity
  have hcast : ((((p + F.fracBits + F.bias - 1) * 2 ^ F.fracBits).toNat + m : Nat) : ℤ)
      = (p + F.fracBits + F.bias - 1) * 2 ^ F.fracBits + m := by
    rw [Nat.cast_add, Int.toNat_of_nonneg (mul_nonneg (by omega) hpos.le)]
  by_cases hlt : m < 2 ^ F.fracBits
  · have heq : p = 1 - F.bias - F.fracBits := by
      by_contra hne
      exact absurd (hfull (by omega)) (not_le.mpr hlt)
    have hzero : (p + F.fracBits + F.bias - 1) * 2 ^ F.fracBits = 0 := by
      rw [heq]
      ring
    rw [hzero, Int.toNat_zero, zero_add, size_of_lt hlt, heq]
  · have hm : 2 ^ F.fracBits ≤ m := not_lt.mp hlt
    rw [size_of_le (hm.trans (Nat.le_add_left _ _)), hcast]
    rcases Nat.lt_or_ge m (2 ^ (F.fracBits + 1)) with hlt | hge
    · have hray := ray_eq (F := F) (e := p + F.fracBits + F.bias) (f := m - 2 ^ F.fracBits)
        (by rw [sub_nonneg]; exact_mod_cast hm)
        (by rw [pow_succ] at hlt; zify at hlt; linarith)
      have hsplit : (p + F.fracBits + F.bias - 1) * 2 ^ F.fracBits + m
          = (p + F.fracBits + F.bias) * 2 ^ F.fracBits + (m - 2 ^ F.fracBits) := by ring
      rw [hsplit, hray, add_sub_cancel, Int.cast_natCast]
      congr 2
      ring
    · -- The carry.
      have hray := ray_eq (F := F) (e := p + F.fracBits + F.bias + 1) (f := 0) le_rfl hpos
      have htop : (m : ℤ) = 2 * 2 ^ F.fracBits := by
        rw [← pow_succ']
        exact_mod_cast le_antisymm hle hge
      have hsplit : (p + F.fracBits + F.bias - 1) * 2 ^ F.fracBits + m
          = (p + F.fracBits + F.bias + 1) * 2 ^ F.fracBits + 0 := by
        rw [htop]
        ring
      have hexp : p + F.fracBits + F.bias + 1 - F.bias - F.fracBits = p + 1 := by ring
      rw [hsplit, hray, hexp, add_zero, zpow_add_one₀ two_ne_zero, ← Int.cast_natCast m, htop]
      push_cast
      ring

/-- Between two powers of two the numbers are evenly spaced. -/
theorem size_eq_mul {e f : Nat} (he : 1 ≤ e) (hle : f ≤ 2 ^ F.fracBits) :
    F.size (e * 2 ^ F.fracBits + f) = (2 ^ F.fracBits + f : ℤ) * 2 ^ (e - F.bias - F.fracBits : ℤ) := by
  have hpos : (0 : ℤ) < 2 ^ F.fracBits := by positivity
  have hbig : 2 ^ F.fracBits ≤ e * 2 ^ F.fracBits + f :=
    (Nat.le_mul_of_pos_left _ he).trans (Nat.le_add_right _ _)
  rw [size_of_le hbig, Nat.cast_add, Nat.cast_mul, Nat.cast_pow, Nat.cast_ofNat]
  rcases Nat.lt_or_ge f (2 ^ F.fracBits) with hlt | hge
  · exact ray_eq (Int.natCast_nonneg f) (by exact_mod_cast hlt)
  · have htop : (f : ℤ) = 2 ^ F.fracBits := by exact_mod_cast le_antisymm hle hge
    have hray := ray_eq (F := F) (e := e + 1) (f := 0) le_rfl hpos
    have hsplit : (e * 2 ^ F.fracBits + f : ℤ) = (e + 1) * 2 ^ F.fracBits + 0 := by
      rw [htop]
      ring
    have hexp : (e + 1 - F.bias - F.fracBits : ℤ) = e - F.bias - F.fracBits + 1 := by ring
    rw [hsplit, hray, hexp, htop, zpow_add_one₀ two_ne_zero]
    push_cast
    ring

/-! ## What the rounded number is -/

section Value

variable (hbias : 1 ≤ F.bias) (hexp : F.expBits ≠ 0)

include hbias hexp

theorem size_infinity : F.size F.infinity = 2 ^ (F.bias + 1 : ℤ) := by
  have htwo : 2 ^ F.expBits = 2 * 2 ^ (F.expBits - 1) := by
    rw [← pow_succ', Nat.sub_add_cancel (Nat.one_le_iff_ne_zero.mpr hexp)]
  have hbias' : F.bias = 2 ^ (F.expBits - 1) - 1 := rfl
  rw [infinity, size_mul_two_pow (by omega)]
  congr 1
  omega

omit hexp in
theorem place_le_bias (h : |q| ≤ 2 ^ (F.bias : ℤ)) : F.place q ≤ F.bias := by
  have hle := place_le (F := F) (q := q) (e := F.bias)
    (h.trans_lt ((zpow_lt_zpow_iff_right₀ one_lt_two).mpr (by omega))) (by omega)
  omega

/-- The pattern of a rounded number that is not too large. -/
theorem round_spec (h : |q| ≤ 2 ^ (F.bias : ℤ)) :
    F.IsFinite (F.round q) ∧ F.negative (F.round q) = decide (q < 0) ∧
      F.size (F.magnitude (F.round q)) = F.units q * 2 ^ F.place q := by
  have hplace := place_le_bias hbias h
  have hsize := size_units (F := F) (place_ge (q := q)) units_le le_units
  have hlt : ((F.place q + F.fracBits + F.bias - 1) * 2 ^ F.fracBits).toNat + F.units q < F.infinity := by
    rw [← size_strictMono.lt_iff_lt, hsize, size_infinity hbias hexp]
    exact (units_mul_le h hplace).trans_lt ((zpow_lt_zpow_iff_right₀ one_lt_two).mpr (by omega))
  have hinf := F.infinity_lt
  have hround : F.round q = (if q < 0 then F.signWeight else 0)
      + (((F.place q + F.fracBits + F.bias - 1) * 2 ^ F.fracBits).toNat + F.units q) := by
    rw [round, min_eq_right hlt.le]
  have hmag : F.magnitude (F.round q)
      = ((F.place q + F.fracBits + F.bias - 1) * 2 ^ F.fracBits).toNat + F.units q := by
    rw [hround, magnitude]
    split
    · rw [Nat.add_mod_left, Nat.mod_eq_of_lt (by omega)]
    · rw [Nat.zero_add, Nat.mod_eq_of_lt (by omega)]
  refine ⟨by rw [IsFinite, hmag]; exact hlt, ?_, by rw [hmag, hsize]⟩
  rw [negative, decide_eq_decide, hround]
  split
  · next hneg => exact iff_of_true (by omega) hneg
  · next hneg => exact iff_of_false (by omega) hneg

theorem value_nearest (h : |q| ≤ 2 ^ (F.bias : ℤ)) :
    F.nearest q = (if q < 0 then -1 else 1) * (F.units q * 2 ^ F.place q) := by
  obtain ⟨-, hneg, hsize⟩ := round_spec hbias hexp h
  rw [nearest, value, hneg, hsize]
  by_cases hlt : q < 0
  · rw [decide_eq_true hlt, if_pos rfl, if_pos hlt, neg_one_mul]
  · rw [decide_eq_false hlt, if_neg Bool.false_ne_true, if_neg hlt, one_mul]

theorem abs_nearest_sub (h : |q| ≤ 2 ^ (F.bias : ℤ)) :
    |F.nearest q - q| = |(F.units q * 2 ^ F.place q - |q| : ℚ)| := by
  rw [value_nearest hbias hexp h]
  split
  · next hneg =>
      rw [abs_of_neg hneg, ← abs_neg]
      congr 1
      ring
  · next hneg => rw [abs_of_nonneg (not_lt.mp hneg), one_mul]

/-- The error is at most half a unit in the last place. -/
theorem abs_nearest_sub_le (h : |q| ≤ 2 ^ (F.bias : ℤ)) (hlt : |q| < 2 ^ (e + 1))
    (he : 1 - F.bias ≤ e) : |F.nearest q - q| ≤ 2 ^ (e - F.fracBits : ℤ) / 2 := by
  rw [abs_nearest_sub hbias hexp h]
  refine abs_units_sub_le.trans (div_le_div_of_nonneg_right ?_ two_pos.le)
  exact (zpow_le_zpow_iff_right₀ one_lt_two).mpr (place_le hlt he)

/-- Rounded numbers are multiples of their last place. -/
theorem onGrid_nearest (h : |q| ≤ 2 ^ (F.bias : ℤ)) : OnGrid (F.place q) (F.nearest q) := by
  rw [value_nearest hbias hexp h]
  split
  · exact ⟨-F.units q, by push_cast; ring⟩
  · exact ⟨F.units q, by push_cast; ring⟩

/-- No multiple of the last place is nearer. -/
theorem abs_nearest_sub_le_of_onGrid (h : |q| ≤ 2 ^ (F.bias : ℤ)) {a : ℚ} (ha : OnGrid (F.place q) a) :
    |F.nearest q - q| ≤ |a - q| := by
  obtain ⟨z, hz⟩ : ∃ z : ℤ, |a - q| = |(z * 2 ^ F.place q - |q| : ℚ)| := by
    rcases abs_choice q with hq | hq
    · obtain ⟨z, rfl⟩ := ha
      exact ⟨z, by rw [hq]⟩
    · obtain ⟨z, hz⟩ := ha.neg
      exact ⟨z, by rw [← hz, hq, ← abs_neg, neg_sub, neg_sub_neg]⟩
  have hpos : (0 : ℚ) < 2 ^ F.place q := by positivity
  have hscale : ∀ y : ℤ, |(y * 2 ^ F.place q - |q| : ℚ)|
      = |y - |q| / 2 ^ F.place q| * 2 ^ F.place q := by
    intro y
    rw [← abs_of_pos hpos, ← abs_mul, abs_of_pos hpos, sub_mul, div_mul_cancel₀ _ hpos.ne']
  rw [abs_nearest_sub hbias hexp h, hz, ← Int.cast_natCast, units_cast, hscale, hscale]
  exact mul_le_mul_of_nonneg_right (abs_roundEven_sub_le_abs _ z) hpos.le

/-- A number with few enough digits is its own rounding. -/
theorem nearest_eq_self {t : ℤ} (hgrid : OnGrid t q) (hle : |q| ≤ 2 ^ (t + F.fracBits + 1))
    (ht : 1 - F.bias - F.fracBits ≤ t) (h : |q| ≤ 2 ^ (F.bias : ℤ)) : F.nearest q = q := by
  have hself : OnGrid (F.place q) q := by
    rcases lt_or_eq_of_le hle with hlt | heq
    · have hplace := place_le (F := F) hlt (by omega)
      exact hgrid.mono (by omega)
    · -- The next power of two is on a coarser grid.
      have hpower : OnGrid (t + F.fracBits + 1) q := by
        rcases abs_choice q with hq | hq
        · exact ⟨1, by rw [← heq, hq, Int.cast_one, one_mul]⟩
        · exact ⟨-1, by rw [← heq, hq, Int.cast_neg, Int.cast_one, neg_one_mul, neg_neg]⟩
      have hlt : |q| < 2 ^ (t + F.fracBits + 1 + 1) :=
        heq.trans_lt ((zpow_lt_zpow_iff_right₀ one_lt_two).mpr (by omega))
      have hplace := place_le (F := F) hlt (by omega)
      exact hpower.mono (by omega)
  have hzero := abs_nearest_sub_le_of_onGrid hbias hexp h hself
  rw [sub_self, abs_zero] at hzero
  exact sub_eq_zero.mp (abs_eq_zero.mp (le_antisymm hzero (abs_nonneg _)))

theorem abs_nearest_sub_le_place (h : |q| ≤ 2 ^ (F.bias : ℤ)) :
    |F.nearest q - q| ≤ 2 ^ F.place q / 2 := by
  rw [abs_nearest_sub hbias hexp h]
  exact abs_units_sub_le

/-- What a product has lost: the error of a number with at most twice as many digits is a number of
the format. -/
theorem nearest_sub_nearest {t : ℤ} (hgrid : OnGrid t q) (h : |q| ≤ 2 ^ (F.bias : ℤ))
    (hlt : |q| < 2 ^ (e + 1)) (he : 1 - F.bias ≤ e) (ht : 1 - F.bias - F.fracBits ≤ t)
    (hdigits : e ≤ t + 2 * F.fracBits + 1) : F.nearest (q - F.nearest q) = q - F.nearest q := by
  have hclose := abs_nearest_sub_le_place hbias hexp h
  have hplace := place_le hlt he
  have hhalf : (2 : ℚ) ^ F.place q / 2 ≤ 2 ^ (F.place q) :=
    half_le_self (by positivity)
  have hpow : (2 : ℚ) ^ F.place q ≤ 2 ^ (t + F.fracBits + 1) :=
    (zpow_le_zpow_iff_right₀ one_lt_two).mpr (by omega)
  have hsmall : (2 : ℚ) ^ F.place q ≤ 2 ^ (F.bias : ℤ) :=
    (zpow_le_zpow_iff_right₀ one_lt_two).mpr (place_le_bias hbias h)
  rw [abs_sub_comm] at hclose
  refine nearest_eq_self (t := t) hbias hexp ?_ (by linarith) ht (by linarith)
  rcases le_or_gt t (F.place q) with hle | hgt
  · exact hgrid.sub ((onGrid_nearest hbias hexp h).mono hle)
  · -- The number is exact.
    have hzero := abs_nearest_sub_le_of_onGrid hbias hexp h (hgrid.mono hgt.le)
    rw [sub_self, abs_zero] at hzero
    rw [sub_eq_zero.mp (abs_eq_zero.mp (le_antisymm hzero (abs_nonneg _))), sub_self]
    exact ⟨0, by rw [Int.cast_zero, zero_mul]⟩

/-! ## What a sum has lost -/

variable {a b : ℚ} (ha : F.nearest a = a) (hb : F.nearest b = b) (hle : |b| ≤ |a|)
  (h : |a| ≤ 2 ^ (F.bias - 1 : ℤ))

omit hbias hexp in
include hle h in
theorem abs_le_of_half : |a| ≤ 2 ^ (F.bias : ℤ) ∧ |b| ≤ 2 ^ (F.bias : ℤ) ∧ |a + b| ≤ 2 ^ (F.bias : ℤ) := by
  have htwo : (2 : ℚ) ^ (F.bias : ℤ) = 2 ^ (F.bias - 1 : ℤ) * 2 := by
    rw [← zpow_add_one₀ two_ne_zero, sub_add_cancel]
  have hpos : (0 : ℚ) < 2 ^ (F.bias - 1 : ℤ) := by positivity
  have hsum := abs_add_le a b
  rw [htwo]
  exact ⟨by linarith, by linarith, by linarith⟩

include ha hle h in
/-- When the sum has a coarser last place than its first number has, it is by one bit, and the second
number is at least a unit of the first. -/
theorem carry (hlt : F.place a < F.place (a + b)) :
    F.place (a + b) = F.place a + 1 ∧ 2 ^ F.place a ≤ |b| ∧
      |a| ≤ 2 ^ (F.place a + F.fracBits + 1) - 2 ^ F.place a := by
  obtain ⟨hafin, -, hsum⟩ := abs_le_of_half hle h
  have hgrid : OnGrid (F.place a) a := by
    have hnearest := onGrid_nearest hbias hexp hafin
    rwa [ha] at hnearest
  have hroom : |a| ≤ 2 ^ (F.place a + F.fracBits + 1) - 2 ^ F.place a := by
    have hlt' := lt_two_pow_place (F := F) (q := a)
    have hexp' : F.place a + F.fracBits + 1 = F.place a + (F.fracBits + 1 : Nat) := by
      push_cast
      ring
    rw [hexp'] at hlt' ⊢
    exact hgrid.le_sub hlt'
  have hadd := abs_add_le a b
  have hdouble : |a + b| < 2 ^ (F.place a + F.fracBits + 1 + 1) := by
    rw [zpow_add_one₀ two_ne_zero]
    have hlt' := lt_two_pow_place (F := F) (q := a)
    linarith
  have hlow := place_ge (F := F) (q := a)
  have hplace := place_le (F := F) hdouble (by omega)
  have heq : F.place (a + b) = F.place a + 1 := by omega
  have hfull := two_pow_place_le (F := F) (q := a + b) (by omega)
  rw [heq, add_right_comm] at hfull
  exact ⟨heq, by linarith, hroom⟩

include ha hle h in
/-- The rounding takes away no more than what was added. -/
theorem abs_sum_error_le : |a + b - F.nearest (a + b)| ≤ |b| := by
  obtain ⟨hafin, -, hsum⟩ := abs_le_of_half hle h
  rw [abs_sub_comm]
  rcases le_or_gt (F.place (a + b)) (F.place a) with hplace | hplace
  · have hgrid : OnGrid (F.place a) a := by
      have hnearest := onGrid_nearest hbias hexp hafin
      rwa [ha] at hnearest
    have hclose := abs_nearest_sub_le_of_onGrid hbias hexp hsum (hgrid.mono hplace)
    rwa [sub_add_cancel_left, abs_neg] at hclose
  · obtain ⟨heq, hunit, -⟩ := carry hbias hexp ha hle h hplace
    have hclose := abs_nearest_sub_le_place hbias hexp hsum
    rw [heq, zpow_add_one₀ two_ne_zero, mul_div_cancel_right₀ _ two_ne_zero] at hclose
    exact hclose.trans hunit

include ha hb hle h in
/-- **The error of a sum.** In nearest rounding the error of `a + b` is a number of the format, and is
had without a further error by taking the sum from `a` and adding `b`. -/
theorem nearest_sub_add :
    F.nearest (a - F.nearest (a + b)) = a - F.nearest (a + b) ∧
      F.nearest (a - F.nearest (a + b) + b) = a - F.nearest (a + b) + b := by
  obtain ⟨hafin, hbfin, hsum⟩ := abs_le_of_half hle h
  have hga : OnGrid (F.place a) a := by
    have hnearest := onGrid_nearest hbias hexp hafin
    rwa [ha] at hnearest
  have hgb : OnGrid (F.place b) b := by
    have hnearest := onGrid_nearest hbias hexp hbfin
    rwa [hb] at hnearest
  have hgs := onGrid_nearest hbias hexp hsum
  have hmono := place_mono (F := F) hle
  have hblt := lt_two_pow_place (F := F) (q := b)
  have herror := abs_sum_error_le hbias hexp ha hle h
  have hclose := abs_nearest_sub_le_place hbias hexp hsum
  rw [abs_sub_comm] at hclose
  have hsplit : a - F.nearest (a + b) = a + b - F.nearest (a + b) - b := by ring
  have hdiff : |a - F.nearest (a + b)| ≤ |a + b - F.nearest (a + b)| + |b| := by
    rw [hsplit]
    exact abs_sub _ _
  have hpow : (2 : ℚ) ^ (F.bias : ℤ) = 2 ^ (F.bias - 1 : ℤ) * 2 := by
    rw [← zpow_add_one₀ two_ne_zero, sub_add_cancel]
  have hbound : |a - F.nearest (a + b)| ≤ 2 ^ (F.bias : ℤ) := by
    rw [hpow]
    linarith
  rcases le_or_gt (F.place (a + b)) (F.place b) with hfine | hcoarse
  · -- The sum is exact.
    have hexact : F.nearest (a + b) = a + b :=
      nearest_eq_self hbias hexp ((hga.mono (hfine.trans hmono)).add (hgb.mono hfine))
        lt_two_pow_place.le place_ge hsum
    have hneg : a - F.nearest (a + b) = -b := by
      rw [hexact]
      ring
    have hzero : -b + b = 0 := neg_add_cancel b
    rw [hneg, hzero]
    refine ⟨nearest_eq_self hbias hexp hgb.neg ?_ place_ge (by rwa [abs_neg]), ?_⟩
    · rw [abs_neg]
      exact hblt.le
    · exact nearest_eq_self (t := F.place b) hbias hexp ⟨0, by rw [Int.cast_zero, zero_mul]⟩
        (by rw [abs_zero]; positivity) place_ge (by rw [abs_zero]; positivity)
  · have hgsum : a - F.nearest (a + b) + b = a + b - F.nearest (a + b) := by ring
    constructor
    · rcases le_or_gt (F.place (a + b)) (F.place a) with hplace | hplace
      · refine nearest_eq_self hbias hexp ((hga.mono hplace).sub hgs) ?_ place_ge hbound
        have hhalf : |b| ≤ 2 ^ (F.place (a + b) + F.fracBits : ℤ) :=
          hblt.le.trans ((zpow_le_zpow_iff_right₀ one_lt_two).mpr (by omega))
        have hunit : (2 : ℚ) ^ F.place (a + b) ≤ 2 ^ (F.place (a + b) + F.fracBits : ℤ) :=
          (zpow_le_zpow_iff_right₀ one_lt_two).mpr (by omega)
        have hpos : (0 : ℚ) < 2 ^ F.place (a + b) := by positivity
        rw [zpow_add_one₀ two_ne_zero]
        linarith
      · obtain ⟨heq, -, hroom⟩ := carry hbias hexp ha hle h hplace
        rw [heq, zpow_add_one₀ two_ne_zero, mul_div_cancel_right₀ _ two_ne_zero] at hclose
        refine nearest_eq_self hbias hexp (hga.sub (hgs.mono hplace.le)) ?_ place_ge hbound
        linarith
    · rw [hgsum]
      refine nearest_eq_self hbias hexp
        (((hga.mono hmono).add hgb).sub (hgs.mono hcoarse.le)) (herror.trans hblt.le) place_ge ?_
      exact herror.trans hbfin

include ha hb h in
/-- The sum and its error make up the sum. -/
theorem nearest_add_error (hle : a = 0 ∨ |b| ≤ |a|) (hfin : |b| ≤ 2 ^ (F.bias : ℤ)) :
    F.nearest (a + b) + F.nearest (F.nearest (a - F.nearest (a + b)) + b) = a + b := by
  rcases hle with rfl | hle
  · have hneg : F.nearest (-b) = -b := by
      have hgrid := onGrid_nearest hbias hexp hfin
      rw [hb] at hgrid
      refine nearest_eq_self hbias hexp hgrid.neg ?_ place_ge (by rwa [abs_neg])
      rw [abs_neg]
      exact lt_two_pow_place.le
    rw [zero_add, hb, zero_sub, hneg, neg_add_cancel, ha, add_zero]
  · obtain ⟨hdiff, hsum⟩ := nearest_sub_add hbias hexp ha hb hle h
    rw [hdiff, hsum]
    ring

/-- Rounded numbers are numbers of the format. -/
theorem nearest_nearest (hq : |q| ≤ 2 ^ (F.bias : ℤ)) : F.nearest (F.nearest q) = F.nearest q := by
  have habs : |F.nearest q| = F.units q * 2 ^ F.place q := by
    rw [value_nearest hbias hexp hq]
    split
    · rw [neg_one_mul, abs_neg, abs_of_nonneg (by positivity)]
    · rw [one_mul, abs_of_nonneg (by positivity)]
  have hplace := place_le_bias hbias hq
  refine nearest_eq_self hbias hexp (onGrid_nearest hbias hexp hq) ?_ place_ge ?_
  · have hunits : (F.units q : ℚ) ≤ 2 ^ (F.fracBits + 1) := by exact_mod_cast units_le (F := F)
    have hsplit : F.place q + F.fracBits + 1 = (F.fracBits + 1 : Nat) + F.place q := by
      push_cast
      ring
    rw [habs, hsplit, zpow_add₀ two_ne_zero, zpow_natCast]
    exact mul_le_mul_of_nonneg_right hunits (by positivity)
  · rw [habs]
    exact units_mul_le hq hplace

end Value

end Format

end LdbToolchain.Binary
