import LdbToolchain.Lib.Rounding
import LdbToolchain.Math.PowCases

/-!
# The head of the logarithm in `pow`

`log_inline` needs more digits than a number has: its result is in two numbers, and most of its steps
are there to keep what the others would lose. Here are these steps, with and without a fused
multiply-add, in arithmetic that rounds to nearest, and the sum they make up. Left out are the
polynomial and the products with the tails of the constants.
-/

namespace LdbToolchain.Math

open Binary

namespace Pow

/-! ## The code -/

/-- `Ln2hi` -/
def ln2hi : ℚ := double.value 0x3fe62e42fefa3800

/-- What `log_inline` adds up in the end, and the `rhi` of the square that `hi` takes away. -/
structure LogHead where
  r : ℚ
  rhi : ℚ
  hi : ℚ
  lo2 : ℚ
  lo3 : ℚ
  lo4 : ℚ

/-- The sum k*Ln2 + log(c) + r with a fused multiply-add. -/
def headFma (z invc t1 : ℚ) : LogHead :=
  let r := double.nearest (z * invc + -1)
  let t2 := double.nearest (t1 + r)
  let lo2 := double.nearest (double.nearest (t1 - t2) + r)
  -- k*Ln2 + log(c) + r + A[0]*r*r.
  let ar := double.nearest (-1 / 2 * r)
  let ar2 := double.nearest (r * ar)
  let hi := double.nearest (t2 + ar2)
  let lo3 := double.nearest (ar * r - ar2)
  let lo4 := double.nearest (double.nearest (t2 - hi) + ar2)
  { r, rhi := r, hi, lo2, lo3, lo4 }

/-- The same without it: `z` is split so that the product with `invc` is exact. -/
def head (z zhi invc t1 : ℚ) : LogHead :=
  let zlo := double.nearest (z - zhi)
  let rhi := double.nearest (double.nearest (zhi * invc) - 1)
  let rlo := double.nearest (zlo * invc)
  let r := double.nearest (rhi + rlo)
  let t2 := double.nearest (t1 + r)
  let lo2 := double.nearest (double.nearest (t1 - t2) + r)
  -- k*Ln2 + log(c) + r + A[0]*r*r.
  let ar := double.nearest (-1 / 2 * r)
  let arhi := double.nearest (-1 / 2 * rhi)
  let arhi2 := double.nearest (rhi * arhi)
  let hi := double.nearest (t2 + arhi2)
  let lo3 := double.nearest (rlo * double.nearest (ar + arhi))
  let lo4 := double.nearest (double.nearest (t2 - hi) + arhi2)
  { r, rhi, hi, lo2, lo3, lo4 }

/-- The upper half of `z`, rounded. -/
def zhi (iz : Word) : Word := (iz + (1#64 <<< 31)) &&& (-1#64 <<< 32)

/-- `kd * Ln2hi + logc` -/
def t1 (k : ℤ) (logc : ℚ) : ℚ := double.nearest (double.nearest (k * ln2hi) + logc)

def logHead (fma : Bool) (parts : Parts 64) (invc : HexFloat) : Option LogHead := do
  let logc ← powLogc[parts.i]?
  let z := double.value parts.iz.toNat
  let t1 := t1 parts.k (double.value logc.toNat)
  if fma then return headFma z invc.val t1
  else return head z (double.value (zhi parts.iz).toNat) invc.val t1

/-! ## Exact steps -/

/-- A number with at most 53 digits, on the grid of its last one. -/
theorem nearest_eq {t : ℤ} {q : ℚ} (hgrid : OnGrid t q) (hle : |q| ≤ 2 ^ (t + 53)) (hlow : -1074 ≤ t)
    (hhigh : t ≤ 900) : double.nearest q = q := by
  have hfrac : (t + double.fracBits + 1 : ℤ) = t + 53 := by
    show (t + (52 : Nat) + 1 : ℤ) = _
    omega
  refine Format.nearest_eq_self (by decide) (by decide) hgrid (by rwa [hfrac]) ?_ ?_
  · show (1 - (1023 : Nat) - (52 : Nat) : ℤ) ≤ t
    omega
  · exact hle.trans ((zpow_le_zpow_iff_right₀ one_lt_two).mpr (show t + 53 ≤ ((1023 : Nat) : ℤ) by omega))

/-- `z` with its upper half and the number of the table for it: on which grids they lie, and how close
they are. `u` is the last place of `z`. -/
structure Reduced (z zhi invc : ℚ) (u : ℤ) : Prop where
  place : u = -53 ∨ u = -52
  grid : OnGrid u z
  upper : OnGrid (u + 32) zhi
  close : |z - zhi| ≤ 2 ^ (u + 31)
  factor : OnGrid (-60 - u) invc
  invc_pos : 0 < invc
  invc_le : invc ≤ 3 / 2
  near : |z * invc - 1| < 3 / 512

namespace Reduced

variable {z zhi invc : ℚ} {u : ℤ} (h : Reduced z zhi invc u)

include h

theorem abs_zlo_mul : |(z - zhi) * invc| ≤ 1 / 2 ^ 20 := by
  have hlast : (2 : ℚ) ^ (u + 31) ≤ 1 / 2 ^ 21 := by
    rcases h.place with rfl | rfl
    · norm_num
    · norm_num
  rw [abs_mul, abs_of_pos h.invc_pos]
  calc |z - zhi| * invc ≤ 1 / 2 ^ 21 * (3 / 2) :=
        mul_le_mul (h.close.trans hlast) h.invc_le h.invc_pos.le (by norm_num)
    _ ≤ 1 / 2 ^ 20 := by norm_num

theorem abs_rhi : |zhi * invc - 1| < 1 / 128 := by
  have hlo := h.abs_zlo_mul
  have hsplit : zhi * invc - 1 = z * invc - 1 - (z - zhi) * invc := by ring
  have htriangle := abs_sub (z * invc - 1) ((z - zhi) * invc)
  rw [hsplit]
  linarith [h.near]

theorem onGrid_r : OnGrid (-60) (z * invc - 1) := by
  have hprod := h.grid.mul h.factor
  rw [add_sub_cancel] at hprod
  exact hprod.sub ⟨2 ^ 60, by norm_num⟩

theorem onGrid_rhi : OnGrid (-28) (zhi * invc - 1) := by
  have hprod := h.upper.mul h.factor
  have hexp : u + 32 + (-60 - u) = -28 := by ring
  rw [hexp] at hprod
  exact hprod.sub ⟨2 ^ 28, by norm_num⟩

/-- `r` is exact. -/
theorem nearest_r : double.nearest (z * invc - 1) = z * invc - 1 :=
  nearest_eq h.onGrid_r (h.near.le.trans (by norm_num)) (by norm_num) (by norm_num)

theorem nearest_zlo : double.nearest (z - zhi) = z - zhi := by
  refine nearest_eq (h.grid.sub (h.upper.mono (by omega))) (h.close.trans ?_) ?_ ?_
  · exact (zpow_le_zpow_iff_right₀ one_lt_two).mpr (by omega)
  · rcases h.place with rfl | rfl <;> norm_num
  · rcases h.place with rfl | rfl <;> norm_num

/-- So are the product of the upper half, its distance from 1, and the product of the rest. -/
theorem nearest_rhi : double.nearest (double.nearest (zhi * invc) - 1) = zhi * invc - 1 := by
  have hprod : OnGrid (-28) (zhi * invc) := by
    have hadd := h.onGrid_rhi.add ⟨2 ^ 28, by norm_num⟩ (b := 1)
    rwa [sub_add_cancel] at hadd
  have hsmall := h.abs_rhi
  have hbound : |zhi * invc| ≤ 2 ^ (-28 + 53 : ℤ) := by
    have htriangle := abs_sub_abs_le_abs_sub (zhi * invc) 1
    rw [abs_one] at htriangle
    refine le_trans ?_ (show (2 : ℚ) ≤ 2 ^ (-28 + 53 : ℤ) by norm_num)
    linarith
  rw [nearest_eq hprod hbound (by norm_num) (by norm_num)]
  exact nearest_eq h.onGrid_rhi (hsmall.le.trans (by norm_num)) (by norm_num) (by norm_num)

theorem nearest_rlo : double.nearest ((z - zhi) * invc) = (z - zhi) * invc := by
  have hprod := (h.grid.sub (h.upper.mono (by omega))).mul h.factor
  rw [add_sub_cancel] at hprod
  exact nearest_eq hprod (h.abs_zlo_mul.trans (by norm_num)) (by norm_num) (by norm_num)

end Reduced

/-- The sum that goes before `r`: exact, and either 0, for numbers around 1, or larger than `r`. -/
structure Leading (t invc : ℚ) : Prop where
  grid : OnGrid (-43) t
  le : |t| ≤ 2 ^ 10
  dominates : t = 0 ∧ invc = 1 ∨ 7 / 1024 ≤ |t|

theorem Leading.nearest {t invc : ℚ} (h : Leading t invc) : double.nearest t = t :=
  nearest_eq h.grid (h.le.trans (by norm_num)) (by norm_num) (by norm_num)

/-- Small numbers are in range. -/
theorem le_bias {q : ℚ} {n : Nat} (h : |q| ≤ 2 ^ n) (hn : n ≤ 1000) : |q| ≤ 2 ^ (double.bias : ℤ) := by
  refine h.trans ?_
  rw [← zpow_natCast]
  exact (zpow_le_zpow_iff_right₀ one_lt_two).mpr (show (n : ℤ) ≤ ((1023 : Nat) : ℤ) by omega)

theorem le_bias_sub_one {q : ℚ} (h : |q| ≤ 2 ^ 11) : |q| ≤ 2 ^ (double.bias - 1 : ℤ) := by
  refine h.trans ?_
  rw [← zpow_natCast]
  exact (zpow_le_zpow_iff_right₀ one_lt_two).mpr (by decide)

/-- A sum and its error, which the code takes with two more operations. -/
theorem sum_exact {a b : ℚ} (ha : double.nearest a = a) (hb : double.nearest b = b) (hle : |a| ≤ 2 ^ 11)
    (hsmall : |b| ≤ 1) (hdominates : a = 0 ∨ |b| ≤ |a|) :
    double.nearest (a + b) + double.nearest (double.nearest (a - double.nearest (a + b)) + b) = a + b :=
  Format.nearest_add_error (by decide) (by decide) ha hb (le_bias_sub_one hle) hdominates
    (le_bias (n := 0) (hsmall.trans (by norm_num)) (by decide))

/-- The two sums, of `t` with `r` and of the result with a smaller number, and their errors. -/
theorem sums_exact {t invc r b : ℚ} (ht : Leading t invc) (hr : double.nearest r = r)
    (hsmall : |r| < 3 / 512) (hb : double.nearest b = b) (hle : |b| ≤ 1 / 2048)
    (hzero : t = 0 → |b| ≤ |r|) :
    double.nearest (t + r) + double.nearest (double.nearest (t - double.nearest (t + r)) + r) = t + r ∧
      double.nearest (double.nearest (t + r) + b)
        + double.nearest (double.nearest (double.nearest (t + r)
          - double.nearest (double.nearest (t + r) + b)) + b) = double.nearest (t + r) + b := by
  have hbias : 1 ≤ double.bias := by decide
  have hexp : double.expBits ≠ 0 := by decide
  have hsum : |t + r| < 2 ^ (10 + 1 : ℤ) := by
    have htriangle := abs_add_le t r
    have ht10 := ht.le
    norm_num at ht10 ⊢
    linarith
  have hfin : |t + r| ≤ 2 ^ (double.bias : ℤ) :=
    le_bias (n := 11) (hsum.le.trans (by norm_num)) (by decide)
  have herror := Format.abs_nearest_sub_le hbias hexp hfin hsum (by decide)
  have hulp : (2 ^ (10 - double.fracBits : ℤ) / 2 : ℚ) = 1 / 2 ^ 43 := by norm_num [double]
  rw [hulp] at herror
  constructor
  · refine sum_exact ht.nearest hr (ht.le.trans (by norm_num)) (hsmall.le.trans (by norm_num)) ?_
    rcases ht.dominates with ⟨h0, -⟩ | hdom
    · exact .inl h0
    · exact .inr (by linarith)
  · have hback := abs_sub_abs_le_abs_sub (double.nearest (t + r)) (t + r)
    refine sum_exact (Format.nearest_nearest hbias hexp hfin) hb ?_ (hle.trans (by norm_num)) (.inr ?_)
    · have htriangle := abs_add_le t r
      have ht10 := ht.le
      norm_num at ht10 ⊢
      linarith
    · rcases ht.dominates with ⟨h0, -⟩ | hdom
      · rw [h0, zero_add, hr]
        exact hzero h0
      · have hlow := abs_sub_abs_le_abs_sub t (-r)
        have hlow' := abs_sub_abs_le_abs_sub (t + r) (double.nearest (t + r))
        rw [abs_neg, sub_neg_eq_add] at hlow
        rw [abs_sub_comm] at hlow'
        norm_num at herror
        linarith

theorem half_exact {t : ℤ} {q : ℚ} (hgrid : OnGrid t q) (hle : |q| ≤ 2 ^ (t + 53)) (hlow : -1073 ≤ t)
    (hhigh : t ≤ 900) : double.nearest (-1 / 2 * q) = -1 / 2 * q := by
  have hhalf : OnGrid (-1 + t) (-1 / 2 * q) := by
    have hone : OnGrid (-1) (-1 / 2) := ⟨-1, by norm_num⟩
    exact hone.mul hgrid
  refine nearest_eq hhalf ?_ (by omega) (by omega)
  have hsplit : -1 + t + 53 = -1 + (t + 53) := by ring
  rw [abs_mul, hsplit, zpow_add₀ two_ne_zero]
  refine mul_le_mul ?_ hle (abs_nonneg _) (by positivity)
  norm_num

theorem abs_half_square (q : ℚ) : |q * (-1 / 2 * q)| = |q| * |q| / 2 := by
  have hhalf : |(-1 / 2 : ℚ)| = 1 / 2 := by norm_num
  rw [abs_mul, abs_mul, hhalf]
  ring

/-- Around 1 the upper half of `r` outweighs the lower one. -/
theorem Reduced.abs_rhi_le {z zhi : ℚ} {u : ℤ} (h : Reduced z zhi 1 u) :
    |zhi - 1| ≤ 2 * |z - 1| := by
  by_cases hzero : zhi - 1 = 0
  · rw [hzero, abs_zero]
    positivity
  · have hone : OnGrid (u + 32) 1 := by
      rcases h.place with rfl | rfl
      · exact ⟨2 ^ 21, by norm_num⟩
      · exact ⟨2 ^ 20, by norm_num⟩
    have hunit := (h.upper.sub hone).two_pow_le hzero
    have hsplit : (2 : ℚ) ^ (u + 32) = 2 ^ (u + 31) * 2 := by
      rw [← zpow_add_one₀ two_ne_zero]
      congr 1
      ring
    have hback := abs_sub_abs_le_abs_sub (zhi - 1) (z - 1)
    rw [sub_sub_sub_cancel_right, abs_sub_comm zhi z] at hback
    linarith [h.close]

/-- Without a fused multiply-add, the square that `hi` takes away is that of `rhi`. -/
theorem head_exact {z zhi invc t : ℚ} {u : ℤ} (h : Reduced z zhi invc u) (ht : Leading t invc) :
    (head z zhi invc t).r = z * invc - 1 ∧ (head z zhi invc t).rhi = zhi * invc - 1 ∧
      (head z zhi invc t).hi + (head z zhi invc t).lo2 + (head z zhi invc t).lo4
        = t + (z * invc - 1) - (zhi * invc - 1) ^ 2 / 2 := by
  have hsum : zhi * invc - 1 + (z - zhi) * invc = z * invc - 1 := by ring
  have hrhi := h.abs_rhi
  have harhi := half_exact h.onGrid_rhi (hrhi.le.trans (by norm_num)) (by norm_num) (by norm_num)
  have hsquare : |(zhi * invc - 1) * (-1 / 2 * (zhi * invc - 1))| ≤ 1 / 2 ^ 15 := by
    have hle := mul_le_mul hrhi.le hrhi.le (abs_nonneg _) (by norm_num)
    rw [abs_half_square]
    linarith
  have harhi2 : double.nearest ((zhi * invc - 1) * (-1 / 2 * (zhi * invc - 1)))
      = (zhi * invc - 1) * (-1 / 2 * (zhi * invc - 1)) := by
    have hone : OnGrid (-1) (-1 / 2) := ⟨-1, by norm_num⟩
    exact nearest_eq (h.onGrid_rhi.mul (hone.mul h.onGrid_rhi)) (hsquare.trans (by norm_num))
      (by norm_num) (by norm_num)
  have hzero : t = 0 → |(zhi * invc - 1) * (-1 / 2 * (zhi * invc - 1))| ≤ |z * invc - 1| := by
    intro ht0
    rcases ht.dominates with ⟨-, rfl⟩ | hdom
    · rw [mul_one] at hrhi
      have hle := mul_le_mul_of_nonneg_left hrhi.le (abs_nonneg (zhi - 1))
      have hupper := h.abs_rhi_le
      have hnonneg := abs_nonneg (z - 1)
      rw [abs_half_square, mul_one, mul_one]
      linarith
    · rw [ht0, abs_zero] at hdom
      linarith
  obtain ⟨hfirst, hsecond⟩ := sums_exact ht h.nearest_r h.near harhi2
    (hsquare.trans (by norm_num)) hzero
  rw [head, h.nearest_zlo, h.nearest_rhi, h.nearest_rlo, hsum, h.nearest_r, harhi, harhi2]
  refine ⟨rfl, rfl, ?_⟩
  dsimp only
  linarith

/-- With it, it is that of `r`, and `lo3` is what the square has lost. -/
theorem headFma_exact {z zhi invc t : ℚ} {u : ℤ} (h : Reduced z zhi invc u) (ht : Leading t invc) :
    (headFma z invc t).r = z * invc - 1 ∧ (headFma z invc t).rhi = z * invc - 1 ∧
      (headFma z invc t).hi + (headFma z invc t).lo2 + (headFma z invc t).lo3 + (headFma z invc t).lo4
        = t + (z * invc - 1) - (z * invc - 1) ^ 2 / 2 := by
  have hr : double.nearest (z * invc + -1) = z * invc - 1 := by
    rw [← sub_eq_add_neg]
    exact h.nearest_r
  have hbias : 1 ≤ double.bias := by decide
  have hexp : double.expBits ≠ 0 := by decide
  have hnear := h.near
  have har := half_exact h.onGrid_r (hnear.le.trans (by norm_num)) (by norm_num) (by norm_num)
  have hr' := h.nearest_r
  generalize hrdef : z * invc - 1 = r at *
  have hsquare : |r * (-1 / 2 * r)| ≤ |r| / 2 ∧ |r * (-1 / 2 * r)| < 1 / 2 ^ 15 := by
    have hle := mul_le_mul hnear.le hnear.le (abs_nonneg _) (by norm_num)
    have hle' := mul_le_mul_of_nonneg_left hnear.le (abs_nonneg r)
    have hnonneg := abs_nonneg r
    rw [abs_half_square]
    constructor
    · linarith
    · linarith
  have hfin : |r * (-1 / 2 * r)| ≤ 2 ^ (double.bias : ℤ) :=
    le_bias (n := 0) (hsquare.2.le.trans (by norm_num)) (by decide)
  have hgrid : OnGrid (-121) (r * (-1 / 2 * r)) := by
    have hone : OnGrid (-1) (-1 / 2) := ⟨-1, by norm_num⟩
    rw [← hrdef]
    exact h.onGrid_r.mul (hone.mul h.onGrid_r)
  have hlost := Format.nearest_sub_nearest (e := -16) hbias hexp hgrid hfin
    (hsquare.2.trans_eq (by norm_num)) (by decide) (by decide) (by decide)
  have hdouble : |double.nearest (r * (-1 / 2 * r))| ≤ 2 * |r * (-1 / 2 * r)| := by
    have hzero := Format.abs_nearest_sub_le_of_onGrid hbias hexp hfin
      (show OnGrid (double.place (r * (-1 / 2 * r))) 0 from ⟨0, by rw [Int.cast_zero, zero_mul]⟩)
    have hback := abs_sub_abs_le_abs_sub (double.nearest (r * (-1 / 2 * r))) (r * (-1 / 2 * r))
    rw [zero_sub, abs_neg] at hzero
    linarith
  obtain ⟨hfirst, hsecond⟩ := sums_exact ht hr' hnear (Format.nearest_nearest hbias hexp hfin)
    (hdouble.trans (by linarith)) (fun _ => hdouble.trans (by linarith))
  have hlo3 : -1 / 2 * r * r = r * (-1 / 2 * r) := by ring
  rw [headFma, hr, har, hlo3, hlost]
  refine ⟨rfl, rfl, ?_⟩
  dsimp only
  linarith

/-! ## The numbers from the table -/

/-- What the digits of an entry are good for. -/
def EntryFits (i : Nat) : Option HexFloat → Option Word → Prop
  | some c, some l => (c.val * 2 ^ 8).den = 1 ∧
      (0x3fe6955500000000 + i * 2 ^ 45 < 1023 * 2 ^ 52 → (c.val * 2 ^ 7).den = 1) ∧
      0 < c.val ∧ c.val ≤ 3 / 2 ∧ (double.value l.toNat * 2 ^ 43).den = 1 ∧
      |double.value l.toNat| ≤ 1 / 2 ∧
      (double.value l.toNat = 0 ∧ c.val = 1 ∨ 7 / 1024 ≤ |double.value l.toNat|)
  | _, _ => False

instance (i : Nat) : (c : Option HexFloat) → (l : Option Word) → Decidable (EntryFits i c l)
  | some _, some _ => inferInstanceAs (Decidable (_ ∧ _))
  | some _, none => .isFalse id
  | none, _ => .isFalse id

theorem entries_fit : ∀ i < 128, EntryFits i powInvc[i]? powLogc[i]? := by
  decide +kernel

theorem powInvc_nearer : Near double (2 ^ 45) (3 / 512) 0x3fe6955500000000 powInvc := by
  decide +kernel

theorem onGrid_of_den {q : ℚ} {n : Nat} (h : (q * 2 ^ n).den = 1) : OnGrid (-n) q := by
  refine ⟨(q * 2 ^ n).num, ?_⟩
  rw [Rat.coe_int_num_of_den_eq_one h, zpow_neg, zpow_natCast, mul_inv_cancel_right₀ (by positivity)]

theorem off_eq : double.value 0x3fe6955500000000 = 1480021 / 2 ^ 21 := by
  rw [double_value_eq (by decide) (by decide)]
  norm_num

/-- The patterns of `z`. -/
theorem toNat_iz {v : ℚ} {parts : Parts 64} (h : parts.Of double 7 0x3fe6955500000000 v) :
    0x3fe6955500000000 ≤ parts.iz.toNat ∧ parts.iz.toNat < 0x3ff6955500000000 := by
  have hlow := h.off_le
  have hhigh := h.lt_off
  have hoff : 0 < double.value 0x3fe6955500000000 := by
    rw [off_eq]
    norm_num
  have hpos : 0 < double.value parts.iz.toNat := hoff.trans_le hlow
  have hweight : parts.iz.toNat < double.signWeight := by
    have hneg := (Format.value_pos_iff.mp hpos).1
    rw [Format.negative, decide_eq_false_iff_not] at hneg
    omega
  have hdouble : 2 * double.value 0x3fe6955500000000 = double.value 0x3ff6955500000000 := by
    rw [off_eq, double_value_eq (by decide) (by decide)]
    norm_num
  rw [Format.value_le_value (by decide) hweight] at hlow
  rw [hdouble, Format.value_lt_value hweight (by decide)] at hhigh
  exact ⟨hlow, hhigh⟩

theorem toNat_and_upper (x : Word) : (x &&& (-1#64 <<< 32)).toNat = x.toNat / 2 ^ 32 * 2 ^ 32 := by
  have hmask : -1#64 <<< 32 = BitVec.ofNat 64 (2 ^ 32 - 1) <<< 32 := by decide
  have hlt := x.isLt
  rw [hmask, toNat_and_mask _ (by decide)]
  omega

theorem toNat_zhi {iz : Word} (h : iz.toNat < 2 ^ 63) :
    (zhi iz).toNat = (iz.toNat + 2 ^ 31) / 2 ^ 32 * 2 ^ 32 := by
  have hsum : (iz + (1#64 <<< 31)).toNat = iz.toNat + 2 ^ 31 := by
    have hone : (1#64 <<< 31).toNat = 2 ^ 31 := by decide
    rw [BitVec.toNat_add, hone]
    omega
  rw [zhi, toNat_and_upper, hsum]

/-- A number that was taken apart, with the entry of the table for it. -/
theorem reduced_of {v : ℚ} {parts : Parts 64} {invc : HexFloat}
    (h : parts.Of double 7 0x3fe6955500000000 v) (hinvc : powInvc[parts.i]? = some invc) :
    ∃ u, Reduced (double.value parts.iz.toNat) (double.value (zhi parts.iz).toNat) invc.val u := by
  obtain ⟨hlow, hhigh⟩ := toNat_iz h
  have hentry := entries_fit parts.i h.index
  rw [hinvc] at hentry
  rcases hlogc : powLogc[parts.i]? with _ | l
  · rw [hlogc] at hentry
    exact hentry.elim
  rw [hlogc] at hentry
  obtain ⟨hgrid, hfine, hpos, hle, -⟩ := hentry
  have hnear := powInvc_nearer.of_interval hinvc hpos.le h.interval_le h.lt_interval
  obtain ⟨e, f, he, hf, hn⟩ : ∃ e f : Nat, (e = 1022 ∨ e = 1023) ∧ f < 2 ^ 52 ∧
      parts.iz.toNat = e * 2 ^ 52 + f :=
    ⟨parts.iz.toNat / 2 ^ 52, parts.iz.toNat % 2 ^ 52, by omega, by omega, by omega⟩
  obtain ⟨g, hg, hm, hdiff⟩ : ∃ g : Nat, g * 2 ^ 32 ≤ 2 ^ 52 ∧
      (zhi parts.iz).toNat = e * 2 ^ 52 + g * 2 ^ 32 ∧ |(f - g * 2 ^ 32 : ℤ)| ≤ 2 ^ 31 := by
    refine ⟨(f + 2 ^ 31) / 2 ^ 32, by omega, ?_, ?_⟩
    · rw [toNat_zhi (by omega), hn]
      omega
    · rw [abs_le]
      omega
  have hvalue : ∀ d : Nat, d ≤ 2 ^ 52 →
      double.value (e * 2 ^ 52 + d) = (2 ^ 52 + d : ℤ) * 2 ^ (e - 1075 : ℤ) := by
    intro d hd
    have hweight : e * 2 ^ 52 + d < double.signWeight := by
      show _ < 2 ^ 63
      omega
    have hexp : (e - double.bias - double.fracBits : ℤ) = e - 1075 := by
      show (e - (1023 : Nat) - (52 : Nat) : ℤ) = _
      omega
    rw [Format.value_of_lt hweight, ← hexp]
    exact Format.size_eq_mul (F := double) (by omega) hd
  have hz := hvalue f hf.le
  have hzhi := hvalue (g * 2 ^ 32) hg
  have hpow : (0 : ℚ) < 2 ^ (e - 1075 : ℤ) := by positivity
  rw [← hn] at hz
  rw [← hm] at hzhi
  refine ⟨e - 1075, by omega, ⟨_, hz⟩, ⟨2 ^ 20 + g, ?_⟩, ?_, ?_, hpos, hle, hnear⟩
  · rw [hzhi, zpow_add₀ two_ne_zero]
    push_cast
    ring
  · have hsub : double.value parts.iz.toNat - double.value (zhi parts.iz).toNat
        = (f - g * 2 ^ 32 : ℤ) * 2 ^ (e - 1075 : ℤ) := by
      rw [hz, hzhi]
      push_cast
      ring
    have hcast : |((f - g * 2 ^ 32 : ℤ) : ℚ)| ≤ 2 ^ 31 := by exact_mod_cast hdiff
    rw [hsub, abs_mul, abs_of_pos hpow, zpow_add₀ two_ne_zero, mul_comm]
    exact mul_le_mul_of_nonneg_left hcast hpow.le
  · rcases he with rfl | rfl
    · -- Below 1 the entry has one digit less.
      refine onGrid_of_den (hfine ?_)
      have hindex := h.index
      have hweight : 0x3fe6955500000000 + parts.i * 2 ^ 45 < double.signWeight := by
        show _ < 2 ^ 63
        omega
      have hstart := (Format.value_le_value hweight (lt_trans hhigh (by decide))).mp h.interval_le
      omega
    · exact onGrid_of_den hgrid

/-- The exponents of the numbers there are. -/
theorem abs_k_le {n tableBits off : Nat} {parts : Parts 64} (hn : Ordinary double n)
    (h : parts.Of double tableBits off |double.value n|) (hoff : (2 : ℚ) ^ (-1 : ℤ) ≤ double.value off)
    (hoff' : 2 * double.value off ≤ (2 : ℚ) ^ (1 : ℤ)) : |parts.k| ≤ 1075 := by
  obtain ⟨hmag, hinf⟩ := ordinary_iff.mp hn
  have hsmall : (2 : ℚ) ^ (-1074 : ℤ) = double.size 1 := by
    norm_num [double, Format.size, Format.bias]
  have hlarge : (2 : ℚ) ^ (double.bias + 1 : ℤ) = double.size double.infinity :=
    (Format.size_infinity (by decide) (by decide)).symm
  have hlow : (2 : ℚ) ^ (-1074 : ℤ) ≤ |double.value n| := by
    rw [hsmall, Format.abs_value, Format.size_strictMono.le_iff_le]
    omega
  have hhigh : |double.value n| < (2 : ℚ) ^ (double.bias + 1 : ℤ) := by
    rw [hlarge, Format.abs_value, Format.size_strictMono.lt_iff_lt]
    exact hinf
  have hpow : (0 : ℚ) < 2 ^ parts.k := by positivity
  rw [h.exact] at hlow hhigh
  have hup : (2 : ℚ) ^ (-1074 : ℤ) ≤ 2 ^ (parts.k + 1) := by
    rw [zpow_add₀ two_ne_zero]
    exact hlow.trans (mul_le_mul_of_nonneg_left (h.lt_off.le.trans hoff') hpow.le)
  have hdown : (2 : ℚ) ^ (parts.k + -1) < 2 ^ (double.bias + 1 : ℤ) := by
    rw [zpow_add₀ two_ne_zero]
    exact (mul_le_mul_of_nonneg_left (hoff.trans h.off_le) hpow.le).trans_lt hhigh
  rw [zpow_le_zpow_iff_right₀ one_lt_two] at hup
  rw [zpow_lt_zpow_iff_right₀ one_lt_two] at hdown
  have hbias : (double.bias : ℤ) = 1023 := rfl
  rw [abs_le]
  omega

/-- The sum k*ln2hi + logc has no rounding error. -/
theorem leading_of {k : ℤ} {logc invc : ℚ} (hk : |k| ≤ 1075) (hgrid : OnGrid (-43) logc)
    (hle : |logc| ≤ 1 / 2) (hzero : k = 0 → logc = 0 ∧ invc = 1 ∨ 7 / 1024 ≤ |logc|) :
    t1 k logc = k * ln2hi + logc ∧ Leading (k * ln2hi + logc) invc := by
  have hvalue : ln2hi = 3048493539143 / 2 ^ 42 := by
    rw [ln2hi, double_value_eq (by decide) (by decide)]
    norm_num
  have hk' : |(k : ℚ)| ≤ 1075 := by exact_mod_cast hk
  have habs : |k * ln2hi| = |(k : ℚ)| * ln2hi := by
    have hpos : 0 < ln2hi := by
      rw [hvalue]
      norm_num
    rw [abs_mul, abs_of_pos hpos]
  have hprod : OnGrid (-42) (k * ln2hi) := by
    have hint : OnGrid 0 (k : ℚ) := ⟨k, by rw [zpow_zero, mul_one]⟩
    have hln : OnGrid (-42) ln2hi := ⟨3048493539143, by rw [hvalue]; norm_num⟩
    have hmul := hint.mul hln
    rwa [zero_add] at hmul
  have hbound : |k * ln2hi| ≤ 2 ^ 10 - 1 := by
    rw [habs, hvalue]
    linarith
  have hsumle : |k * ln2hi + logc| ≤ 2 ^ 10 := by
    have htriangle := abs_add_le (k * ln2hi) logc
    linarith
  have hsumgrid : OnGrid (-43) (k * ln2hi + logc) := (hprod.mono (by decide)).add hgrid
  have hexact : double.nearest (k * ln2hi) = k * ln2hi :=
    nearest_eq hprod (hbound.trans (by norm_num)) (by decide) (by decide)
  refine ⟨?_, hsumgrid, hsumle, ?_⟩
  · rw [t1, hexact]
    exact nearest_eq hsumgrid (hsumle.trans (by norm_num)) (by decide) (by decide)
  · by_cases hk0 : k = 0
    · rw [hk0, Int.cast_zero, zero_mul, zero_add]
      exact hzero hk0
    · right
      have hone : (1 : ℚ) ≤ |(k : ℚ)| := by exact_mod_cast Int.one_le_abs hk0
      have hlow : 3048493539143 / 2 ^ 42 ≤ |k * ln2hi| := by
        rw [habs, hvalue]
        linarith
      have hback := abs_sub_abs_le_abs_sub (k * ln2hi) (-logc)
      rw [abs_neg, sub_neg_eq_add] at hback
      linarith

/-- **The head of the logarithm is exact.** Whenever `pow` gets to its logarithm, `r` is `z * invc - 1`
without a rounding error, with a fused multiply-add or without, and the parts of the sum make up
`k * Ln2hi + logc + r` less half of the square, each of them being what the ones before have lost. -/
theorem log_head_exact {x y : Word} {parts : Parts 64} {invc : HexFloat} {signBias : Word32}
    (hpow : pow x y = .reduced parts (some invc) signBias) (fma : Bool) :
    ∃ logc head, powLogc[parts.i]? = some logc ∧ logHead fma parts invc = some head ∧
      head.r = double.value parts.iz.toNat * invc.val - 1 ∧
      head.hi + head.lo2 + (if fma then head.lo3 else 0) + head.lo4
        = parts.k * ln2hi + double.value logc.toNat + head.r - head.rhi ^ 2 / 2 ∧
      head.rhi = (if fma then head.r else double.value (zhi parts.iz).toNat * invc.val - 1) := by
  have hfits := pow_fits x y
  rw [hpow] at hfits
  obtain ⟨hx, -, -, -, -, hof, htab, -⟩ := hfits
  have hinvc : powInvc[parts.i]? = some invc := htab.symm
  obtain ⟨u, hreduced⟩ := reduced_of hof hinvc
  have hentry := entries_fit parts.i hof.index
  rw [hinvc] at hentry
  rcases hlogc : powLogc[parts.i]? with _ | l
  · rw [hlogc] at hentry
    exact hentry.elim
  rw [hlogc] at hentry
  obtain ⟨-, -, -, -, hgrid, hle, hzero⟩ := hentry
  have hk : |parts.k| ≤ 1075 := by
    refine abs_k_le hx hof ?_ ?_
    · exact le_of_le_of_eq (by norm_num) off_eq.symm
    · exact (congrArg (2 * ·) off_eq).trans_le (by norm_num)
  obtain ⟨ht1, hleading⟩ := leading_of hk (onGrid_of_den hgrid) hle (fun _ => hzero)
  rw [logHead, hlogc]
  cases fma with
  | true =>
      obtain ⟨hr, hrhi, hsum⟩ := headFma_exact hreduced hleading
      refine ⟨l, _, rfl, rfl, ?_⟩
      rw [ht1, hr, hrhi, if_pos rfl, if_pos rfl]
      exact ⟨rfl, by linarith, rfl⟩
  | false =>
      obtain ⟨hr, hrhi, hsum⟩ := head_exact hreduced hleading
      refine ⟨l, _, rfl, rfl, ?_⟩
      rw [ht1, hr, hrhi, if_neg Bool.false_ne_true, if_neg Bool.false_ne_true]
      exact ⟨rfl, by linarith, rfl⟩

theorem log_head_exact_oneAndHalf :
    ∃ logc head, powLogc[11]? = some logc ∧
      logHead true ⟨1, 11, 0x3fe8000000000000⟩ ⟨0x15600000000000, 0⟩ = some head ∧ head.r = 1 / 512 := by
  have hpow : pow 0x3ff8000000000000 0x4000000000000000
      = .reduced ⟨1, 11, 0x3fe8000000000000⟩ (some ⟨0x15600000000000, 0⟩) 0 := rfl
  obtain ⟨logc, head, hlogc, hhead, hr, -⟩ := log_head_exact hpow true
  refine ⟨logc, head, hlogc, hhead, hr.trans ?_⟩
  show double.value 0x3fe8000000000000 * HexFloat.val ⟨0x15600000000000, 0⟩ - 1 = 1 / 512
  rw [double_value_eq (by decide) (by decide)]
  norm_num [HexFloat.val]

end Pow

end LdbToolchain.Math
