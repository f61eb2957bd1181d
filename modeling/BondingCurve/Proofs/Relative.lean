import Mathlib.Analysis.Complex.Exponential
import Mathlib.Analysis.SpecialFunctions.Pow.Real

/-!
# Relative errors

`Within η x y` says that `x` is `y` up to the share `η` of it. Shares add up along a computation,
and a power multiplies them by its exponent.
-/

namespace BondingCurve

/-- `x` is `y` up to the share `η` of it. -/
def Within (η x y : ℝ) : Prop := |x - y| ≤ η * y

namespace Within

variable {η κ x y z x' y' : ℝ}

/-- A number is within any error of itself. -/
theorem refl (hη : 0 ≤ η) (hy : 0 ≤ y) : Within η y y := by
  rw [Within, sub_self, abs_zero]
  positivity

/-- The upper end of an error. -/
theorem le (h : Within η x y) : x ≤ (1 + η) * y := by
  linarith [(abs_le.1 h).2]

/-- The lower end of an error. -/
theorem ge (h : Within η x y) : (1 - η) * y ≤ x := by
  linarith [(abs_le.1 h).1]

/-- A larger error allows as much. -/
theorem mono (h : Within η x y) (hy : 0 ≤ y) (hle : η ≤ κ) : Within κ x y :=
  le_trans h (mul_le_mul_of_nonneg_right hle hy)

/-- Errors after one another compound. -/
theorem trans (h : Within η x y) (h' : Within κ y z) (hη : 0 ≤ η) :
    Within (η + κ + η * κ) x z := by
  calc |x - z| ≤ |x - y| + |y - z| := abs_sub_le _ _ _
    _ ≤ η * ((1 + κ) * z) + κ * z :=
        add_le_add (le_trans h (mul_le_mul_of_nonneg_left h'.le hη)) h'
    _ = (η + κ + η * κ) * z := by ring

/-- The errors of two factors compound in their product. -/
theorem mul (h : Within η x y) (h' : Within κ x' y') (hy : 0 ≤ y) (hy' : 0 ≤ y') :
    Within (η + κ + η * κ) (x * x') (y * y') := by
  have hx' : |x'| ≤ (1 + κ) * y' := by
    calc |x'| ≤ |x' - y'| + |y'| := by linarith [abs_sub_abs_le_abs_sub x' y']
      _ ≤ κ * y' + y' := add_le_add h' (abs_of_nonneg hy').le
      _ = (1 + κ) * y' := by ring
  have hsplit : x * x' - y * y' = (x - y) * x' + y * (x' - y') := by ring
  calc |x * x' - y * y'| ≤ |x - y| * |x'| + |y| * |x' - y'| := by
        rw [hsplit, ← abs_mul, ← abs_mul]
        exact abs_add_le _ _
    _ ≤ η * y * ((1 + κ) * y') + y * (κ * y') := by
        rw [abs_of_nonneg hy]
        refine add_le_add (mul_le_mul h hx' (abs_nonneg _) ((abs_nonneg _).trans h)) ?_
        exact mul_le_mul_of_nonneg_left h' hy
    _ = (η + κ + η * κ) * (y * y') := by ring

/-- An error of less than the whole keeps a positive number positive. -/
theorem pos (h : Within η x y) (hη : η < 1) (hy : 0 < y) : 0 < x :=
  lt_of_lt_of_le (mul_pos (by linarith) hy) h.ge

theorem nonneg (h : Within η x y) (hy : 0 < y) : 0 ≤ η := by
  by_contra hneg
  have hlt := mul_neg_of_neg_of_pos (not_le.1 hneg) hy
  exact absurd (le_trans (abs_nonneg _) h) (not_le.2 hlt)

/-- An error of at most half leaves half. -/
theorem half_le (h : Within η x y) (hη : η ≤ 1 / 2) (hy : 0 < y) : y / 2 ≤ x := by
  linarith [h.ge, mul_le_mul_of_nonneg_right hη hy.le]

/-- An error at most doubles in the reciprocal. -/
theorem inv (h : Within η x y) (hη : η ≤ 1 / 2) (hy : 0 < y) : Within (2 * η) x⁻¹ y⁻¹ := by
  have hx := h.half_le hη hy
  have hx0 : 0 < x := by linarith
  have hsplit : x⁻¹ - y⁻¹ = (y - x) / (x * y) := by
    field_simp
  rw [Within, hsplit, abs_div, abs_of_pos (mul_pos hx0 hy), abs_sub_comm,
    div_le_iff₀ (mul_pos hx0 hy)]
  calc |x - y| ≤ η * y := h
    _ ≤ η * (2 * x) := mul_le_mul_of_nonneg_left (by linarith) (h.nonneg hy)
    _ = 2 * η * y⁻¹ * (x * y) := by field_simp

/-- A share of rational numbers. -/
theorem of_rat {η x y : ℚ} (h : |x - y| ≤ η * y) : Within η x y := by
  rw [Within]
  exact_mod_cast h

/-- An error relative to the larger of one and a result that is not far below one. -/
theorem of_close {η x y : ℚ} (h : |x - y| ≤ η * max 1 |y|) (hη : 0 ≤ η) (hy : (1 / 2 : ℝ) ≤ y) :
    Within (2 * η) x y := by
  have hy' : 1 / 2 ≤ y := by
    have hcast : ((1 / 2 : ℚ) : ℝ) ≤ y := by
      push_cast
      exact hy
    exact Rat.cast_le.1 hcast
  have hmax : max 1 |y| ≤ 2 * y := by
    rw [abs_of_nonneg (by linarith)]
    exact max_le (by linarith) (by linarith)
  have hle : |x - y| ≤ 2 * η * y := by
    linarith [h.trans (mul_le_mul_of_nonneg_left hmax hη)]
  have hwithin := of_rat hle
  push_cast at hwithin
  exact hwithin

/-- A small difference of logarithms is a small share. -/
theorem of_exp {a b δ : ℝ} (h : |a - b| ≤ δ) (hδ : δ ≤ 1) :
    Within (2 * δ) (Real.exp a) (Real.exp b) := by
  have hone := Real.abs_exp_sub_one_le (h.trans hδ)
  have hsplit : Real.exp a - Real.exp b = (Real.exp (a - b) - 1) * Real.exp b := by
    rw [sub_mul, ← Real.exp_add, sub_add_cancel, one_mul]
  rw [Within, hsplit, abs_mul, Real.abs_exp]
  exact mul_le_mul_of_nonneg_right (by linarith) (Real.exp_pos b).le

/-- A small share is a small difference of logarithms. -/
theorem log (h : Within η x y) (hη : η ≤ 1 / 2) (hy : 0 < y) :
    |Real.log x - Real.log y| ≤ 2 * η := by
  have hx : 0 < x := h.pos (by linarith) hy
  rw [← Real.log_div hx.ne' hy.ne', abs_le]
  constructor
  · -- the logarithm of the inverse quotient
    have hle := Real.log_le_sub_one_of_pos (div_pos hy hx)
    have hinv : Real.log (y / x) = -Real.log (x / y) := by
      rw [← Real.log_inv, inv_div]
    have hquot : y / x - 1 ≤ 2 * η := by
      rw [div_sub_one hx.ne', div_le_iff₀ hx]
      have hhalf := mul_le_mul_of_nonneg_left (h.half_le hη hy) (h.nonneg hy)
      linarith [(abs_le.1 h).1]
    linarith
  · have hle := Real.log_le_sub_one_of_pos (div_pos hx hy)
    have hquot : x / y - 1 ≤ η := by
      rw [div_sub_one hy.ne', div_le_iff₀ hy]
      exact (abs_le.1 h).2
    linarith [h.nonneg hy]

/-- A power multiplies the share by its exponent. -/
theorem rpow {k : ℝ} (h : Within η x y) (hη : η ≤ 1 / 2) (hk : 0 ≤ k) (hkη : 2 * (k * η) ≤ 1)
    (hy : 0 < y) : Within (4 * (k * η)) (x ^ k) (y ^ k) := by
  have hx : 0 < x := h.pos (by linarith) hy
  rw [Real.rpow_def_of_pos hx, Real.rpow_def_of_pos hy,
    show 4 * (k * η) = 2 * (2 * (k * η)) by ring]
  refine of_exp ?_ hkη
  rw [← sub_mul, abs_mul, abs_of_nonneg hk]
  calc |Real.log x - Real.log y| * k ≤ 2 * η * k := mul_le_mul_of_nonneg_right (h.log hη hy) hk
    _ = 2 * (k * η) := by ring

/-- A power whose exponent is a little off. -/
theorem rpow_exponent {k k' δ : ℝ} (hy : 0 < y) (h : |Real.log y * (k - k')| ≤ δ) (hδ : δ ≤ 1) :
    Within (2 * δ) (y ^ k) (y ^ k') := by
  rw [Real.rpow_def_of_pos hy, Real.rpow_def_of_pos hy]
  exact of_exp (by rwa [← mul_sub]) hδ

end Within

end BondingCurve
