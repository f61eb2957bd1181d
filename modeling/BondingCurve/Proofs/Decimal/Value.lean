import BondingCurve.Decimal.Arithmetic
import Mathlib.Data.Rat.Floor
import Mathlib.Tactic.FieldSimp
import Mathlib.Tactic.Linarith
import Mathlib.Tactic.Positivity
import Mathlib.Tactic.Ring

/-!
# The number a decimal stands for

`Decimal.toRat` forgets the scale: `0.50` and `0.5` have one value. Order, `max`, `min`, `floor`
and `ceil` of decimals are those of their values, so a bound on a decimal is read and proved as a
bound on a rational number.
-/

namespace BondingCurve
namespace Decimal

/-- The number `d` stands for. -/
def toRat (d : Decimal) : ℚ := d.coefficient / powTen d.scale

/-- Scales divide by positive numbers, so a value never divides by zero. -/
theorem powTen_cast_pos (n : ℕ) : (0 : ℚ) < powTen n := by
  exact_mod_cast powTen_pos n

@[simp] theorem powTen_zero : powTen 0 = 1 := rfl

/-! ## Values of constants -/

/-- An integer is its own value. -/
@[simp] theorem toRat_ofInt (n : ℤ) : (ofInt n).toRat = n := by
  simp [toRat, ofInt]

theorem toRat_ofInt_nonneg {n : ℤ} (h : 0 ≤ n) : 0 ≤ (ofInt n).toRat := by
  rw [toRat_ofInt]
  exact_mod_cast h

@[simp] theorem toRat_zero : zero.toRat = 0 := by
  simp [zero]

@[simp] theorem toRat_one : one.toRat = 1 := by
  simp [one]

/-- Changing the sign of the coefficient changes the sign of the value. -/
@[simp] theorem toRat_neg (d : Decimal) : (-d).toRat = -d.toRat := by
  show ((-d.coefficient : ℤ) : ℚ) / powTen d.scale = -(d.coefficient / powTen d.scale)
  rw [Int.cast_neg, neg_div]

/-- A coefficient of zero is zero at every scale. -/
theorem toRat_of_coefficient_eq_zero {d : Decimal} (h : d.coefficient = 0) : d.toRat = 0 := by
  rw [toRat, h, Int.cast_zero, zero_div]

/-- Only a coefficient of zero has the value zero. -/
theorem coefficient_eq_zero_of_toRat {d : Decimal} (h : d.toRat = 0) : d.coefficient = 0 := by
  rw [toRat, div_eq_zero_iff] at h
  exact_mod_cast h.resolve_right (powTen_cast_pos _).ne'

/-! ## Order -/

/-- The order of decimals, which compares coefficients at a common scale, is that of their values.
-/
theorem toRat_lt_toRat {a b : Decimal} : a.toRat < b.toRat ↔ a < b := by
  rw [toRat, toRat, div_lt_div_iff₀ (powTen_cast_pos _) (powTen_cast_pos _), lt_def]
  exact_mod_cast Iff.rfl

/-- The same for the order that allows equal values. -/
theorem toRat_le_toRat {a b : Decimal} : a.toRat ≤ b.toRat ↔ a ≤ b := by
  rw [toRat, toRat, div_le_div_iff₀ (powTen_cast_pos _) (powTen_cast_pos _), le_def]
  exact_mod_cast Iff.rfl

/-- Decimals of different scales are the same number when their values are equal. -/
theorem sameValue_iff {a b : Decimal} : a.SameValue b ↔ a.toRat = b.toRat := by
  rw [toRat, toRat, div_eq_div_iff (powTen_cast_pos _).ne' (powTen_cast_pos _).ne', SameValue]
  exact_mod_cast Iff.rfl

/-- A decimal is not negative when its coefficient is not. -/
theorem toRat_nonneg_iff {d : Decimal} : 0 ≤ d.toRat ↔ 0 ≤ d.coefficient := by
  rw [toRat, le_div_iff₀ (powTen_cast_pos _), zero_mul]
  exact_mod_cast Iff.rfl

/-- The larger decimal has the larger value, whichever of two equal ones is kept. -/
theorem toRat_max (a b : Decimal) : (a.max b).toRat = Max.max a.toRat b.toRat := by
  unfold max
  split
  · next h => rw [max_eq_right (toRat_lt_toRat.2 h).le]
  · next h => rw [max_eq_left (toRat_le_toRat.2 (not_lt.1 h))]

/-- The smaller decimal has the smaller value. -/
theorem toRat_min (a b : Decimal) : (a.min b).toRat = Min.min a.toRat b.toRat := by
  unfold min
  split
  · next h => rw [min_eq_right (toRat_lt_toRat.2 h).le]
  · next h => rw [min_eq_left (toRat_le_toRat.2 (not_lt.1 h))]

/-! ## Whole numbers -/

/-- Cutting off the decimals is the floor of the value. -/
theorem floor_eq (d : Decimal) : d.floor = ofInt ⌊d.toRat⌋ := by
  rw [floor, toRat, Rat.floor_intCast_div_natCast]

/-- Rounding up to a whole number is the ceiling of the value. -/
theorem ceil_eq (d : Decimal) : d.ceil = ofInt ⌈d.toRat⌉ := by
  have hneg : (-d.toRat) = ((-d.coefficient : ℤ) : ℚ) / powTen d.scale := by
    rw [toRat, Int.cast_neg, neg_div]
  have hfloor : ⌊-d.toRat⌋ = -d.coefficient / powTen d.scale := by
    rw [hneg, Rat.floor_intCast_div_natCast]
  rw [ceil, ← hfloor, Int.floor_neg, neg_neg]

/-- A whole decimal is an amount when it is in range. -/
theorem toAmount?_ofInt (n : ℤ) : (ofInt n).toAmount? = Amount.ofInt? n := by
  simp [toAmount?, ofInt]

end Decimal
end BondingCurve
