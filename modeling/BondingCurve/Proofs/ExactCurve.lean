import Mathlib.Analysis.Convex.SpecificFunctions.Pow
import Mathlib.Analysis.SpecialFunctions.Pow.Real

/-!
# The exact curve

The four conversions of the bonding curve over the real numbers, with no rounding at all. They
are two pairs of inverses (`le_buy_iff`, `le_sell_iff`), each a way to say that the reserve per
supply, measured along the curve, does not go down (`keeps_iff`). A part of an input is worth at
least that part of the output (`share_le_buy`, `share_le_sell`), which is what a refund of an
unused share relies on.
-/

namespace BondingCurve
namespace ExactCurve

variable {balance supply w : ℝ}

/-- The smart tokens for `paid` connected tokens. -/
noncomputable def buy (balance supply w paid : ℝ) : ℝ := supply * ((1 + paid / balance) ^ w - 1)

/-- The connected tokens for `sold` smart tokens. -/
noncomputable def sell (balance supply w sold : ℝ) : ℝ :=
  balance * (1 - (1 - sold / supply) ^ w⁻¹)

/-- What `wanted` smart tokens cost. -/
noncomputable def buyExact (balance supply w wanted : ℝ) : ℝ :=
  balance * ((1 + wanted / supply) ^ w⁻¹ - 1)

/-- What `wanted` connected tokens cost. -/
noncomputable def sellExact (balance supply w wanted : ℝ) : ℝ :=
  supply * (1 - (1 - wanted / balance) ^ w)

/-! ## Along the curve -/

/-- The supply grows by no more than the balance allows: from `supply` to `supply'` while the
balance goes from `balance` to `balance'`. -/
def Keeps (w balance supply balance' supply' : ℝ) : Prop :=
  supply' / supply ≤ (balance' / balance) ^ w

/-- With a weight of `m / d`, that is an inequality between powers. -/
theorem keeps_iff {balance' supply' : ℝ} {m d : ℕ} (hbalance : 0 < balance) (hsupply : 0 < supply)
    (hbalance' : 0 ≤ balance') (hsupply' : 0 ≤ supply') (hd : 0 < d) :
    Keeps (m / d) balance supply balance' supply' ↔
      balance ^ m * supply' ^ d ≤ balance' ^ m * supply ^ d := by
  have hq : 0 ≤ balance' / balance := by positivity
  have hr : 0 ≤ supply' / supply := by positivity
  have hpower : ((balance' / balance) ^ ((m : ℝ) / d)) ^ d = (balance' / balance) ^ m := by
    have hd' : (d : ℝ) ≠ 0 := by positivity
    rw [← Real.rpow_mul_natCast hq, div_mul_cancel₀ _ hd', Real.rpow_natCast]
  rw [Keeps, ← pow_le_pow_iff_left₀ hr (by positivity) hd.ne', hpower, div_pow, div_pow,
    div_le_div_iff₀ (by positivity) (by positivity), mul_comm (supply' ^ d)]

/-- What a buyer receives is within the exact curve when the buy keeps along it. -/
theorem le_buy_iff_keeps {paid received : ℝ} (hbalance : 0 < balance) (hsupply : 0 < supply) :
    received ≤ buy balance supply w paid ↔
      Keeps w balance supply (balance + paid) (supply + received) := by
  have hq : (balance + paid) / balance = 1 + paid / balance := by
    rw [add_div, div_self hbalance.ne']
  rw [buy, Keeps, hq, add_div, div_self hsupply.ne', ← le_sub_iff_add_le', div_le_iff₀' hsupply]

/-- What a seller is paid is within the exact curve when the sale keeps along it. -/
theorem le_sell_iff_keeps {sold paid : ℝ} (hbalance : 0 < balance) (hsupply : 0 < supply)
    (hw : 0 < w) (hsold : sold ≤ supply) (hpaid : paid ≤ balance) :
    paid ≤ sell balance supply w sold ↔
      Keeps w balance supply (balance - paid) (supply - sold) := by
  have hr : (supply - sold) / supply = 1 - sold / supply := by
    rw [sub_div, div_self hsupply.ne']
  have hr0 : 0 ≤ 1 - sold / supply := by
    rw [← hr]
    exact div_nonneg (sub_nonneg.2 hsold) hsupply.le
  have hq0 : 0 ≤ (balance - paid) / balance := div_nonneg (sub_nonneg.2 hpaid) hbalance.le
  rw [sell, Keeps, hr, ← Real.rpow_inv_le_iff_of_pos hr0 hq0 hw, sub_div, div_self hbalance.ne',
    le_sub_comm, div_le_iff₀' hbalance]

/-! ## Inverses -/

/-- The cost of `wanted` buys them, and nothing less does. -/
theorem le_buy_iff {paid wanted : ℝ} (hbalance : 0 < balance) (hsupply : 0 < supply) (hw : 0 < w)
    (hpaid : 0 ≤ paid) (hwanted : 0 ≤ wanted) :
    wanted ≤ buy balance supply w paid ↔ buyExact balance supply w wanted ≤ paid := by
  have hr0 : 0 ≤ 1 + wanted / supply := by positivity
  have hq0 : 0 ≤ 1 + paid / balance := by positivity
  rw [buy, buyExact, ← div_le_iff₀' hsupply, ← le_div_iff₀' hbalance, le_sub_iff_add_le',
    sub_le_iff_le_add', Real.rpow_inv_le_iff_of_pos hr0 hq0 hw]

/-- The cost of `wanted` sells for them, and nothing less does. -/
theorem le_sell_iff {sold wanted : ℝ} (hbalance : 0 < balance) (hsupply : 0 < supply) (hw : 0 < w)
    (hsold : sold ≤ supply) (hwanted : wanted ≤ balance) :
    wanted ≤ sell balance supply w sold ↔ sellExact balance supply w wanted ≤ sold := by
  have hr0 : 0 ≤ 1 - sold / supply := sub_nonneg.2 ((div_le_one hsupply).2 hsold)
  have hq0 : 0 ≤ 1 - wanted / balance := sub_nonneg.2 ((div_le_one hbalance).2 hwanted)
  rw [sell, sellExact, ← div_le_iff₀' hbalance, ← le_div_iff₀' hsupply, le_sub_comm,
    Real.rpow_inv_le_iff_of_pos hr0 hq0 hw, sub_le_comm]

/-! ## Shares -/

/-- A share of what is paid buys at least that share: the curve is concave. -/
theorem share_le_buy {paid share : ℝ} (hbalance : 0 < balance) (hsupply : 0 < supply)
    (hw0 : 0 ≤ w) (hw1 : w ≤ 1) (hpaid : 0 ≤ paid) (hshare0 : 0 ≤ share) (hshare1 : share ≤ 1) :
    share * buy balance supply w paid ≤ buy balance supply w (share * paid) := by
  have hconcave := (Real.concaveOn_rpow hw0 hw1).2 (Set.mem_Ici.2 zero_le_one)
    (Set.mem_Ici.2 (show 0 ≤ 1 + paid / balance by positivity)) (sub_nonneg.2 hshare1) hshare0
    (sub_add_cancel 1 share)
  have hpoint : (1 - share) * 1 + share * (1 + paid / balance) = 1 + share * paid / balance := by
    ring
  simp only [smul_eq_mul, Real.one_rpow, hpoint] at hconcave
  rw [buy, buy, mul_left_comm]
  refine mul_le_mul_of_nonneg_left ?_ hsupply.le
  linarith

/-- A share of what is sold is paid at least that share. -/
theorem share_le_sell {sold share : ℝ} (hbalance : 0 < balance) (hsupply : 0 < supply)
    (hw0 : 0 < w) (hw1 : w ≤ 1) (hsold : sold ≤ supply) (hshare0 : 0 ≤ share)
    (hshare1 : share ≤ 1) :
    share * sell balance supply w sold ≤ sell balance supply w (share * sold) := by
  have hrest : 0 ≤ 1 - sold / supply := sub_nonneg.2 ((div_le_one hsupply).2 hsold)
  have hconvex := (convexOn_rpow ((one_le_inv₀ hw0).2 hw1)).2 (Set.mem_Ici.2 zero_le_one)
    (Set.mem_Ici.2 hrest) (sub_nonneg.2 hshare1) hshare0 (sub_add_cancel 1 share)
  have hpoint : (1 - share) * 1 + share * (1 - sold / supply) = 1 - share * sold / supply := by
    ring
  simp only [smul_eq_mul, Real.one_rpow, hpoint] at hconvex
  rw [sell, sell, mul_left_comm]
  refine mul_le_mul_of_nonneg_left ?_ hbalance.le
  linarith

end ExactCurve
end BondingCurve
