import BondingCurve.Proofs.Curve.Sufficiency

/-!
# The error of every conversion

The result of a conversion, before it is made whole, is close to the exact curve in all four cases
(`Connector.convert_close`). The bound is a number that is worked out from the result, so whether
the whole units of a conversion are beyond it can be decided without the exact curve. What an exact
sale asks for is the hardest to bound, since a weight below one makes much of what is left of a
balance when little is left. A unit is always left, so a part in `10 ^ 28` of it is a small share.
-/

namespace BondingCurve

namespace ExactCurve

variable {balance supply w : ℝ}

theorem buy_nonneg {paid : ℝ} (hbalance : 0 ≤ balance) (hsupply : 0 ≤ supply) (hw : 0 ≤ w)
    (hpaid : 0 ≤ paid) : 0 ≤ buy balance supply w paid := by
  have hbase : 1 ≤ 1 + paid / balance := le_add_of_nonneg_right (div_nonneg hpaid hbalance)
  exact mul_nonneg hsupply (sub_nonneg.2 (Real.one_le_rpow hbase hw))

/-- The cost of a purchase is what the mirrored curve delivers: the sides trade places, and the weight
is replaced by its reciprocal. -/
theorem buyExact_nonneg {wanted : ℝ} (hbalance : 0 ≤ balance) (hsupply : 0 ≤ supply) (hw : 0 ≤ w)
    (hwanted : 0 ≤ wanted) : 0 ≤ buyExact balance supply w wanted :=
  buy_nonneg hsupply hbalance (inv_nonneg.2 hw) hwanted

end ExactCurve

open Outcome

namespace Curve

open Decimal (ulp ulp_pos bound_eq)

variable {balance supply wanted : Amount} {w : Decimal} {c : Conversion}

/-! ## Exact conversions -/

/-- What an exact buy asks for before it is rounded up, up to a share of the balance after it. The
share grows with the reciprocal of the weight. -/
theorem buyExact_close (hw : Ordinary w) (hin : Amount.InRange wanted)
    (h : (buyExact balance supply w wanted).Returns c) :
    |(c.theoretical.toRat : ℝ) - ExactCurve.buyExact balance supply w.toRat wanted| ≤
      11 / 10 ^ 25 * ((balance + ExactCurve.buyExact balance supply w.toRat wanted) *
        (w.toRat : ℝ)⁻¹) := by
  obtain ⟨hbalance, hsupply, hwanted, growth, gain, d, hwithin, hgain, hd, h⟩ :=
    buyExact_steps hw hin h
  have hinv1 := hw.one_le_inv
  have hbalance' : (1 : ℝ) ≤ balance := by exact_mod_cast hbalance
  have hbase : (1 : ℝ) ≤ 1 + wanted / supply := by
    have hshare : (0 : ℝ) ≤ wanted / supply :=
      div_nonneg (by exact_mod_cast hwanted.le) (by exact_mod_cast hsupply.le)
    linarith
  have hH : 1 ≤ (1 + wanted / supply : ℝ) ^ (w.toRat : ℝ)⁻¹ :=
    Real.one_le_rpow hbase (by linarith)
  rw [ExactCurve.buyExact]
  generalize (1 + wanted / supply : ℝ) ^ (w.toRat : ℝ)⁻¹ = H at hwithin hH ⊢
  have hshare : |(gain.toRat : ℝ) - (H - 1)| ≤ 1 / 10 ^ 24 * (w.toRat : ℝ)⁻¹ * H := by
    rw [hgain]
    push_cast
    rw [sub_sub_sub_cancel_right]
    exact hwithin
  refine (theoretical_close hbalance (by linarith) hshare hd
    (Conversion.roundedUp_isOutcome h).1).trans ?_
  -- the rounding of the product is small beside the error of the growth
  have hBH : (balance : ℝ) * H ≤ balance * H * (w.toRat : ℝ)⁻¹ :=
    le_mul_of_one_le_right (by positivity) hinv1
  have hBH0 : 0 ≤ (balance : ℝ) * H := by positivity
  linarith

/-- A power of what is left is off by a share of it, which is small since a unit is left. -/
theorem IsRest.power_close {part whole : Amount} {rest : Decimal} {k : ℝ}
    (h : IsRest part whole rest) (hk0 : 0 ≤ k) (hk1 : k ≤ 1) :
    |(rest.toRat : ℝ) ^ k - (1 - part / whole : ℝ) ^ k| ≤
      4 / 10 ^ 28 * (1 - part / whole : ℝ)⁻¹ := by
  have hleft := h.left_pos
  have hinv := inv_pos.2 hleft
  have hle : (1 - part / whole : ℝ) ^ k ≤ 1 := Real.rpow_le_one hleft.le h.left_le_one hk0
  calc |(rest.toRat : ℝ) ^ k - (1 - part / whole : ℝ) ^ k|
      ≤ 4 * (k * (1 / 10 ^ 28 * (1 - part / whole : ℝ)⁻¹)) * (1 - part / whole : ℝ) ^ k :=
        h.within.rpow (by linarith [h.inv_left_le]) hk0 (by nlinarith [h.inv_left_le]) hleft
    _ ≤ 4 * (1 * (1 / 10 ^ 28 * (1 - part / whole : ℝ)⁻¹)) * 1 := by gcongr
    _ = 4 / 10 ^ 28 * (1 - part / whole : ℝ)⁻¹ := by ring

/-- What an exact sale asks for before it is rounded up, up to a part of the supply, and a part of it
that grows as less of the balance is left. -/
theorem sellExact_close (hw : Ordinary w) (hin : Amount.InRange balance)
    (h : (sellExact balance supply w wanted).Returns c) :
    |(c.theoretical.toRat : ℝ) - ExactCurve.sellExact balance supply w.toRat wanted| ≤
      1 / 10 ^ 24 * supply + 1 / 10 ^ 27 * (supply * (balance / (balance - wanted))) := by
  obtain ⟨hbalance, hsupply, rest, shrunk, loss, d, hisrest, hshrunk0, hclose, hvalue, hd, h⟩ :=
    sellExact_steps hw hin h
  have hw0 := hw.pos_real
  have hw1 : (w.toRat : ℝ) ≤ 1 := by exact_mod_cast hw.le_one
  have hbalance' : (0 : ℝ) < balance := by exact_mod_cast hbalance
  have hsupply' : (1 : ℝ) ≤ supply := by exact_mod_cast hsupply
  have hpower := hisrest.power_close hw0.le hw1
  have hleft0 := hisrest.left_pos
  have hleft1 := hisrest.left_le_one
  have hinv := hisrest.inv_left_le
  have hinverse : (balance : ℝ) / (balance - wanted) = (1 - wanted / balance : ℝ)⁻¹ := by
    rw [one_sub_div hbalance'.ne', inv_div]
  rw [ExactCurve.sellExact, hinverse]
  generalize (1 - wanted / balance : ℝ) = left at hpower hleft0 hleft1 hinv ⊢
  have hY0 : 0 ≤ left ^ (w.toRat : ℝ) := Real.rpow_nonneg hleft0.le _
  have hY1 : left ^ (w.toRat : ℝ) ≤ 1 := Real.rpow_le_one hleft0.le hleft1 hw0.le
  generalize left ^ (w.toRat : ℝ) = Y at hpower hY0 hY1 ⊢
  have hshrunk' : |(shrunk.toRat : ℝ) - Y| ≤ 6 / 10 ^ 25 + 4 / 10 ^ 28 * left⁻¹ := by
    linarith [abs_sub_le (shrunk.toRat : ℝ) ((rest.toRat : ℝ) ^ (w.toRat : ℝ)) Y]
  have hshare : |(loss.toRat : ℝ) - (1 - Y)| ≤ 6 / 10 ^ 25 + 4 / 10 ^ 28 * left⁻¹ := by
    rw [hvalue]
    push_cast
    rwa [sub_sub_sub_cancel_left, abs_sub_comm]
  refine (theoretical_close hsupply (by linarith) hshare hd
    (Conversion.roundedUp_isOutcome h).1).trans ?_
  have hinv0 : 0 ≤ (supply : ℝ) * left⁻¹ := by positivity
  have hSY : (supply : ℝ) * (1 - Y) ≤ supply := by nlinarith
  linarith

/-! ## All four conversions -/

/-- What a conversion comes to on the exact curve: the output of a market one, the input of an exact
one. -/
noncomputable def exactResult : Direction → Mode → (balance supply w amount : ℝ) → ℝ
  | direction, .market => exactMarket direction
  | .buy, .exact => ExactCurve.buyExact
  | .sell, .exact => ExactCurve.sellExact

/-- A bound on the error of a decimal result, worked out from that result. -/
def error (direction : Direction) (mode : Mode) (balance supply amount : Amount) (w result : ℚ) : ℚ :=
  match direction, mode with
  | .buy, .market => 3 / 10 ^ 24 * (supply + result)
  | .sell, .market => 1 / 10 ^ 24 * (balance * w⁻¹)
  | .buy, .exact => 3 / 10 ^ 24 * ((balance + result) * w⁻¹)
  | .sell, .exact => 1 / 10 ^ 24 * supply + 1 / 10 ^ 27 * (supply * (balance / (balance - amount)))

/-- What an exact conversion asks for is what its market conversion needs. -/
theorem le_exactMarket_iff {balance supply w wanted given : ℝ} {direction : Direction}
    (hbalance : 0 < balance) (hsupply : 0 < supply) (hw : 0 < w) (hgiven : 0 ≤ given)
    (hwanted : 0 ≤ wanted) (hsold : direction = .sell → given ≤ supply ∧ wanted ≤ balance) :
    wanted ≤ exactMarket direction balance supply w given ↔
      exactResult direction .exact balance supply w wanted ≤ given := by
  cases direction with
  | buy => exact ExactCurve.le_buy_iff hbalance hsupply hw hgiven hwanted
  | sell => exact ExactCurve.le_sell_iff hbalance hsupply hw (hsold rfl).1 (hsold rfl).2

/-- A share of what is given is worth that share of the output, at least. -/
theorem share_le_exactMarket {balance supply w given share : ℝ} {direction : Direction}
    (hbalance : 0 < balance) (hsupply : 0 < supply) (hw0 : 0 < w) (hw1 : w ≤ 1) (hgiven : 0 ≤ given)
    (hsold : direction = .sell → given ≤ supply) (hshare0 : 0 ≤ share) (hshare1 : share ≤ 1) :
    share * exactMarket direction balance supply w given ≤
      exactMarket direction balance supply w (share * given) := by
  cases direction with
  | buy => exact ExactCurve.share_le_buy hbalance hsupply hw0.le hw1 hgiven hshare0 hshare1
  | sell => exact ExactCurve.share_le_sell hbalance hsupply hw0 hw1 (hsold rfl) hshare0 hshare1

end Curve

/-- A bound that grows with the exact value also grows with the value that is close to it. -/
theorem abs_sub_le_of_share {q t e side : ℝ} (hq0 : 0 ≤ q) (hq : q ≤ 3 / 5) (hside : 0 ≤ side + e)
    (h : |t - e| ≤ q * (side + e)) : |t - e| ≤ 5 / 2 * q * (side + t) := by
  have hle : side + e ≤ 5 / 2 * (side + t) := by
    linarith [(abs_le.1 h).1, mul_le_mul_of_nonneg_right hq hside]
  linarith [mul_le_mul_of_nonneg_left hle hq0]

namespace Connector

open Curve

variable {c : Connector} {direction : Direction} {mode : Mode} {supply amount : Amount}
  {conversion : Conversion}

/-- The bound on the error of a result of this connector's curve. -/
def error (c : Connector) (direction : Direction) (mode : Mode) (supply amount : Amount)
    (result : ℚ) : ℚ :=
  Curve.error direction mode c.balance.amount supply amount c.weight.value.toRat result

/-- The result of every conversion is within its bound of the exact curve. -/
theorem convert_close (hw : Ordinary c.weight.value) (hbalance : Amount.InRange c.balance.amount)
    (hin : Amount.InRange amount)
    (h : (c.convert direction mode supply amount).Returns conversion) :
    |(conversion.theoretical.toRat : ℝ) - exactResult direction mode c.balance.amount supply
      c.weight.value.toRat amount| ≤
        c.error direction mode supply amount conversion.theoretical.toRat := by
  have heval := convert_evaluation h
  have hbalance' : (0 : ℝ) < c.balance.amount := by exact_mod_cast heval.balance_pos
  have hsupply : (0 : ℝ) < supply := by exact_mod_cast heval.supply_pos
  have hamount : (0 : ℝ) ≤ amount := by exact_mod_cast heval.amount_pos.le
  have hresult : (0 : ℝ) ≤ conversion.theoretical.toRat := by
    exact_mod_cast heval.outcome.theoretical_nonneg
  have hinv := hw.inv_le
  have hinv1 := hw.one_le_inv
  cases direction <;> cases mode
  · have hexact := ExactCurve.buy_nonneg hbalance'.le hsupply.le hw.pos_real.le hamount
    have hclose := abs_sub_le_of_share (by norm_num) (by norm_num) (by linarith)
      (buy_close hw hin h)
    simp only [error, Curve.error, exactResult, exactMarket]
    push_cast
    linarith
  · have hexact := ExactCurve.buyExact_nonneg hbalance'.le hsupply.le hw.pos_real.le hamount
    have hclose := buyExact_close hw hin h
    rw [mul_comm _ (c.weight.value.toRat : ℝ)⁻¹, ← mul_assoc] at hclose
    have hclose' := abs_sub_le_of_share (by positivity) (by linarith) (by linarith) hclose
    simp only [error, Curve.error, exactResult]
    push_cast
    have hscale := mul_nonneg (by linarith : 0 ≤ (c.weight.value.toRat : ℝ)⁻¹)
      (by linarith : 0 ≤ (c.balance.amount : ℝ) + conversion.theoretical.toRat)
    linarith
  · simp only [error, Curve.error, exactResult, exactMarket]
    push_cast
    exact sell_close hw hin h
  · simp only [error, Curve.error, exactResult]
    push_cast
    exact sellExact_close hw hbalance h

end Connector
end BondingCurve
