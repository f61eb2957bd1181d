import BondingCurve.Proofs.Curve.Accuracy
import BondingCurve.Proofs.Curve.FullWeight
import BondingCurve.Proofs.Exchange.Settlement

/-!
# A round trip

On the exact curve a round trip gives back what was paid (`ExactCurve.sell_buy_le`, with nothing
delivered in excess). Computed, both ways are off by parts in `10 ^ 24`, of the supply and of the
balance over the weight. Where that is less than a unit, no round trip gains one
(`convert_round_trip_le`). A weight of `0.00002` is enough of that for every pool, and a weight so
small that it scales the error to a unit is not (`round_trip_gains`).
-/

namespace BondingCurve

/-- Selling what was bought, a little more of it than the curve gives, is paid what it cost and that
little, scaled by the reciprocal of the weight. -/
theorem ExactCurve.sell_buy_le {balance supply w paid received ε : ℝ} (hbalance : 0 < balance)
    (hsupply : 0 < supply) (hw : 0 < w) (hpaid : 0 ≤ paid) (hreceived : 0 ≤ received) (hε : 0 ≤ ε)
    (hle : supply + received ≤ (1 + ε) * (supply + buy balance supply w paid)) :
    sell (balance + paid) (supply + received) w received ≤ paid + balance * (ε * w⁻¹) := by
  have hinv : 0 < w⁻¹ := inv_pos.2 hw
  have hgrown : 0 < 1 + paid / balance := by positivity
  have hG : 0 < (1 + paid / balance) ^ w := Real.rpow_pos_of_pos hgrown w
  rw [buy, ← mul_one_add, add_sub_cancel] at hle
  -- what is left of the supply, raised to the reciprocal, is what is left of the balance
  have hrest : ((1 + ε) * (1 + paid / balance) ^ w)⁻¹ ≤ 1 - received / (supply + received) := by
    have hsplit : 1 - received / (supply + received) = supply / (supply + received) := by
      field_simp
      ring
    rw [hsplit, inv_le_comm₀ (by positivity) (by positivity), inv_div, div_le_iff₀ hsupply]
    linarith
  have hpower := Real.rpow_le_rpow (by positivity) hrest hinv.le
  rw [Real.inv_rpow (by positivity), Real.mul_rpow (by positivity) hG.le, ← Real.rpow_mul hgrown.le,
    mul_inv_cancel₀ hw.ne', Real.rpow_one, mul_inv] at hpower
  have hshare : 1 - ε * w⁻¹ ≤ ((1 + ε) ^ w⁻¹)⁻¹ := by
    have hone : (1 + ε) ^ w⁻¹ ≤ Real.exp (ε * w⁻¹) := by
      rw [Real.exp_mul]
      exact Real.rpow_le_rpow (by linarith) (by linarith [Real.add_one_le_exp ε]) hinv.le
    have hexp := inv_anti₀ (by positivity) hone
    rw [← Real.exp_neg] at hexp
    linarith [Real.add_one_le_exp (-(ε * w⁻¹))]
  have hback : (1 + paid / balance)⁻¹ * (balance + paid) = balance := by
    field_simp
  rw [sell]
  have hle' := mul_le_mul_of_nonneg_right
    ((mul_le_mul_of_nonneg_right hshare (inv_pos.2 hgrown).le).trans hpower)
    (by positivity : 0 ≤ balance + paid)
  rw [mul_assoc, hback] at hle'
  linarith

namespace Connector

open Outcome Curve

variable {c c' : Connector} {supply paid : Amount} {bought back : Conversion}

/-- A round trip only loses, as long as the pool after the purchase holds less than `5 * 10 ^ 23`
times the weight. -/
theorem convert_round_trip_le (hvalid : c.weight.value.Valid) (hweight : Weight.IsValid c.weight.value)
    (hpaid : (c.withDelta paid).Returns c')
    (hbuy : (c.convert .buy .market supply paid).Returns bought)
    (hsell : (c'.convert .sell .market (supply + bought.amount) bought.amount).Returns back)
    (hlarge : 2 * (c'.balance.amount : ℚ) < 10 ^ 24 * c.weight.value.toRat) :
    back.amount ≤ paid := by
  obtain ⟨hin, -, rfl⟩ := returns_withDelta.1 hpaid
  obtain ⟨hbalance, hsupply, hpaid0, hbought⟩ := buy_evaluation hbuy
  obtain ⟨⟨-, -, hamount, hback⟩, -, -⟩ := sell_evaluation hsell
  rw [show (c.moved paid).balance.amount = c.balance.amount + paid from rfl] at hlarge
  have hbalance1 : (1 : ℚ) ≤ c.balance.amount := by exact_mod_cast hbalance
  have hpaid1 : (1 : ℚ) ≤ paid := by exact_mod_cast hpaid0
  push_cast at hlarge
  have hw : Ordinary c.weight.value := ⟨hvalid, by linarith, hweight.le_one⟩
  have hinPaid : Amount.InRange paid := by
    have hleast : Amount.least ≤ 0 := by decide
    exact ⟨hleast.trans hpaid0.le, (le_add_of_nonneg_left hbalance.le).trans hin.2⟩
  -- what was bought is not much more than the curve gives
  have hbuyclose := (abs_le.1 (buy_close hw hinPaid hbuy)).2
  have hfloor : (bought.amount : ℝ) ≤ bought.theoretical.toRat := by
    exact_mod_cast hbought.amount_le.1
  have hexcess : (supply : ℝ) + bought.amount ≤ (1 + 1 / 10 ^ 24) *
      (supply + ExactCurve.buy c.balance.amount supply c.weight.value.toRat paid) := by
    linarith
  have hexact := ExactCurve.sell_buy_le (by exact_mod_cast hbalance) (by exact_mod_cast hsupply)
    hw.pos_real (by exact_mod_cast hpaid0.le) (by exact_mod_cast hamount.le) (by norm_num) hexcess
  -- nor is what is paid back
  have hsold : (sell (c.balance.amount + paid) (supply + bought.amount) c.weight.value
      bought.amount).Returns back := hsell
  have hsellclose := (abs_le.1 (sell_close hw hbought.amount_inRange hsold)).2
  push_cast at hsellclose
  have hfloor' : (back.amount : ℝ) ≤ back.theoretical.toRat := by
    exact_mod_cast hback.amount_le.1
  have hmargin : 2 * (((c.balance.amount : ℝ) + paid) * (c.weight.value.toRat : ℝ)⁻¹) < 10 ^ 24 := by
    have hlarge' : 2 * ((c.balance.amount : ℝ) + paid) < 10 ^ 24 * c.weight.value.toRat := by
      exact_mod_cast hlarge
    rw [← mul_assoc, ← div_eq_mul_inv, div_lt_iff₀ hw.pos_real]
    exact hlarge'
  have hpaid' : (0 : ℝ) ≤ paid * (c.weight.value.toRat : ℝ)⁻¹ :=
    mul_nonneg (by exact_mod_cast hpaid0.le) (by linarith [hw.one_le_inv])
  have hlt : (back.amount : ℝ) < paid + 1 := by linarith
  exact Int.lt_add_one_iff.1 (by exact_mod_cast hlt)

/-- A pool of a million at a tenth takes a thousand and gives back a little less. -/
theorem small_round_trip_loses :
    ∃ c bought back, ((Sample.connector 1000000 ⟨1, 1, false⟩).withDelta 1000).Returns c ∧
      ((Sample.connector 1000000 ⟨1, 1, false⟩).convert .buy .market 5000000 1000).Returns bought ∧
      (c.convert .sell .market (5000000 + bought.amount) bought.amount).Returns back ∧
      0 < bought.amount ∧ back.amount ≤ 1000 := by
  have hdelta : ((Sample.connector 1000000 ⟨1, 1, false⟩).withDelta 1000).Returns
      ((Sample.connector 1000000 ⟨1, 1, false⟩).moved 1000) :=
    returns_withDelta.2 ⟨by decide, by decide, rfl⟩
  have hyields : Abort.Yields ((Sample.connector 1000000 ⟨1, 1, false⟩).convert .buy .market 5000000
      1000).run fun answer => Abort.Yields answer fun bought => 0 < bought.amount ∧ Abort.Yields
        (((Sample.connector 1000000 ⟨1, 1, false⟩).moved 1000).convert .sell .market
          (5000000 + bought.amount) bought.amount).run fun answer =>
            Abort.Yields answer fun _ => True := by
    decide +kernel
  obtain ⟨_, hb, bought, rfl, hpos, _, hr, back, rfl, -⟩ := hyields
  refine ⟨_, bought, back, hdelta, hb, hr, hpos, convert_round_trip_le ⟨by decide, by decide,
    by decide⟩ (by decide) hdelta hb hr ?_⟩
  norm_num [Sample.connector, moved, Asset.withAmount, Decimal.toRat, Decimal.powTen]

/-- A pool of this size with this weight pays back one unit more than it was paid. -/
theorem round_trip_gains :
    ∃ b r, ((Sample.connector 8000000000000000000 ⟨1, 9, false⟩).convert .buy .market
        1611611162710915 20000000000000000).Returns b ∧ b.amount = 4024 ∧
      ((Sample.connector 8020000000000000000 ⟨1, 9, false⟩).convert .sell .market
        1611611162714939 4024).Returns r ∧ ¬r.amount ≤ 20000000000000000 := by
  have hbuy : Abort.Yields ((Sample.connector 8000000000000000000 ⟨1, 9, false⟩).convert .buy
      .market 1611611162710915 20000000000000000).run fun answer =>
        Abort.Yields answer fun b => b.amount = 4024 := by
    decide +kernel
  have hsell : Abort.Yields ((Sample.connector 8020000000000000000 ⟨1, 9, false⟩).convert .sell
      .market 1611611162714939 4024).run fun answer =>
        Abort.Yields answer fun r => ¬r.amount ≤ 20000000000000000 := by
    decide +kernel
  obtain ⟨_, hb, b, rfl, hbought⟩ := hbuy
  obtain ⟨_, hr, r, rfl, hgain⟩ := hsell
  exact ⟨b, r, hb, hbought, hr, hgain⟩

end Connector
end BondingCurve
