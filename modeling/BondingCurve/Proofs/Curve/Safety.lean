import BondingCurve.Proofs.Curve.Sufficiency

/-!
# An evaluation always ends

A power of a valid decimal is a valid decimal, however large the exponent (`Decimal.pow_valid`). So
one can be taken off a growth and a rest off one, whatever their size, and no evaluation of the curve
ends without an answer (`Connector.not_aborts_convert`). What an exact sale asks for is part of the
supply, as what a market sale pays is part of the balance (`Connector.convert_inside`).
-/

namespace BondingCurve

open Outcome

namespace Decimal

variable {b k r : Decimal} {n : ℕ}

/-! ## Powers are valid -/

/-- A whole power is rounded like every product, so it is valid. -/
theorem powNat_valid (hb : b.Valid) (h : b.powNat n = .ok r) : r.Valid := by
  unfold powNat at h
  split at h
  · cases h
    exact valid_ofInt (by decide)
  split at h
  · cases h
    exact valid_ofInt (by decide)
  split at h
  · cases h
    exact valid_ofInt (by decide)
  split at h
  · cases h
    exact hb
  split at h
  · exact mul_valid h
  split at h
  · obtain ⟨w, -, h⟩ := Fault.bind_eq_ok.1 h
    obtain ⟨d, hd, h⟩ := Fault.bind_eq_ok.1 h
    cases h
    exact (Wide.narrow_close hd).1.normalize
  · obtain ⟨d, hd, h⟩ := Fault.bind_eq_ok.1 h
    cases h
    exact (powBits_keeps (fun _ _ _ _ _ => mul_valid) valid_one hb hd).normalize

/-- An exponential is cut down to a valid decimal. -/
theorem exp_valid {x : Decimal} (hx : x.Valid) (h : x.exp = .ok r) : r.Valid := by
  unfold exp at h
  split at h
  · obtain ⟨d, -, h⟩ := Fault.bind_eq_ok.1 h
    exact div_valid h valid_one
  · next hnonneg => exact (expNonneg_within hx (toRat_nonneg_iff.2 (Int.not_lt.1 hnonneg)) h).1

/-- A power of a valid decimal is one, whatever the exponent. -/
theorem pow_valid (hb : b.Valid) (h : b.pow k = .ok r) : r.Valid := by
  unfold pow at h
  split at h
  · cases h
    exact valid_ofInt (by decide)
  split at h
  · cases h
    exact valid_ofInt (by decide)
  split at h
  · cases h
    exact valid_ofInt (by decide)
  split at h
  · cases h
    exact hb
  dsimp only at h
  split at h
  · split at h
    · cases h
    split at h
    · obtain ⟨d, -, h⟩ := Fault.bind_eq_ok.1 h
      exact div_valid h valid_one
    · exact powNat_valid hb h
  · obtain ⟨l, -, h⟩ := Fault.bind_eq_ok.1 h
    obtain ⟨m, hm, h⟩ := Fault.bind_eq_ok.1 h
    exact exp_valid (mul_valid hm) h

/-- A valid decimal that is not negative can be taken off one. -/
theorem exists_one_sub {d : Decimal} (hd : d.Valid) (h0 : 0 ≤ d.toRat) :
    ∃ r, one.subOrAbort d = .ok r := by
  have hbound := (abs_le.1 hd.abs_toRat_le).2
  obtain ⟨r, hr⟩ := exists_add (a := one) (b := -d) valid_one hd.neg (by
    rw [toRat_neg, toRat_one, abs_le, bound_eq] at *
    push_cast at *
    constructor <;> linarith)
  exact ⟨r, by rw [subOrAbort, sub, hr]; rfl⟩

end Decimal

namespace Curve

variable {balance supply amount : Amount} {w base exponent : Decimal} {a : Abort}
  {mode : Mode} {c : Conversion}

/-! ## Steps that do not abort -/

@[simp] theorem not_aborts_checkState : ¬(checkState balance supply amount).Aborts a := by
  simp [checkState]

@[simp] theorem not_aborts_orOverflow {r : Except Decimal.Fault Decimal} :
    ¬(orOverflow r).Aborts a := by
  cases r <;> simp [orOverflow]

@[simp] theorem not_aborts_toUnits {d : Decimal} : ¬(Conversion.toUnits d).Aborts a := by
  unfold Conversion.toUnits
  split <;> simp

/-- A power that runs over its range is an error and no abort. -/
@[simp] theorem not_aborts_power : ¬(power base exponent).Aborts a := by
  unfold power
  split <;> simp

/-- The powers that the curve uses are valid decimals. -/
theorem power_valid {r : Decimal} (hbase : base.Valid) (h : (power base exponent).Returns r) :
    r.Valid := by
  rw [power, returns_ite] at h
  rcases h with ⟨-, h⟩ | ⟨-, h⟩
  · rw [← returns_pure.1 h]
    exact Decimal.valid_ofInt (by decide)
  · exact Decimal.pow_valid hbase (returns_orOverflow.1 h)

/-- A valid result is made whole without an abort: its ratio is a share of it. -/
theorem not_aborts_ofResult {d : Decimal} (hd : d.Valid) : ¬(ofResult mode d).Aborts a := by
  intro h
  have hvalid : (d.max .zero).Valid := by
    unfold Decimal.max
    split
    · exact Decimal.valid_ofInt (by decide)
    · exact hd
  by_cases hin : Amount.InRange (mode.whole (d.max .zero).toRat)
  · -- the ratio can be computed of every result that is an amount
    obtain ⟨c, hc, -⟩ := exists_ofResult mode hvalid (Conversion.max_zero_nonneg d) hin
    rw [ofResult_max_zero] at hc
    exact h.not_returns hc
  · cases mode <;>
    · simp only [ofResult, Conversion.truncated, Conversion.roundedUp, Decimal.floor_eq,
        Decimal.ceil_eq, aborts_bind, not_aborts_toUnits, Conversion.returns_toUnits,
        false_or] at h
      obtain ⟨-, ⟨hin', -⟩, -⟩ := h
      exact hin hin'

/-- The last step of an evaluation does not abort. -/
theorem not_aborts_result {side : Amount} {share : Decimal} :
    ¬(orOverflow ((Decimal.ofInt side).mul share) >>= ofResult mode).Aborts a := by
  simp only [aborts_bind, not_aborts_orOverflow, false_or, not_exists, not_and, returns_orOverflow]
  exact fun d hd => not_aborts_ofResult (Decimal.mul_valid hd)

/-- One can be taken off a growth, and what is left be made whole. -/
theorem not_aborts_gain (mode : Mode) {side : Amount} {growth : Decimal} (hvalid : growth.Valid)
    (h0 : 0 ≤ growth.toRat) :
    ¬(do
      let gain ← growth.subOrAbort .one
      ofResult mode (← orOverflow ((Decimal.ofInt side).mul gain)) :
        Outcome CurveError Conversion).Aborts a := by
  obtain ⟨gain, hgain, -⟩ := Decimal.sub_one_exact hvalid h0
  have hsub : growth.subOrAbort .one = .ok gain := Abort.mapError_eq_ok.2 hgain
  rw [(returns_lift.2 hsub).bind_eq]
  exact not_aborts_result

/-- A rest can be taken off one. -/
theorem not_aborts_loss (mode : Mode) {side : Amount} {shrunk : Decimal} (hvalid : shrunk.Valid)
    (h0 : 0 ≤ shrunk.toRat) :
    ¬(do
      let loss ← Decimal.one.subOrAbort shrunk
      ofResult mode (← orOverflow ((Decimal.ofInt side).mul loss)) :
        Outcome CurveError Conversion).Aborts a := by
  obtain ⟨loss, hloss⟩ := Decimal.exists_one_sub hvalid h0
  rw [(returns_lift.2 hloss).bind_eq]
  exact not_aborts_result

/-! ## The four evaluations -/

/-- A market buy never aborts, whatever the weight. -/
theorem not_aborts_buy (hin : Amount.InRange amount) :
    ¬(buy balance supply w amount).Aborts a := by
  intro h
  rcases aborts_bind.1 h with habort | ⟨_, hstate, h⟩
  · exact not_aborts_checkState habort
  obtain ⟨hbalance, -, hamount⟩ := returns_checkState.1 hstate
  obtain ⟨grown, hgrown, hvalid, hone, -⟩ := exists_onePlus hamount.le hbalance hin
  rw [(returns_lift.2 hgrown).bind_eq] at h
  rcases aborts_bind.1 h with habort | ⟨growth, hgrowth, h⟩
  · exact not_aborts_power habort
  · exact not_aborts_gain .market (power_valid hvalid hgrowth)
      (power_nonneg (by linarith) hgrowth) h

/-- A market sale never aborts at a valid weight, whose reciprocal exists. -/
theorem not_aborts_sell (hw : w.Valid) (hweight : Weight.IsValid w) (hin : Amount.InRange amount) :
    ¬(sell balance supply w amount).Aborts a := by
  intro h
  rcases aborts_bind.1 h with habort | ⟨_, hstate, h⟩
  · exact not_aborts_checkState habort
  obtain ⟨-, hsupply, hamount⟩ := returns_checkState.1 hstate
  rcases aborts_ite.1 h with ⟨-, habort⟩ | ⟨hle, h⟩
  · exact not_aborts_throw habort
  obtain ⟨rest, hrest, hvalid, h0, -⟩ := exists_oneMinus hamount.le (not_lt.1 hle) hsupply hin
  obtain ⟨k, hk, -⟩ := exists_reciprocal hw hweight.pos hweight.le_one
  rw [(returns_lift.2 hrest).bind_eq, (returns_lift.2 hk).bind_eq] at h
  rcases aborts_bind.1 h with habort | ⟨shrunk, hshrunk, h⟩
  · exact not_aborts_power habort
  · exact not_aborts_loss .market (power_valid hvalid hshrunk)
      (power_nonneg h0 hshrunk) h

/-- An exact buy never aborts at a valid weight. -/
theorem not_aborts_buyExact (hw : w.Valid) (hweight : Weight.IsValid w)
    (hin : Amount.InRange amount) : ¬(buyExact balance supply w amount).Aborts a := by
  intro h
  rcases aborts_bind.1 h with habort | ⟨_, hstate, h⟩
  · exact not_aborts_checkState habort
  obtain ⟨-, hsupply, hamount⟩ := returns_checkState.1 hstate
  obtain ⟨grown, hgrown, hvalid, hone, -⟩ := exists_onePlus hamount.le hsupply hin
  obtain ⟨k, hk, -⟩ := exists_reciprocal hw hweight.pos hweight.le_one
  rw [(returns_lift.2 hgrown).bind_eq, (returns_lift.2 hk).bind_eq] at h
  rcases aborts_bind.1 h with habort | ⟨growth, hgrowth, h⟩
  · exact not_aborts_power habort
  · exact not_aborts_gain .exact (power_valid hvalid hgrowth)
      (power_nonneg (by linarith) hgrowth) h

/-- An exact sale never aborts, whatever the weight. -/
theorem not_aborts_sellExact (hin : Amount.InRange amount) :
    ¬(sellExact balance supply w amount).Aborts a := by
  intro h
  rcases aborts_bind.1 h with habort | ⟨_, hstate, h⟩
  · exact not_aborts_checkState habort
  obtain ⟨hbalance, -, hamount⟩ := returns_checkState.1 hstate
  rcases aborts_ite.1 h with ⟨-, habort⟩ | ⟨hlt, h⟩
  · exact not_aborts_throw habort
  obtain ⟨rest, hrest, hvalid, h0, -⟩ :=
    exists_oneMinus hamount.le (not_le.1 hlt).le hbalance hin
  rw [(returns_lift.2 hrest).bind_eq] at h
  rcases aborts_bind.1 h with habort | ⟨shrunk, hshrunk, h⟩
  · exact not_aborts_power habort
  · exact not_aborts_loss .exact (power_valid hvalid hshrunk)
      (power_nonneg h0 hshrunk) h

/-- What an exact sale asks for is part of the supply, whatever the weight. -/
theorem sellExact_amount_le (h : (sellExact balance supply w amount).Returns c) :
    c.amount ≤ supply := by
  simp only [sellExact, returns_bind, returns_lift, returns_checkState, returns_ite,
    not_returns_throw, false_and, exists_false, and_false, false_or] at h
  obtain ⟨-, ⟨-, hsupply, hamount⟩, hlt, rest, hrest, shrunk, hshrunk, loss, hloss, d, hd, h⟩ := h
  have hrest0 := oneMinus_nonneg hamount.le (not_le.1 hlt).le hrest
  have hloss1 : loss.toRat ≤ (1 : ℕ) :=
    Decimal.sub_le (Decimal.subOrAbort_eq_ok hloss) (power_nonneg hrest0 hshrunk) (by simp)
  exact amount_le_side hsupply.le (by exact_mod_cast hloss1) hd h

end Curve

namespace Connector

variable {c : Connector} {direction : Direction} {mode : Mode} {supply amount : Amount} {a : Abort}
  {outcome : Conversion}

/-- No evaluation of a curve ends without an answer. -/
theorem not_aborts_convert (hvalid : c.weight.value.Valid) (hweight : Weight.IsValid c.weight.value)
    (hin : Amount.InRange amount) : ¬(c.convert direction mode supply amount).Aborts a := by
  cases direction <;> cases mode
  · exact Curve.not_aborts_buy hin
  · exact Curve.not_aborts_buyExact hvalid hweight hin
  · exact Curve.not_aborts_sell hvalid hweight hin
  · exact Curve.not_aborts_sellExact hin

/-- What a sale of a pool moves is part of it: a market sale pays no more than the balance, an exact
one asks for no more than the supply. -/
def Inside (direction : Direction) (mode : Mode) (balance supply : Amount) (outcome : Conversion) :
    Prop :=
  0 ≤ outcome.amount ∧ 0 ≤ outcome.ratio.toRat ∧ outcome.ratio.toRat ≤ 1 ∧
    match direction, mode with
    | .sell, .market => outcome.amount ≤ balance
    | .sell, .exact => outcome.amount ≤ supply
    | .buy, _ => True

/-- What any conversion returns stays inside the pool. -/
theorem convert_inside (h : (c.convert direction mode supply amount).Returns outcome) :
    Inside direction mode c.balance.amount supply outcome := by
  have houtcome := (convert_evaluation h).outcome
  refine ⟨houtcome.amount_nonneg, houtcome.ratio_nonneg, houtcome.ratio_le_one, ?_⟩
  cases direction with
  | buy => trivial
  | sell =>
    cases mode with
    | market => exact (convert_sell_market h).2
    | exact => exact Curve.sellExact_amount_le h

end Connector
end BondingCurve
