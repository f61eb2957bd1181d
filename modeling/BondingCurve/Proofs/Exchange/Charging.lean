import BondingCurve.Proofs.Exchange.Override
import BondingCurve.Proofs.UnusedShare

/-!
# A conversion that is charged pays

The fee is worked out on what a buyer puts in, on what a pool asks of him, on what a seller is paid
or on what he asks for. A buyer whose output was cut down then gets a share of it back. He never
gets all of it back: of an output of one unit or more at most half was cut off
(`Conversion.half_le_ratio`), so at most half of the fee is returned (`Conversion.unusedShare_lt`).
`convert_charges` puts this together for every conversion that is carried out.
-/

namespace BondingCurve

open Outcome

/-! ## The least and the greatest fee -/

namespace FeePolicy

variable {p : FeePolicy} {value fee : Amount}

theorem feeOn_of_exempt (hexempt : p.isExempt = true) (h : p.feeOn value = .ok fee) : fee = 0 := by
  rw [feeOn, if_pos (.inl hexempt), Abort.pure_eq_ok] at h
  exact h.symm

/-- A policy that charges something takes one unit at least of a positive value. -/
theorem one_le_feeOn (hcharges : p.isExempt = false) (hvalue : 0 < value)
    (h : p.feeOn value = .ok fee) : 1 ≤ fee := by
  have hcond : ¬(p.isExempt = true ∨ value ≤ 0) :=
    not_or.2 ⟨by rw [hcharges]; exact Bool.false_ne_true, not_le.2 hvalue⟩
  rw [feeOn, if_neg hcond] at h
  simp only [Abort.bind_eq_ok, Abort.pure_eq_ok] at h
  obtain ⟨_, share, _, rfl⟩ := h
  exact le_max_right _ leastFee

theorem feeOn_inRange (h : p.feeOn value = .ok fee) : Amount.InRange fee := by
  refine ⟨le_trans (by decide) (feeOn_nonneg h), ?_⟩
  unfold feeOn at h
  split at h
  · rw [Abort.pure_eq_ok] at h
    exact h ▸ (by decide)
  · simp only [Abort.bind_eq_ok, Abort.pure_eq_ok] at h
    obtain ⟨_, share, _, rfl⟩ := h
    -- a saturating sum stops at the greatest amount
    exact max_le (max_le (by decide) (min_le_left _ _)) (by decide)

theorem feeOn_of_charge {mode : ChargeMode} {c : Charge} (h : p.charge value mode = .ok c) :
    p.feeOn value = .ok c.fee := by
  obtain ⟨fee, hfee, h⟩ := Abort.bind_eq_ok.1 h
  rw [Abort.pure_eq_ok] at h
  subst h
  cases mode <;> exact hfee

end FeePolicy

/-! ## Outcomes are results made whole -/

/-- A curve makes its result whole by the rule of the mode. -/
theorem Connector.convert_ofResult {c : Connector} {direction : Direction} {mode : Mode}
    {supply amount : Amount} {outcome : Conversion}
    (h : (c.convert direction mode supply amount).Returns outcome) :
    ∃ d, (Curve.ofResult mode d).Returns outcome := by
  cases direction <;> cases mode <;>
    simp only [convert, Curve.buy, Curve.sell, Curve.buyExact, Curve.sellExact, returns_bind,
      returns_ite, not_returns_throw, false_and, exists_false, and_false, false_or] at h
  · obtain ⟨-, -, -, -, -, -, -, -, d, -, h⟩ := h
    exact ⟨d, h⟩
  · obtain ⟨-, -, -, -, -, -, -, -, -, -, d, -, h⟩ := h
    exact ⟨d, h⟩
  · obtain ⟨-, -, -, -, -, -, -, -, -, -, -, d, -, h⟩ := h
    exact ⟨d, h⟩
  · obtain ⟨-, -, -, -, -, -, -, -, -, d, -, h⟩ := h
    exact ⟨d, h⟩

/-- So does a flat rate. -/
theorem Rate.convert_ofResult {direction : Direction} {mode : Mode} {given : Amount}
    {rate : Decimal} {outcome : Conversion}
    (h : (Rate.convert direction mode given rate).Returns outcome) :
    ∃ d, (Curve.ofResult mode d).Returns outcome := by
  simp only [Rate.convert, returns_bind, returns_ite, not_returns_throw, false_and, exists_false,
    and_false, false_or] at h
  obtain ⟨-, -, h⟩ := h
  cases direction <;> cases mode <;>
  · obtain ⟨d, -, h⟩ := returns_bind.1 h
    exact ⟨d, h⟩

/-! ## Plans -/

/-- The connected tokens that the fee of a plan is worked out on: what a buyer puts in or the pool
asks of him, what a seller and the owner are paid or the seller asks for. -/
def Plan.charged (p : Plan) : Amount :=
  match p.direction, p.mode with
  | .buy, .market => p.pay.amount + p.refund.amount
  | .buy, .exact => p.balanceDelta
  | .sell, .market => p.receive.amount + p.fee.amount
  | .sell, .exact => p.receive.amount

/-- What a policy makes of a plan: its fee is not above the policy's on the amount charged, which
is positive, and only a fee of nothing is reduced to nothing. -/
structure Plan.ChargedBy (p : Plan) (policy : FeePolicy) (fee : Amount) : Prop where
  feeOn : policy.feeOn p.charged = .ok fee
  charged_pos : 0 < p.charged
  fee_le : p.fee.amount ≤ fee
  fee_nonneg : 0 ≤ p.fee.amount
  fee_pos : 0 < fee → 0 < p.fee.amount

namespace Exchange

variable {ρ : Type} [Reserve ρ] {x y : Exchange ρ} {given wanted : Asset} {c : Connector}
  {supply amount : Amount} {direction : Direction} {mode : Mode} {p : Plan}

/-- The outcome that a plan uses is a result made whole, the curve's or the reserve's. -/
theorem chosen_ofResult {curve chosen : Conversion} {overrideApplied : Bool}
    (h : (x.evaluate c direction mode supply amount).Returns (curve, chosen, overrideApplied)) :
    ∃ d, (Curve.ofResult mode d).Returns chosen := by
  cases overrideApplied with
  | false =>
    have heval := returns_evaluate h
    rw [heval.unreplaced rfl]
    exact Connector.convert_ofResult heval.converts
  | true =>
    obtain ⟨rate, raw, -, -, hselect⟩ := returns_evaluate_override h
    obtain ⟨-, -, -, hconvert⟩ := Rate.returns_selectOverride hselect
    exact Rate.convert_ofResult hconvert

/-- Of the fee on a market buy only a part goes back with what the output did not use. -/
theorem chargedBy_buy (h : (x.planBuy c supply given).Returns p) :
    ∃ fee, p.ChargedBy (x.effectivePolicy c.smart) fee := by
  obtain ⟨charged, curve, chosen, overrideApplied, unused, excess, hcharged, hnet, hevaluate,
    hchosen, hunused, hshare, rfl⟩ := returns_planBuy h
  obtain ⟨hfee, hrest⟩ := FeePolicy.charge_nonRequired hcharged
  have hfeeOn := FeePolicy.feeOn_of_charge hcharged
  have houtcome := (returns_evaluate hevaluate).outcome
  obtain ⟨d, hd⟩ := chosen_ofResult hevaluate
  obtain ⟨hvalid, hhalf⟩ := Conversion.half_le_ratio hd hchosen
  have hexcess : 0 ≤ excess ∧ excess ≤ charged.fee ∧ (0 < charged.fee → excess < charged.fee) := by
    rcases hshare with ⟨-, hexcess⟩ | ⟨-, rfl⟩
    · exact ⟨Conversion.unusedShare_nonneg hexcess,
        Conversion.unusedShare_le houtcome hfee hexcess,
        fun hpos => Conversion.unusedShare_lt ⟨hvalid, houtcome.ratio_nonneg,
          houtcome.ratio_le_one⟩ hhalf hpos (FeePolicy.feeOn_inRange hfeeOn) hexcess⟩
    · exact ⟨le_rfl, hfee, id⟩
  have hgiven : given.amount - (unused + excess) + (unused + excess) = given.amount :=
    Int.sub_add_cancel _ _
  refine ⟨charged.fee, ?_, ?_, Int.sub_le_self _ hexcess.1, Int.sub_nonneg.2 hexcess.2.1,
    fun hpos => Int.sub_pos.2 (hexcess.2.2 hpos)⟩
  · show (x.effectivePolicy c.smart).feeOn (given.amount - (unused + excess) + (unused + excess)) =
      .ok charged.fee
    rw [hgiven, hfeeOn]
  · show 0 < given.amount - (unused + excess) + (unused + excess)
    linarith

theorem chargedBy_sell (h : (x.planSell c supply given wanted).Returns p) :
    ∃ fee, p.ChargedBy (x.effectivePolicy c.smart) fee := by
  obtain ⟨charged, curve, chosen, overrideApplied, unused, hevaluate, hcharged, hnet, hunused,
    rfl⟩ := returns_planSell h
  obtain ⟨hfee, hrest⟩ := FeePolicy.charge_nonRequired hcharged
  have hsum : charged.net + charged.fee = chosen.amount := by
    rw [hrest, Int.sub_add_cancel]
  refine ⟨charged.fee, ?_, Int.add_pos_of_pos_of_nonneg hnet hfee, le_rfl, hfee, id⟩
  show (x.effectivePolicy c.smart).feeOn (charged.net + charged.fee) = .ok charged.fee
  rw [hsum, FeePolicy.feeOn_of_charge hcharged]

/-- An exact buy that costs nothing would be charged nothing, but such a plan pays nothing. -/
theorem chargedBy_buyExact (h : (x.planBuyExact c supply given wanted).Returns p)
    (hpay : 0 < p.pay.amount) : ∃ fee, p.ChargedBy (x.effectivePolicy c.smart) fee := by
  obtain ⟨charged, curve, chosen, overrideApplied, hevaluate, hcharged, rfl⟩ :=
    returns_planBuyExact h
  obtain ⟨hfee, -, hgross⟩ := FeePolicy.charge_required hcharged
  have hfeeOn := FeePolicy.feeOn_of_charge hcharged
  refine ⟨charged.fee, hfeeOn, ?_, le_rfl, hfee, id⟩
  show 0 < chosen.amount
  rcases (returns_evaluate hevaluate).outcome.amount_nonneg.lt_or_eq with hpos | hzero
  · exact hpos
  · have hnone : charged.fee = 0 := by
      rw [FeePolicy.feeOn, if_pos (.inr hzero.ge), Abort.pure_eq_ok] at hfeeOn
      exact hfeeOn.symm
    have hpay : 0 < charged.gross := hpay
    rw [hgross, hnone, ← hzero] at hpay
    exact absurd hpay (by decide)

theorem chargedBy_sellExact (h : (x.planSellExact c supply given wanted).Returns p)
    (hwanted : 0 < wanted.amount) : ∃ fee, p.ChargedBy (x.effectivePolicy c.smart) fee := by
  obtain ⟨charged, curve, chosen, overrideApplied, hcharged, hevaluate, -, rfl⟩ :=
    returns_planSellExact h
  exact ⟨charged.fee, FeePolicy.feeOn_of_charge hcharged, hwanted, le_rfl,
    (FeePolicy.charge_required hcharged).1, id⟩

/-- A plan that pays something is charged by the policy of its token. -/
theorem chargedBy_planBy (hfits : mode.Fits given wanted)
    (h : (x.planBy c supply given wanted direction mode).Returns p) (hpay : 0 < p.pay.amount) :
    ∃ fee, p.ChargedBy (x.effectivePolicy c.smart) fee := by
  cases direction <;> cases mode
  · exact chargedBy_buy h
  · exact chargedBy_buyExact h hpay
  · exact chargedBy_sell h
  · exact chargedBy_sellExact h hfits.2

/-- The fee is in the token that a buyer pays or a seller is paid in. -/
theorem fee_token_of_planBy (h : (x.planBy c supply given wanted direction mode).Returns p) :
    p.fee.token = match direction with
      | .buy => given.token
      | .sell => wanted.token := by
  cases direction <;> cases mode
  · obtain ⟨_, _, _, _, _, _, _, _, _, _, _, _, rfl⟩ := returns_planBuy h
    rfl
  · obtain ⟨_, _, _, _, _, _, rfl⟩ := returns_planBuyExact h
    rfl
  · obtain ⟨_, _, _, _, _, _, _, _, _, rfl⟩ := returns_planSell h
    rfl
  · obtain ⟨_, _, _, _, _, _, _, rfl⟩ := returns_planSellExact h
    rfl

/-- Every conversion that is carried out is charged in the connected token. The fee is no more
than the policy's on the amount charged. It is one unit at least, whatever part of it went back to
the trader, unless the policy is exempt, and then it is nothing. -/
theorem convert_charges {now : Int} {signers : Signers} {sender : Account} {receipt : Receipt}
    (h : x.convert now signers sender given wanted = .ok ⟨.ok receipt, y⟩) :
    (∃ conf ∈ x.configuration.get?, receipt.plan.fee.token = conf.connected) ∧
      ∃ fee, (x.effectivePolicy receipt.plan.smart).feeOn receipt.plan.charged = .ok fee ∧
        receipt.plan.fee.amount ≤ fee ∧
        ((x.effectivePolicy receipt.plan.smart).isExempt = false →
          1 ≤ receipt.plan.fee.amount) ∧
        ((x.effectivePolicy receipt.plan.smart).isExempt = true →
          receipt.plan.fee.amount = 0) := by
  obtain ⟨c, z, hconverts, -⟩ := convert_eq_ok.1 h
  obtain ⟨paid, hpaid⟩ := hconverts.pays
  obtain ⟨hpays, -, -⟩ := Ledger.returns_transfer.1 hpaid
  obtain ⟨direction, mode, reg, hmode, hroute, -, hp⟩ := returns_planBy hconverts.plans
  obtain ⟨conf, hroutes⟩ := returns_route hroute
  obtain ⟨hsmart, -, -⟩ := planBy_eq hp
  obtain ⟨fee, hcharged⟩ :=
    chargedBy_planBy (Mode.returns_ofRequest.1 hmode) hp hpays.amount_pos
  rw [← hsmart] at hcharged
  refine ⟨⟨conf, hroutes.configuration, ?_⟩, fee, hcharged.feeOn, hcharged.fee_le, ?_, ?_⟩
  · rw [fee_token_of_planBy hp]
    have hdirects := hroutes.directs
    cases direction
    · exact hdirects.1
    · exact hdirects.2.1
  · intro hcharges
    exact hcharged.fee_pos (FeePolicy.one_le_feeOn hcharges hcharged.charged_pos hcharged.feeOn)
  · intro hexempt
    have hnone := FeePolicy.feeOn_of_exempt hexempt hcharged.feeOn
    exact le_antisymm (hcharged.fee_le.trans_eq hnone) hcharged.fee_nonneg

/-- A buyer who is charged five hundred gets a third of that back, with the unit that bought
nothing. -/
theorem reduced_fee_charged :
    ∃ (x y : Exchange Pool) (receipt : Receipt), x.Reachable ∧
      x.convert 0 [Sample.alice] Sample.alice ⟨504, Sample.connected⟩ ⟨0, Sample.smart⟩ =
        .ok ⟨.ok receipt, y⟩ ∧
      (x.effectivePolicy receipt.plan.smart).isExempt = false ∧
      (x.effectivePolicy receipt.plan.smart).feeOn receipt.plan.charged = .ok 500 ∧
      receipt.plan.refund.amount = 167 ∧ receipt.plan.fee.amount = 334 ∧
      1 ≤ receipt.plan.fee.amount := by
  have hyields : Abort.Yields (inMemory.trace (Sample.market ++
      [.setCharge 0 [Sample.contract] 0 (some ⟨500, Sample.connected⟩) (some Sample.smart)]))
      fun r => Abort.Yields (r.2.convert 0 [Sample.alice] Sample.alice ⟨504, Sample.connected⟩
        ⟨0, Sample.smart⟩) fun reply => Abort.Yields reply.answer fun receipt =>
          (r.2.effectivePolicy receipt.plan.smart).isExempt = false ∧
          (r.2.effectivePolicy receipt.plan.smart).feeOn receipt.plan.charged = .ok 500 ∧
          receipt.plan.refund.amount = 167 ∧ receipt.plan.fee.amount = 334 := by
    decide +kernel
  obtain ⟨r, hr, ⟨answer, y⟩, hconvert, receipt, rfl, hcharges, hfee, hrefund, hcharged⟩ := hyields
  obtain ⟨-, fee, -, -, hleast, -⟩ := convert_charges hconvert
  exact ⟨r.2, y, receipt, Sample.reachable_trace (by decide) hr, hconvert, hcharges, hfee, hrefund,
    hcharged, hleast hcharges⟩

end Exchange
end BondingCurve
