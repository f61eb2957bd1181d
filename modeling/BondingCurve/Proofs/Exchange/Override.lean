import BondingCurve.Proofs.Exchange.Run
import BondingCurve.Proofs.Rate

/-!
# Overrides against the curve

An exchange and the same exchange with a bare reserve plan one request by one connector, one curve
and one fee policy. Where the first plan overrides the curve, the trader is asked for no more and
receives no less, as far as the outcomes go (`Plan.NoWorse`). The refund of a market plan is
reckoned only afterwards, for each plan from its own rounding, and what the trader finally pays
can be worse: `override_price_le` says when it is not, `override_refunds_less` is a case where it
is.
-/

namespace BondingCurve

open Outcome

/-- Before refunds, `p` asks the trader for no more than `q` does and delivers no less. -/
structure Plan.NoWorse (p q : Plan) : Prop where
  asks : p.pay.amount + p.refund.amount ≤ q.pay.amount + q.refund.amount
  delivers : q.receive.amount ≤ p.receive.amount
  delivers_nonneg : 0 ≤ q.receive.amount
  pays_nonneg : 0 ≤ q.pay.amount
  refunds_nonneg : 0 ≤ q.refund.amount

theorem Plan.NoWorse.price_le {p q : Plan} (h : p.NoWorse q)
    (hrefund : q.refund.amount ≤ p.refund.amount) :
    p.pay.amount * q.receive.amount ≤ q.pay.amount * p.receive.amount := by
  have hpay : p.pay.amount ≤ q.pay.amount := by have := h.asks; linarith
  exact mul_le_mul hpay h.delivers h.delivers_nonneg h.pays_nonneg

namespace Exchange

variable {ρ : Type} [Reserve ρ] {x : Exchange ρ} {bare : ρ} {c : Connector} {supply amount : Amount}
  {given wanted : Asset} {direction : Direction} {mode : Mode} {p q : Plan}

/-- The outcomes of one request with and without a reserve: one curve, and the first outcome is
no worse. -/
theorem evaluate_improves {curve chosen curve' chosen' : Conversion} {overrideApplied : Bool}
    (hrate : ∀ rate ∈ Reserve.rate? x.reserve c.smart, rate.Valid)
    (hbare : Reserve.hasReserve bare c.smart = false)
    (h : (x.evaluate c direction mode supply amount).Returns (curve, chosen, true))
    (h' : (({ x with reserve := bare } : Exchange ρ).evaluate c direction mode supply
      amount).Returns (curve', chosen', overrideApplied)) :
    overrideApplied = false ∧ mode.Improves chosen'.amount chosen.amount ∧
      chosen.IsOutcome mode ∧ chosen'.IsOutcome mode := by
  have heval := returns_evaluate h
  have heval' := returns_evaluate h'
  obtain ⟨hno, rfl⟩ := heval'.eq_curve hbare
  obtain rfl := heval.converts.unique heval'.converts
  obtain ⟨rate, raw, hquoted, hraw, hselect⟩ := returns_evaluate_override h
  have himproves := (Rate.selectOverride_improves (Rate.rawRate_valid (hrate rate hquoted) hraw)
    heval'.outcome.amount_nonneg heval'.outcome.amount_inRange hselect).1
  exact ⟨hno, himproves, heval.outcome, heval'.outcome⟩

/-! ## The four planners -/

section Planners

variable (hrate : ∀ rate ∈ Reserve.rate? x.reserve c.smart, rate.Valid)
  (hfees : (x.effectivePolicy c.smart).Bounded)
  (hbare : Reserve.hasReserve bare c.smart = false)
include hrate hbare

/-- The net input is the same, and what it buys is more. -/
theorem planBuy_noWorse (hp : (x.planBuy c supply given).Returns p)
    (hover : p.overrideApplied = true)
    (hq : (({ x with reserve := bare } : Exchange ρ).planBuy c supply given).Returns q) :
    q.overrideApplied = false ∧ p.NoWorse q := by
  obtain ⟨charged, curve, chosen, _, unused, excess, hcharged, hnet, heval, hchosen, hunused, _,
    rfl⟩ := returns_planBuy hp
  obtain ⟨charged', curve', chosen', _, unused', excess', hcharged', hnet', heval', hchosen',
    hunused', hshare', rfl⟩ := returns_planBuy hq
  obtain rfl := Except.ok.inj (hcharged.symm.trans hcharged')
  obtain rfl := hover
  obtain ⟨rfl, himproves, hout, hout'⟩ := evaluate_improves hrate hbare heval heval'
  obtain ⟨hfee, hrest⟩ := FeePolicy.charge_nonRequired hcharged
  have hused := Conversion.unusedShare_le hout' hnet.le hunused'
  have hexcess : 0 ≤ excess' ∧ excess' ≤ charged.fee := by
    rcases hshare' with ⟨_, hexcess⟩ | ⟨_, rfl⟩
    · exact ⟨Conversion.unusedShare_nonneg hexcess,
        Conversion.unusedShare_le hout' hfee hexcess⟩
    · exact ⟨le_rfl, hfee⟩
  refine ⟨rfl, ?_, himproves, hchosen'.le, ?_,
    Int.add_nonneg (Conversion.unusedShare_nonneg hunused') hexcess.1⟩
  · -- both give back what they do not take
    show given.amount - (unused + excess) + (unused + excess) ≤
      given.amount - (unused' + excess') + (unused' + excess')
    rw [Int.sub_add_cancel, Int.sub_add_cancel]
  · show 0 ≤ given.amount - (unused' + excess')
    linarith

include hfees

/-- The input is the same, and more is left of the output after the fee. -/
theorem planSell_noWorse (hp : (x.planSell c supply given wanted).Returns p)
    (hgiven : 0 ≤ given.amount) (hover : p.overrideApplied = true)
    (hq : (({ x with reserve := bare } : Exchange ρ).planSell c supply given wanted).Returns q) :
    q.overrideApplied = false ∧ p.NoWorse q := by
  obtain ⟨charged, curve, chosen, _, unused, heval, hcharged, hnet, hunused, rfl⟩ :=
    returns_planSell hp
  obtain ⟨charged', curve', chosen', _, unused', heval', hcharged', hnet', hunused', rfl⟩ :=
    returns_planSell hq
  obtain rfl := hover
  obtain ⟨rfl, himproves, hout, hout'⟩ := evaluate_improves hrate hbare heval heval'
  have hused := Conversion.unusedShare_le hout' hgiven hunused'
  refine ⟨rfl, ?_, ?_, hnet'.le, Int.sub_nonneg.2 hused, Conversion.unusedShare_nonneg hunused'⟩
  · show given.amount - unused + unused ≤ given.amount - unused' + unused'
    rw [Int.sub_add_cancel, Int.sub_add_cancel]
  · exact FeePolicy.net_mono hfees himproves hout.amount_inRange.2 hcharged' hcharged hnet'

/-- The output is the same, and less is asked for it, with the fee on top. -/
theorem planBuyExact_noWorse (hp : (x.planBuyExact c supply given wanted).Returns p)
    (hwanted : 0 ≤ wanted.amount) (hover : p.overrideApplied = true)
    (hq : (({ x with reserve := bare } : Exchange ρ).planBuyExact c supply given
      wanted).Returns q) :
    q.overrideApplied = false ∧ p.NoWorse q := by
  obtain ⟨charged, curve, chosen, _, heval, hcharged, rfl⟩ := returns_planBuyExact hp
  obtain ⟨charged', curve', chosen', _, heval', hcharged', rfl⟩ := returns_planBuyExact hq
  obtain rfl := hover
  obtain ⟨rfl, himproves, hout, hout'⟩ := evaluate_improves hrate hbare heval heval'
  obtain ⟨hnonneg, hgross⟩ := FeePolicy.gross_mono hfees hout.amount_nonneg himproves
    hout'.amount_inRange.2 hcharged hcharged'
  exact ⟨rfl, Int.add_le_add_right hgross _, le_rfl, hwanted, hnonneg.trans hgross, le_rfl⟩

omit hfees in
/-- The output with its fee is the same, and less is asked for it. -/
theorem planSellExact_noWorse (hp : (x.planSellExact c supply given wanted).Returns p)
    (hwanted : 0 ≤ wanted.amount) (hover : p.overrideApplied = true)
    (hq : (({ x with reserve := bare } : Exchange ρ).planSellExact c supply given
      wanted).Returns q) :
    q.overrideApplied = false ∧ p.NoWorse q := by
  obtain ⟨charged, curve, chosen, _, hcharged, heval, _, rfl⟩ := returns_planSellExact hp
  obtain ⟨charged', curve', chosen', _, hcharged', heval', _, rfl⟩ := returns_planSellExact hq
  obtain rfl := Except.ok.inj (hcharged.symm.trans hcharged')
  obtain rfl := hover
  obtain ⟨rfl, himproves, hout, hout'⟩ := evaluate_improves hrate hbare heval heval'
  exact ⟨rfl, Int.add_le_add_right himproves _, le_rfl, hwanted,
    hout.amount_nonneg.trans himproves, le_rfl⟩

/-- Whatever the direction and the mode, a plan that overrides the curve is no worse. -/
theorem planBy_noWorse (hfits : mode.Fits given wanted)
    (hp : (x.planBy c supply given wanted direction mode).Returns p)
    (hover : p.overrideApplied = true)
    (hq : (({ x with reserve := bare } : Exchange ρ).planBy c supply given wanted direction
      mode).Returns q) :
    q.overrideApplied = false ∧ p.NoWorse q := by
  cases direction <;> cases mode
  · exact planBuy_noWorse hrate hbare hp hover hq
  · exact planBuyExact_noWorse hrate hfees hbare hp hfits.2.le hover hq
  · exact planSell_noWorse hrate hfees hbare hp hfits.1.le hover hq
  · exact planSellExact_noWorse hrate hbare hp hfits.2.le hover hq

end Planners

/-! ## Prices -/

/-- What a planner writes into every plan. -/
theorem planBy_eq (hp : (x.planBy c supply given wanted direction mode).Returns p) :
    p.smart = c.smart ∧ p.mode = mode ∧ (mode = .exact → p.refund.amount = 0) := by
  cases direction <;> cases mode
  · obtain ⟨_, _, _, _, _, _, _, _, _, _, _, _, rfl⟩ := returns_planBuy hp
    exact ⟨rfl, rfl, nofun⟩
  · obtain ⟨_, _, _, _, _, _, rfl⟩ := returns_planBuyExact hp
    exact ⟨rfl, rfl, fun _ => rfl⟩
  · obtain ⟨_, _, _, _, _, _, _, _, _, rfl⟩ := returns_planSell hp
    exact ⟨rfl, rfl, nofun⟩
  · obtain ⟨_, _, _, _, _, _, _, rfl⟩ := returns_planSellExact hp
    exact ⟨rfl, rfl, fun _ => rfl⟩

/-- A plan that overrides the curve and the curve's own plan for the same request. The override
asks for no more and delivers no less, so its price is as good before refunds. It is as good after
them where the output is given, since nothing is refunded then, and where the curve's plan refunds
no more. -/
theorem override_price_le (hrate : ∀ rate ∈ Reserve.rate? x.reserve p.smart, rate.Valid)
    (hfees : (x.effectivePolicy p.smart).Bounded)
    (hbare : Reserve.hasReserve bare p.smart = false)
    (hp : (x.quote given wanted).Returns p) (hover : p.overrideApplied = true)
    (hq : (({ x with reserve := bare } : Exchange ρ).quote given wanted).Returns q) :
    q.overrideApplied = false ∧
      (p.pay.amount + p.refund.amount) * q.receive.amount ≤
        (q.pay.amount + q.refund.amount) * p.receive.amount ∧
      (p.mode = .exact ∨ q.refund.amount ≤ p.refund.amount →
        p.pay.amount * q.receive.amount ≤ q.pay.amount * p.receive.amount) := by
  obtain ⟨c, hplan⟩ := returns_quote.1 hp
  obtain ⟨c', hplan'⟩ := returns_quote.1 hq
  obtain ⟨direction, mode, reg, hmode, hroute, hreg, hp⟩ := returns_planBy hplan
  obtain ⟨direction', mode', reg', hmode', hroute', hreg', hq⟩ := returns_planBy hplan'
  -- the reserve has no part in any of this
  obtain rfl := hmode.unique hmode'
  obtain ⟨rfl, rfl⟩ := Prod.mk.inj (hroute.unique hroute')
  obtain rfl := Option.some.inj (hreg.symm.trans hreg')
  obtain ⟨hsmart, hmode', hp_refund⟩ := planBy_eq hp
  have hq_refund := (planBy_eq hq).2.2
  rw [hsmart] at hrate hfees hbare
  obtain ⟨hno, hworse⟩ :=
    planBy_noWorse hrate hfees hbare (Mode.returns_ofRequest.1 hmode) hp hover hq
  refine ⟨hno, ?_, ?_⟩
  · exact mul_le_mul hworse.asks hworse.delivers hworse.delivers_nonneg
      (Int.add_nonneg hworse.pays_nonneg hworse.refunds_nonneg)
  · rintro (hexact | hrefund)
    · rw [hmode'] at hexact
      exact hworse.price_le ((hq_refund hexact).trans (hp_refund hexact).symm).le
    · exact hworse.price_le hrefund

/-- Alice sells a hundred tokens to a reserve that redeems at two for one, and gets two hundred
units for them. The curve alone would pay ten. -/
theorem sale_override_price_le :
    ∃ (x : Exchange Pool) (bare : Pool) (p q : Plan), x.Reachable ∧
      (x.quote ⟨100, Sample.smart⟩ ⟨0, Sample.connected⟩).Returns p ∧
      p.overrideApplied = true ∧ p.receive.amount = 200 ∧
      (({ x with reserve := bare } : Exchange Pool).quote ⟨100, Sample.smart⟩
        ⟨0, Sample.connected⟩).Returns q ∧ q.receive.amount = 10 ∧
      p.pay.amount * q.receive.amount ≤ q.pay.amount * p.receive.amount := by
  have hyields : Abort.Yields (inMemory.trace (Sample.pledged 10000 (.ofInt 2))) fun r =>
      Abort.Yields (r.2.quote ⟨100, Sample.smart⟩ ⟨0, Sample.connected⟩).run fun answer =>
      Abort.Yields answer fun p =>
      Abort.Yields (({ r.2 with reserve := .empty Pool.defaultAccount } : Exchange Pool).quote
        ⟨100, Sample.smart⟩ ⟨0, Sample.connected⟩).run fun answer =>
      Abort.Yields answer fun q =>
        p.overrideApplied = true ∧ p.receive.amount = 200 ∧ q.receive.amount = 10 ∧
        Reserve.rate? r.2.reserve p.smart = some (.ofInt 2) ∧
        (r.2.effectivePolicy p.smart).rate.value = 0 ∧ q.refund.amount ≤ p.refund.amount := by
    decide +kernel
  obtain ⟨r, hr, _, hp, p, rfl, _, hq, q, rfl, hover, hreceive, hcurve, hrate, hfees, hrefund⟩ :=
    hyields
  have hvalid : ∀ rate ∈ Reserve.rate? r.2.reserve p.smart, rate.Valid := by
    rw [hrate]
    intro rate hmem
    cases hmem
    exact Decimal.valid_ofInt (by decide)
  have hbounded : (r.2.effectivePolicy p.smart).Bounded := by
    rw [FeePolicy.Bounded, hfees]
    exact Nat.zero_le _
  have hle := override_price_le hvalid hbounded rfl hp hover hq
  exact ⟨r.2, .empty Pool.defaultAccount, p, q, Sample.reachable_trace (by decide) hr, hp, hover,
    hreceive, hq, hcurve, hle.2.2 (.inr hrefund)⟩

/-- A reserve redeems at ninety for one, and a hundred units buy 1.9 tokens of the curve and 1.1 at
that rate. Both plans deliver one token. For it the curve takes fifty-three of the units and the
override ninety. -/
theorem override_refunds_less :
    ∃ (x : Exchange Pool) (p q : Plan), x.Reachable ∧
      (x.quote ⟨100, Sample.connected⟩ ⟨0, Sample.smart⟩).Returns p ∧
      p.overrideApplied = true ∧
      (({ x with reserve := { x.reserve with records := x.reserve.records.erase p.smart } } :
        Exchange Pool).quote ⟨100, Sample.connected⟩ ⟨0, Sample.smart⟩).Returns q ∧
      q.pay.amount = 53 ∧ p.pay.amount = 90 ∧
      ¬p.pay.amount * q.receive.amount ≤ q.pay.amount * p.receive.amount := by
  have hyields : Abort.Yields (inMemory.trace (Sample.pledged 19 (.ofInt 90))) fun r =>
      Abort.Yields (r.2.quote ⟨100, Sample.connected⟩ ⟨0, Sample.smart⟩).run fun answer =>
      Abort.Yields answer fun p =>
      Abort.Yields (({ r.2 with reserve := { r.2.reserve with
        records := r.2.reserve.records.erase p.smart } } : Exchange Pool).quote
        ⟨100, Sample.connected⟩ ⟨0, Sample.smart⟩).run fun answer =>
      Abort.Yields answer fun q =>
        p.overrideApplied = true ∧ q.pay.amount = 53 ∧ p.pay.amount = 90 ∧
        q.receive.amount = 1 ∧ p.receive.amount = 1 := by
    decide +kernel
  obtain ⟨r, hr, _, hp, p, rfl, _, hq, q, rfl, hover, hpay', hpay, hreceive', hreceive⟩ := hyields
  refine ⟨r.2, p, q, Sample.reachable_trace (by decide) hr, hp, hover, hq, hpay', hpay, ?_⟩
  rw [hpay, hpay', hreceive, hreceive']
  decide

end Exchange
end BondingCurve
