import BondingCurve.Proofs.Curve.Monotone
import BondingCurve.Proofs.Exchange.Override

/-!
# Larger requests get no less

Two requests for the same tokens, one of them with the larger amount. The fee and what it leaves grow
with what is charged, and an outcome of the curve grows with its amount, so a trader who pays more
receives no less, and one who wants more pays no less (`larger_quote_le`). Where the exponent of the
curve is a weight below `10 ^ -9` a unit can be missing, and `larger_quote_loses` has a purchase and a
sale that miss it.
-/

namespace BondingCurve
namespace Exchange

open Outcome
open Curve (InConnected leeway leeway_eq_zero)

variable {ρ : Type} [Reserve ρ] {x : Exchange ρ} {c : Connector} {supply amount amount' : Amount}
  {given given' wanted wanted' : Asset} {direction : Direction} {mode : Mode} {p q : Plan}

/-- The connector of a token in the ranges of its numbers, at a supply in its range. -/
structure PoolInRange (x : Exchange ρ) (c : Connector) (supply : Amount) : Prop where
  weight : c.weight.value.Valid
  weight_valid : Weight.IsValid c.weight.value
  balance_le : c.balance.amount ≤ Amount.greatest
  supply_le : supply ≤ Amount.greatest
  policy : (x.effectivePolicy c.smart).Bounded

section Planners

variable (hpool : x.PoolInRange c supply) (hbare : Reserve.hasReserve x.reserve c.smart = false)
include hpool hbare

/-- Outcomes without a reserve are those of the curve, and grow as they do. -/
theorem evaluate_mono {curve curve' chosen chosen' : Conversion} {replaced replaced' : Bool}
    (hle : amount ≤ amount') (hin : amount' ≤ Amount.greatest)
    (h : (x.evaluate c direction mode supply amount).Returns (curve, chosen, replaced))
    (h' : (x.evaluate c direction mode supply amount').Returns (curve', chosen', replaced')) :
    chosen.amount ≤ chosen'.amount + leeway direction mode c.weight.value := by
  have heval := returns_evaluate h
  have heval' := returns_evaluate h'
  rw [(heval.eq_curve hbare).2, (heval'.eq_curve hbare).2]
  exact Connector.convert_mono hpool.weight hpool.weight_valid hpool.balance_le hpool.supply_le hle
    hin heval.converts heval'.converts

/-- Of the larger input more is left after the fee. -/
theorem planBuy_mono (hle : given.amount ≤ given'.amount) (hin : given'.amount ≤ Amount.greatest)
    (hp : (x.planBuy c supply given).Returns p) (hq : (x.planBuy c supply given').Returns q) :
    p.receive.amount ≤ q.receive.amount + leeway .buy .market c.weight.value := by
  obtain ⟨charged, _, chosen, _, _, _, hcharged, hnet, heval, -, -, -, rfl⟩ := returns_planBuy hp
  obtain ⟨charged', _, chosen', _, _, _, hcharged', -, heval', -, -, -, rfl⟩ := returns_planBuy hq
  have hnets := FeePolicy.net_mono hpool.policy hle hin hcharged hcharged' hnet
  obtain ⟨hfee, hrest⟩ := FeePolicy.charge_nonRequired hcharged'
  exact evaluate_mono hpool hbare hnets (by linarith) heval heval'

/-- The larger input has the larger output, and more is left of it after the fee. -/
theorem planSell_mono (hle : given.amount ≤ given'.amount) (hin : given'.amount ≤ Amount.greatest)
    (hp : (x.planSell c supply given wanted).Returns p)
    (hq : (x.planSell c supply given' wanted').Returns q) :
    p.receive.amount ≤ q.receive.amount := by
  obtain ⟨charged, _, chosen, _, _, heval, hcharged, hnet, -, rfl⟩ := returns_planSell hp
  obtain ⟨charged', _, chosen', _, _, heval', hcharged', -, -, rfl⟩ := returns_planSell hq
  have hchosen := evaluate_mono hpool hbare hle hin heval heval'
  rw [leeway_eq_zero id, add_zero] at hchosen
  exact FeePolicy.net_mono hpool.policy hchosen (returns_evaluate heval').outcome.amount_inRange.2
    hcharged hcharged' hnet

/-- The larger output needs the larger input, and the fee on it is no less. -/
theorem planBuyExact_mono (hle : wanted.amount ≤ wanted'.amount)
    (hin : wanted'.amount ≤ Amount.greatest)
    (hp : (x.planBuyExact c supply given wanted).Returns p)
    (hq : (x.planBuyExact c supply given' wanted').Returns q) :
    p.pay.amount ≤ q.pay.amount := by
  obtain ⟨charged, _, chosen, _, heval, hcharged, rfl⟩ := returns_planBuyExact hp
  obtain ⟨charged', _, chosen', _, heval', hcharged', rfl⟩ := returns_planBuyExact hq
  have hchosen := evaluate_mono hpool hbare hle hin heval heval'
  rw [leeway_eq_zero id, add_zero] at hchosen
  exact (FeePolicy.gross_mono hpool.policy (returns_evaluate heval).outcome.amount_nonneg hchosen
    (returns_evaluate heval').outcome.amount_inRange.2 hcharged hcharged').2

/-- The larger output has the larger fee on top of it, and both together need the larger input. -/
theorem planSellExact_mono (hnonneg : 0 ≤ wanted.amount) (hle : wanted.amount ≤ wanted'.amount)
    (hin : wanted'.amount ≤ Amount.greatest)
    (hp : (x.planSellExact c supply given wanted).Returns p)
    (hq : (x.planSellExact c supply given' wanted').Returns q) :
    p.pay.amount ≤ q.pay.amount + leeway .sell .exact c.weight.value := by
  obtain ⟨charged, _, chosen, _, hcharged, heval, -, rfl⟩ := returns_planSellExact hp
  obtain ⟨charged', _, chosen', _, hcharged', heval', -, rfl⟩ := returns_planSellExact hq
  obtain ⟨-, hgross⟩ := FeePolicy.gross_mono hpool.policy hnonneg hle hin hcharged hcharged'
  obtain ⟨hfee, -, hsum⟩ := FeePolicy.charge_required hcharged'
  have hgross19 : charged'.gross ≤ Amount.greatest := by
    rw [hsum, Amount.addSaturating_of_nonneg (hnonneg.trans hle) hfee]
    exact min_le_left _ _
  exact evaluate_mono hpool hbare hgross hgross19 heval heval'

end Planners

/-! ## Requests -/

omit [Reserve ρ] in
/-- The route of a request is that of its tokens. -/
theorem route_congr (hgiven : given'.token = given.token) (hwanted : wanted'.token = wanted.token) :
    x.route given' wanted' = x.route given wanted := by
  unfold route
  rw [hgiven, hwanted]

theorem direction_of_planBy (hp : (x.planBy c supply given wanted direction mode).Returns p) :
    p.direction = direction := by
  cases direction <;> cases mode
  · obtain ⟨_, _, _, _, _, _, _, _, _, _, _, _, rfl⟩ := returns_planBuy hp
    rfl
  · obtain ⟨_, _, _, _, _, _, rfl⟩ := returns_planBuyExact hp
    rfl
  · obtain ⟨_, _, _, _, _, _, _, _, _, rfl⟩ := returns_planSell hp
    rfl
  · obtain ⟨_, _, _, _, _, _, _, rfl⟩ := returns_planSellExact hp
    rfl

/-- One planner on two amounts, the other amounts of the requests being nothing. -/
theorem planBy_mono (hpool : x.PoolInRange c supply)
    (hbare : Reserve.hasReserve x.reserve c.smart = false) (hfits : mode.Fits given wanted)
    (hle : given.amount ≤ given'.amount) (hin : given'.amount ≤ Amount.greatest)
    (hle' : wanted.amount ≤ wanted'.amount) (hin' : wanted'.amount ≤ Amount.greatest)
    (hp : (x.planBy c supply given wanted direction mode).Returns p)
    (hq : (x.planBy c supply given' wanted' direction mode).Returns q) :
    (mode = .market → p.receive.amount ≤ q.receive.amount + leeway direction mode c.weight.value) ∧
      (mode = .exact → p.pay.amount ≤ q.pay.amount + leeway direction mode c.weight.value) := by
  cases direction <;> cases mode
  · exact ⟨fun _ => planBuy_mono hpool hbare hle hin hp hq, nofun⟩
  · refine ⟨nofun, fun _ => ?_⟩
    rw [leeway_eq_zero (show ¬InConnected .buy .exact from id), add_zero]
    exact planBuyExact_mono hpool hbare hle' hin' hp hq
  · refine ⟨fun _ => ?_, nofun⟩
    rw [leeway_eq_zero (show ¬InConnected .sell .market from id), add_zero]
    exact planSell_mono hpool hbare hle hin hp hq
  · exact ⟨nofun, fun _ => planSellExact_mono hpool hbare hfits.2.le hle' hin' hp hq⟩

/-- Two requests for the same tokens, the second with the larger amount. Both have the direction and
the mode of the first. Where the input is given, the larger request receives no less. Where the output
is given, it pays no less. A unit can be missing in a market purchase and in an exact sale, if the
weight is below `10 ^ -9`. -/
theorem larger_quote_le {reg : Registration} (hp : (x.quote given wanted).Returns p)
    (hq : (x.quote given' wanted').Returns q)
    (hgiven : given'.token = given.token) (hwanted : wanted'.token = wanted.token)
    (hle : given.amount ≤ given'.amount) (hin : given'.amount ≤ Amount.greatest)
    (hle' : wanted.amount ≤ wanted'.amount) (hin' : wanted'.amount ≤ Amount.greatest)
    (hc : x.connector? p.smart = some c) (hreg : x.ledger.registration? p.smart = some reg)
    (hpool : x.PoolInRange c reg.supply)
    (hbare : Reserve.hasReserve x.reserve p.smart = false) :
    q.smart = p.smart ∧ q.direction = p.direction ∧ q.mode = p.mode ∧
      (p.mode = .market →
        p.receive.amount ≤ q.receive.amount + leeway p.direction p.mode c.weight.value) ∧
      (p.mode = .exact →
        p.pay.amount ≤ q.pay.amount + leeway p.direction p.mode c.weight.value) := by
  obtain ⟨_, hplan⟩ := returns_quote.1 hp
  obtain ⟨_, hplan'⟩ := returns_quote.1 hq
  obtain ⟨direction, mode, reg₁, hmode, hroute, hreg₁, hp⟩ := returns_planBy hplan
  obtain ⟨direction', mode', reg₂, hmode', hroute', hreg₂, hq⟩ := returns_planBy hplan'
  -- the tokens decide the route, and the amount that is not nothing the mode
  rw [route_congr hgiven hwanted] at hroute'
  obtain ⟨rfl, rfl⟩ := Prod.mk.inj (hroute.unique hroute')
  have hfits := Mode.returns_ofRequest.1 hmode
  have hfits' := Mode.returns_ofRequest.1 hmode'
  obtain rfl : mode' = mode := by
    cases mode <;> cases mode'
    · rfl
    · exact absurd hfits'.1 (hfits.1.trans_le hle).ne'
    · exact absurd hfits'.2 (hfits.2.trans_le hle').ne'
    · rfl
  obtain rfl := Option.some.inj (hreg₁.symm.trans hreg₂)
  obtain ⟨hsmart, hmodep, -⟩ := planBy_eq hp
  obtain ⟨hsmart', hmodeq, -⟩ := planBy_eq hq
  have hdirection := direction_of_planBy hp
  have hdirection' := direction_of_planBy hq
  obtain ⟨_, hroutes⟩ := returns_route hroute
  rw [hsmart] at hc hreg hbare
  obtain rfl := Option.some.inj (hc.symm.trans hroutes.connector)
  obtain rfl := Option.some.inj (hreg.symm.trans hreg₁)
  refine ⟨hsmart'.trans hsmart.symm, hdirection'.trans hdirection.symm, hmodeq.trans hmodep.symm, ?_⟩
  rw [hmodep, hdirection]
  exact planBy_mono hpool hbare hfits hle hin hle' hin' hp hq

/-- Alice may pay one or two thousand units to the market, whose weight leaves no leeway. -/
theorem market_larger_quote_le :
    ∃ (x : Exchange Pool) (p q : Plan), x.Reachable ∧
      (x.quote ⟨1000, Sample.connected⟩ ⟨0, Sample.smart⟩).Returns p ∧
      (x.quote ⟨2000, Sample.connected⟩ ⟨0, Sample.smart⟩).Returns q ∧
      p.direction = .buy ∧ p.receive.amount ≤ q.receive.amount := by
  have hyields : Abort.Yields (inMemory.trace Sample.market) fun r =>
      Abort.Yields (r.2.quote ⟨1000, Sample.connected⟩ ⟨0, Sample.smart⟩).run (fun answer =>
        Abort.Yields answer fun p => p.direction = .buy ∧ p.mode = .market ∧
          r.2.connector? p.smart =
            some ⟨Sample.smart, ⟨20000, Sample.connected⟩, ⟨⟨5, 1, false⟩⟩⟩ ∧
          r.2.ledger.registration? p.smart = some ⟨Sample.smart, 30000, 1000000⟩ ∧
          Reserve.hasReserve r.2.reserve p.smart = false) ∧
      Abort.Yields (r.2.quote ⟨2000, Sample.connected⟩ ⟨0, Sample.smart⟩).run (fun answer =>
        Abort.Yields answer fun q => q.mode = .market) ∧
      (r.2.effectivePolicy Sample.smart).rate.value ≤ PerMille.greatest := by
    decide +kernel
  obtain ⟨r, hr, ⟨_, hp, p, rfl, hdirection, hmode, hc, hreg, hbare⟩, ⟨_, hq, q, rfl, -⟩, hrate⟩ :=
    hyields
  have hpool : r.2.PoolInRange ⟨Sample.smart, ⟨20000, Sample.connected⟩, ⟨⟨5, 1, false⟩⟩⟩ 30000 :=
    ⟨⟨by decide, by decide, by decide⟩, by decide, by decide, by decide, hrate⟩
  have hle := (larger_quote_le hp hq rfl rfl (by decide) (by decide) le_rfl (by decide) hc hreg hpool
    hbare).2.2.2.1 hmode
  rw [hdirection, hmode, show leeway .buy .market ⟨5, 1, false⟩ = 0 by decide +kernel, add_zero] at hle
  exact ⟨r.2, p, q, Sample.reachable_trace (by decide) hr, hp, hq, hdirection, hle⟩

end Exchange

namespace Sample

/-- A market with `balance` units behind `supply` tokens, at a weight of four in ten billion. -/
def lightMarket (balance supply : Amount) : List (Exchange.Action Pool) :=
  [.ledger (.createToken connected Amount.greatest), .ledger (.createToken smart Amount.greatest),
    .ledger (.issue owner ⟨balance, connected⟩ ""), .ledger (.issue alice ⟨supply, smart⟩ ""),
    .init 0 [contract] owner connected,
    .connect 0 [contract] smart ⟨balance, connected⟩ ⟨4, 10, false⟩]

end Sample

namespace Exchange

/-- At a weight of four in ten billion, a purchase that pays a unit more receives a unit less, and a
sale that wants a unit more pays a unit less. -/
theorem larger_quote_loses :
    (∃ (x : Exchange Pool) (p q : Plan), x.Reachable ∧
      Reserve.hasReserve x.reserve Sample.smart = false ∧
      (x.quote ⟨14594141584, Sample.connected⟩ ⟨0, Sample.smart⟩).Returns p ∧
      (x.quote ⟨14594141585, Sample.connected⟩ ⟨0, Sample.smart⟩).Returns q ∧
      q.receive.amount < p.receive.amount) ∧
    ∃ (x : Exchange Pool) (p q : Plan), x.Reachable ∧
      Reserve.hasReserve x.reserve Sample.smart = false ∧
      (x.quote ⟨0, Sample.smart⟩ ⟨14584878884, Sample.connected⟩).Returns p ∧
      (x.quote ⟨0, Sample.smart⟩ ⟨14584878885, Sample.connected⟩).Returns q ∧
      q.pay.amount < p.pay.amount := by
  have hpurchase : Abort.Yields
      (inMemory.trace (Sample.lightMarket 9223372035931141306 3159957024584465651)) fun r =>
      Abort.Yields (r.2.quote ⟨14594141584, Sample.connected⟩ ⟨0, Sample.smart⟩).run fun answer =>
      Abort.Yields answer fun p =>
      Abort.Yields (r.2.quote ⟨14594141585, Sample.connected⟩ ⟨0, Sample.smart⟩).run fun answer =>
      Abort.Yields answer fun q =>
        Reserve.hasReserve r.2.reserve Sample.smart = false ∧
        q.receive.amount < p.receive.amount := by
    decide +kernel
  have hsale : Abort.Yields
      (inMemory.trace (Sample.lightMarket 9223347179871962616 3161955353190412951)) fun r =>
      Abort.Yields (r.2.quote ⟨0, Sample.smart⟩ ⟨14584878884, Sample.connected⟩).run fun answer =>
      Abort.Yields answer fun p =>
      Abort.Yields (r.2.quote ⟨0, Sample.smart⟩ ⟨14584878885, Sample.connected⟩).run fun answer =>
      Abort.Yields answer fun q =>
        Reserve.hasReserve r.2.reserve Sample.smart = false ∧
        q.pay.amount < p.pay.amount := by
    decide +kernel
  obtain ⟨r, hr, _, hp, p, rfl, _, hq, q, rfl, hbare, hless⟩ := hpurchase
  obtain ⟨r', hr', _, hp', p', rfl, _, hq', q', rfl, hbare', hless'⟩ := hsale
  exact ⟨⟨r.2, p, q, Sample.reachable_trace (by decide) hr, hbare, hp, hq, hless⟩,
    ⟨r'.2, p', q', Sample.reachable_trace (by decide) hr', hbare', hp', hq', hless'⟩⟩

end Exchange
end BondingCurve
