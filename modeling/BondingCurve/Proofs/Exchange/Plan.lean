import BondingCurve.Exchange.Plan
import BondingCurve.Proofs.Conversion
import BondingCurve.Proofs.Fee
import BondingCurve.Proofs.Ledger.Operations

/-!
# What a plan promises

The four planners compute their legs differently: a fee out of the input or out of the output, a
fee on top of either, a refund or none. `Planned` is what they have in common, and `planned` says
that every plan has it. A buy pays the connector and the owner; a sale that is not redeemed takes
from the connector what the trader and the owner receive.
-/

namespace BondingCurve

open Outcome

/-- A conversion has one positive side, which is the one its mode names. -/
def Mode.Fits (mode : Mode) (given wanted : Asset) : Prop :=
  match mode with
  | .market => 0 < given.amount ∧ wanted.amount = 0
  | .exact => given.amount = 0 ∧ 0 < wanted.amount

theorem Mode.returns_ofRequest {mode : Mode} {given wanted : Asset} :
    (Mode.ofRequest given wanted).Returns mode ↔ mode.Fits given wanted := by
  unfold Mode.ofRequest
  cases mode with
  | market => simp [Fits]
  | exact =>
    simp only [Fits, returns_ite, returns_pure, reduceCtorEq, and_false, not_returns_throw,
      and_true, or_false, false_or]
    constructor
    · intro h
      exact h.2
    · intro h
      exact ⟨fun hpos => by simp [h.1] at hpos, h⟩

/-- Only the amounts of a request leave it without a mode. -/
theorem Mode.fails_ofRequest {given wanted : Asset} {e : ExchangeError}
    (h : (Mode.ofRequest given wanted).Fails e) :
    e = .invalidRequest (.amounts given.amount wanted.amount) := by
  simp only [ofRequest, fails_ite, not_fails_pure, fails_throw, and_false, false_or] at h
  exact h.2.2.symm

namespace Exchange

variable {ρ : Type} [Reserve ρ] {x : Exchange ρ} {given wanted : Asset} {c : Connector}

omit [Reserve ρ] in
@[simp] theorem returns_requireConfiguration {conf : Configuration} :
    x.requireConfiguration.Returns conf ↔ x.configuration.get? = some conf := by
  unfold requireConfiguration
  rcases x.configuration.get? with _ | old
  · simp
  · simp

omit [Reserve ρ] in
theorem fails_requireConfiguration {e : ExchangeError} :
    x.requireConfiguration.Fails e ↔ x.configuration.get? = none ∧ .notInitialized = e := by
  unfold requireConfiguration
  rcases x.configuration.get? with _ | conf
  · simp
  · simp

/-! ## Routes -/

/-- What the direction of a request says of its tokens. -/
def Configuration.Directs (conf : Configuration) (direction : Direction)
    (given wanted smart : Token) : Prop :=
  match direction with
  | .buy => given = conf.connected ∧ smart = wanted
  | .sell => given ≠ conf.connected ∧ wanted = conf.connected ∧ smart = given

/-- What a route has found. -/
structure Routes (x : Exchange ρ) (given wanted : Asset) (conf : Configuration)
    (direction : Direction) (c : Connector) : Prop where
  configuration : x.configuration.get? = some conf
  directs : Configuration.Directs conf direction given.token wanted.token c.smart
  connector : x.connector? c.smart = some c

omit [Reserve ρ] in
theorem returns_route {direction : Direction} (h : (x.route given wanted).Returns (direction, c)) :
    ∃ conf, x.Routes given wanted conf direction c := by
  simp only [route, returns_bind, returns_requireConfiguration, returns_ite, not_returns_throw,
    false_and, exists_false, and_false, false_or, or_false, returns_pure, exists_eq_left',
    Configuration.isConnected, beq_iff_eq] at h
  obtain ⟨conf, hconf, hne, ⟨hbuy, h⟩ | ⟨hsell, hwanted, h⟩⟩ := h
  · rcases hc : x.connector? wanted.token with _ | found
    · simp [hc] at h
    · simp only [hc, returns_ite, returns_bind, not_returns_throw, false_and, exists_false,
        and_false, false_or, returns_pure, Prod.mk.injEq, ne_eq, Decidable.not_not] at h
      obtain ⟨hsmart, rfl, rfl⟩ := h
      exact ⟨conf, hconf, ⟨hbuy.symm, hsmart⟩, hsmart ▸ hc⟩
  · rcases hc : x.connector? given.token with _ | found
    · simp [hc] at h
    · simp only [hc, returns_ite, returns_bind, not_returns_throw, false_and, exists_false,
        and_false, false_or, returns_pure, Prod.mk.injEq, ne_eq, Decidable.not_not] at h
      obtain ⟨hsmart, rfl, rfl⟩ := h
      exact ⟨conf, hconf, ⟨Ne.symm hsell, hwanted.symm, hsmart⟩, hsmart ▸ hc⟩

/-! ## Outcomes -/

/-- What an evaluation returns: the curve's outcome, and the same again or one that the reserve
administers. -/
structure Evaluates (x : Exchange ρ) (c : Connector) (direction : Direction) (mode : Mode)
    (supply amount : Amount) (curve chosen : Conversion) (overrideApplied : Bool) : Prop where
  converts : (c.convert direction mode supply amount).Returns curve
  outcome : chosen.IsOutcome mode
  unreplaced : overrideApplied = false → chosen = curve
  administered : overrideApplied = true → Reserve.hasReserve x.reserve c.smart = true

theorem Evaluates.evaluation {direction : Direction} {mode : Mode} {supply amount : Amount}
    {curve chosen : Conversion} {overrideApplied : Bool}
    (h : x.Evaluates c direction mode supply amount curve chosen overrideApplied) :
    Curve.Evaluation c.balance.amount supply amount mode curve :=
  Connector.convert_evaluation h.converts

/-- Without a reserve the outcome is the curve's. -/
theorem Evaluates.eq_curve {direction : Direction} {mode : Mode} {supply amount : Amount}
    {curve chosen : Conversion} {overrideApplied : Bool}
    (h : x.Evaluates c direction mode supply amount curve chosen overrideApplied)
    (hbare : Reserve.hasReserve x.reserve c.smart = false) :
    overrideApplied = false ∧ chosen = curve := by
  have hno : overrideApplied = false := by
    by_contra hyes
    rw [h.administered (Bool.eq_true_of_not_eq_false hyes)] at hbare
    cases hbare
  exact ⟨hno, h.unreplaced hno⟩

theorem returns_evaluate {direction : Direction} {mode : Mode} {supply amount : Amount}
    {curve chosen : Conversion} {overrideApplied : Bool}
    (h : (x.evaluate c direction mode supply amount).Returns (curve, chosen, overrideApplied)) :
    x.Evaluates c direction mode supply amount curve chosen overrideApplied := by
  simp only [evaluate, returns_bind, returns_pure, Prod.mk.injEq] at h
  obtain ⟨curve', hcurve, ⟨chosen', override'⟩, hchosen, rfl, rfl, rfl⟩ := h
  have houtcome := (Connector.convert_evaluation hcurve).outcome
  simp only [chooseOutcome, returns_bind] at hchosen
  obtain ⟨rate, hrate, hchosen⟩ := hchosen
  rcases rate with _ | rate
  · rw [returns_pure, Prod.mk.injEq] at hchosen
    obtain ⟨rfl, rfl⟩ := hchosen
    refine ⟨hcurve, houtcome, fun _ => rfl, ?_⟩
    intro hoverride
    cases hoverride
  · rw [returns_bind] at hchosen
    obtain ⟨better, hbetter, hchosen⟩ := hchosen
    rcases better with _ | better
    · rw [returns_pure, Prod.mk.injEq] at hchosen
      obtain ⟨rfl, rfl⟩ := hchosen
      refine ⟨hcurve, houtcome, fun _ => rfl, ?_⟩
      intro hoverride
      cases hoverride
    · rw [returns_pure, Prod.mk.injEq] at hchosen
      obtain ⟨rfl, rfl⟩ := hchosen
      refine ⟨hcurve, ?_, ?_, ?_⟩
      · simp only [Rate.selectOverride, returns_bind, returns_ite, returns_pure, reduceCtorEq,
          and_false, or_false, Option.some.injEq, exists_eq_right] at hbetter
        obtain ⟨_, _, _, hconvert⟩ := hbetter
        exact Rate.convert_isOutcome hconvert
      · intro hunreplaced
        cases hunreplaced
      · intro _
        rw [administeredRate, returns_ite] at hrate
        rcases hrate with ⟨hhas, _⟩ | ⟨_, hnone⟩
        · exact hhas
        · rw [returns_pure] at hnone
          cases hnone

theorem returns_administeredRate {raw : Decimal}
    (h : (x.administeredRate c).Returns (some raw)) :
    ∃ rate, Reserve.rate? x.reserve c.smart = some rate ∧
      (Rate.rawRate rate c.smart.precision c.balance.token.precision).Returns raw := by
  rw [administeredRate, returns_ite] at h
  rcases h with ⟨-, h⟩ | ⟨-, h⟩
  · rcases hrate : Reserve.rate? x.reserve c.smart with _ | rate
    · simp [hrate] at h
    · simp only [hrate, returns_bind, returns_pure, Option.some.injEq, exists_eq_right] at h
      exact ⟨rate, rfl, h⟩
  · simp at h

/-- An outcome that replaces the curve's is the one at the reserve's rate. -/
theorem returns_evaluate_override {direction : Direction} {mode : Mode} {supply amount : Amount}
    {curve chosen : Conversion}
    (h : (x.evaluate c direction mode supply amount).Returns (curve, chosen, true)) :
    ∃ rate raw, Reserve.rate? x.reserve c.smart = some rate ∧
      (Rate.rawRate rate c.smart.precision c.balance.token.precision).Returns raw ∧
      (Rate.selectOverride direction mode amount curve raw).Returns (some chosen) := by
  simp only [evaluate, chooseOutcome, returns_bind, returns_pure, Prod.mk.injEq] at h
  obtain ⟨_, _, ⟨_, _⟩, ⟨raw, hraw, h⟩, rfl, rfl, rfl⟩ := h
  rcases raw with _ | raw
  · simp at h
  · rw [returns_bind] at h
    obtain ⟨better, hbetter, h⟩ := h
    rcases better with _ | better
    · simp at h
    · simp only [returns_pure, Prod.mk.injEq, and_true] at h
      subst h
      obtain ⟨rate, hrate, hraw⟩ := returns_administeredRate hraw
      exact ⟨rate, raw, hrate, hraw, hbetter⟩

/-! ## The four planners -/

/-- What every plan for the connector `c` promises. -/
structure Planned (x : Exchange ρ) (c : Connector) (supply : Amount) (given wanted : Asset)
    (p : Plan) : Prop where
  smart_eq : p.smart = c.smart
  pay_token : p.pay.token = given.token
  receive_token : p.receive.token = wanted.token
  refund_token : p.refund.token = given.token
  fee_token : p.fee.token = match p.direction with
    | .buy => given.token
    | .sell => wanted.token
  receive_pos : 0 < p.receive.amount
  fee_nonneg : 0 ≤ p.fee.amount
  refund_nonneg : 0 ≤ p.refund.amount
  market : p.mode = .market → p.pay.amount + p.refund.amount = given.amount
  exact : p.mode = .exact → p.refund.amount = 0 ∧ p.receive.amount = wanted.amount
  balance_pos : 0 < c.balance.amount
  supply_pos : 0 < supply
  /-- What a buyer pays reaches the connector and the owner, unless it was cut off. -/
  buys : p.direction = .buy → 0 ≤ p.balanceDelta ∧
    (p.pay.amount = p.balanceDelta + p.fee.amount ∨ p.pay.amount = Amount.greatest)
  sells : p.direction = .sell → p.pay.amount ≤ supply ∧ p.balanceDelta ≤ 0 ∧
    -p.balanceDelta ≤ c.balance.amount
  /-- What a seller and the owner receive comes from the connector, unless it is redeemed. -/
  unredeemed : p.direction = .sell → p.overrideApplied = false →
    p.receive.amount + p.fee.amount = -p.balanceDelta
  administered : p.overrideApplied = true → Reserve.hasReserve x.reserve c.smart = true

variable {supply : Amount} {p : Plan}

/-- The plan of a market buy: of the net input `unused` bought nothing, of the fee `excess`. -/
theorem returns_planBuy (h : (x.planBuy c supply given).Returns p) :
    ∃ (charged : Charge) (curve chosen : Conversion) (overrideApplied : Bool)
      (unused excess : Amount),
      (x.effectivePolicy c.smart).charge given.amount .nonRequired = .ok charged ∧
      0 < charged.net ∧
      (x.evaluate c .buy .market supply charged.net).Returns (curve, chosen, overrideApplied) ∧
      0 < chosen.amount ∧ chosen.unusedShare charged.net = .ok unused ∧
      (0 < unused ∧ chosen.unusedShare charged.fee = .ok excess ∨ unused ≤ 0 ∧ excess = 0) ∧
      p = {
        direction := .buy, mode := .market, smart := c.smart
        pay := given.withAmount (given.amount - (unused + excess))
        refund := given.withAmount (unused + excess)
        fee := given.withAmount (charged.fee - excess)
        receive := ⟨chosen.amount, c.smart⟩
        balanceDelta := charged.net - unused
        curve, ratio := chosen.ratio, overrideApplied } := by
  simp only [planBuy, returns_bind, returns_liftPure, returns_liftCurve, returns_ite,
    not_returns_throw, false_and, exists_false, and_false, false_or, returns_pure, not_le] at h
  obtain ⟨charged, hcharged, hnet, ⟨curve, chosen, overrideApplied⟩, hevaluate, hchosen, unused,
    hunused, h⟩ := h
  rcases h with ⟨hpos, excess, hexcess, hp⟩ | ⟨hnone, excess, hexcess, hp⟩
  · exact ⟨charged, curve, chosen, overrideApplied, unused, excess, hcharged, hnet, hevaluate,
      hchosen, hunused, .inl ⟨hpos, hexcess⟩, hp.symm⟩
  · -- nothing unused, nothing overcharged
    exact ⟨charged, curve, chosen, overrideApplied, unused, excess, hcharged, hnet, hevaluate,
      hchosen, hunused, .inr ⟨not_lt.1 hnone, hexcess.symm⟩, hp.symm⟩

/-- The plan of a market sale: of the input `unused` sold for nothing. -/
theorem returns_planSell (h : (x.planSell c supply given wanted).Returns p) :
    ∃ (charged : Charge) (curve chosen : Conversion) (overrideApplied : Bool) (unused : Amount),
      (x.evaluate c .sell .market supply given.amount).Returns
        (curve, chosen, overrideApplied) ∧
      (x.effectivePolicy c.smart).charge chosen.amount .nonRequired = .ok charged ∧
      0 < charged.net ∧ chosen.unusedShare given.amount = .ok unused ∧
      p = {
        direction := .sell, mode := .market, smart := c.smart
        pay := given.withAmount (given.amount - unused)
        refund := given.withAmount unused
        fee := wanted.withAmount charged.fee
        receive := wanted.withAmount charged.net
        balanceDelta := -curve.amount
        curve, ratio := chosen.ratio, overrideApplied } := by
  simp only [planSell, returns_bind, returns_liftPure, returns_liftCurve, returns_ite,
    not_returns_throw, false_and, exists_false, and_false, false_or, returns_pure, not_le] at h
  obtain ⟨⟨curve, chosen, overrideApplied⟩, hevaluate, charged, hcharged, hnet, unused, hunused,
    hp⟩ := h
  exact ⟨charged, curve, chosen, overrideApplied, unused, hevaluate, hcharged, hnet, hunused,
    hp.symm⟩

/-- The plan of an exact buy: the fee comes on top of what the curve asks for. -/
theorem returns_planBuyExact (h : (x.planBuyExact c supply given wanted).Returns p) :
    ∃ (charged : Charge) (curve chosen : Conversion) (overrideApplied : Bool),
      (x.evaluate c .buy .exact supply wanted.amount).Returns (curve, chosen, overrideApplied) ∧
      (x.effectivePolicy c.smart).charge chosen.amount .required = .ok charged ∧
      p = {
        direction := .buy, mode := .exact, smart := c.smart
        pay := given.withAmount charged.gross
        refund := given.withAmount 0
        fee := given.withAmount charged.fee
        receive := wanted
        balanceDelta := chosen.amount
        curve, ratio := chosen.ratio, overrideApplied } := by
  simp only [planBuyExact, returns_bind, returns_liftPure, returns_liftCurve, returns_pure] at h
  obtain ⟨⟨curve, chosen, overrideApplied⟩, hevaluate, charged, hcharged, hp⟩ := h
  exact ⟨charged, curve, chosen, overrideApplied, hevaluate, hcharged, hp.symm⟩

/-- The plan of an exact sale: the curve says what the output and the fee cost together. -/
theorem returns_planSellExact (h : (x.planSellExact c supply given wanted).Returns p) :
    ∃ (charged : Charge) (curve chosen : Conversion) (overrideApplied : Bool),
      (x.effectivePolicy c.smart).charge wanted.amount .required = .ok charged ∧
      (x.evaluate c .sell .exact supply charged.gross).Returns
        (curve, chosen, overrideApplied) ∧
      chosen.amount ≤ supply ∧
      p = {
        direction := .sell, mode := .exact, smart := c.smart
        pay := given.withAmount chosen.amount
        refund := given.withAmount 0
        fee := wanted.withAmount charged.fee
        receive := wanted
        balanceDelta := -charged.gross
        curve, ratio := chosen.ratio, overrideApplied } := by
  simp only [planSellExact, returns_bind, returns_liftPure, returns_liftCurve, returns_ite,
    not_returns_throw, false_and, exists_false, and_false, false_or, returns_pure, gt_iff_lt,
    not_lt] at h
  obtain ⟨charged, hcharged, ⟨curve, chosen, overrideApplied⟩, hevaluate, hle, hp⟩ := h
  exact ⟨charged, curve, chosen, overrideApplied, hcharged, hevaluate, hle, hp.symm⟩

/-! ## All plans -/

theorem planned_buy (hsmart : c.smart = wanted.token)
    (h : (x.planBuy c supply given).Returns p) :
    x.Planned c supply given wanted p ∧ p.direction = .buy ∧ p.mode = .market := by
  obtain ⟨charged, curve, chosen, overrideApplied, unused, excess, hcharged, hnet, hevaluate,
    hchosen, hunused, hshare, rfl⟩ := returns_planBuy h
  obtain ⟨hfee, hrest⟩ := FeePolicy.charge_nonRequired hcharged
  have heval := returns_evaluate hevaluate
  -- of the fee as much goes back as of the net input, at most all of it
  have hexcess : 0 ≤ excess ∧ excess ≤ charged.fee := by
    rcases hshare with ⟨_, hexcess⟩ | ⟨_, rfl⟩
    · exact ⟨Conversion.unusedShare_nonneg hexcess,
        Conversion.unusedShare_le heval.outcome hfee hexcess⟩
    · exact ⟨le_rfl, hfee⟩
  have hunused0 := Conversion.unusedShare_nonneg hunused
  have hunused1 := Conversion.unusedShare_le heval.outcome hnet.le hunused
  -- what is not refunded reaches the connector or the owner
  have hlegs :
      given.amount - (unused + excess) = charged.net - unused + (charged.fee - excess) := by
    rw [hrest]
    ring
  exact ⟨{
    smart_eq := rfl
    pay_token := rfl
    receive_token := hsmart
    refund_token := rfl
    fee_token := rfl
    receive_pos := hchosen
    fee_nonneg := Int.sub_nonneg.2 hexcess.2
    refund_nonneg := Int.add_nonneg hunused0 hexcess.1
    market := fun _ => Int.sub_add_cancel _ _
    exact := nofun
    balance_pos := heval.evaluation.balance_pos
    supply_pos := heval.evaluation.supply_pos
    buys := fun _ => ⟨Int.sub_nonneg.2 hunused1, .inl hlegs⟩
    sells := nofun
    unredeemed := nofun
    administered := heval.administered }, rfl, rfl⟩

theorem planned_sell (h : (x.planSell c supply given wanted).Returns p) :
    x.Planned c supply given wanted p ∧ p.direction = .sell ∧ p.mode = .market := by
  obtain ⟨charged, curve, chosen, overrideApplied, unused, hevaluate, hcharged, hnet, hunused,
    rfl⟩ := returns_planSell h
  obtain ⟨hfee, hrest⟩ := FeePolicy.charge_nonRequired hcharged
  have heval := returns_evaluate hevaluate
  have hunused0 := Conversion.unusedShare_nonneg hunused
  have hcurve := heval.evaluation
  obtain ⟨hsold, hpaid⟩ := Connector.convert_sell_market heval.converts
  have hpay : given.amount - unused ≤ supply := (Int.sub_le_self _ hunused0).trans hsold
  -- without an override the fee comes off what the connector gives up
  have hlegs : overrideApplied = false → charged.net + charged.fee = - -curve.amount := by
    intro hno
    rw [hrest, Int.neg_neg, Int.sub_add_cancel, heval.unreplaced hno]
  exact ⟨{
    smart_eq := rfl
    pay_token := rfl
    receive_token := rfl
    refund_token := rfl
    fee_token := rfl
    receive_pos := hnet
    fee_nonneg := hfee
    refund_nonneg := hunused0
    market := fun _ => Int.sub_add_cancel _ _
    exact := nofun
    balance_pos := hcurve.balance_pos
    supply_pos := hcurve.supply_pos
    buys := nofun
    sells := fun _ => ⟨hpay, Int.neg_nonpos_of_nonneg hcurve.outcome.amount_nonneg,
      (Int.neg_neg _).trans_le hpaid⟩
    unredeemed := fun _ => hlegs
    administered := heval.administered }, rfl, rfl⟩

theorem planned_buyExact (hwanted : 0 < wanted.amount)
    (h : (x.planBuyExact c supply given wanted).Returns p) :
    x.Planned c supply given wanted p ∧ p.direction = .buy ∧ p.mode = .exact := by
  obtain ⟨charged, curve, chosen, overrideApplied, hevaluate, hcharged, rfl⟩ :=
    returns_planBuyExact h
  obtain ⟨hfee, _, hgross⟩ := FeePolicy.charge_required hcharged
  have heval := returns_evaluate hevaluate
  have hchosen := heval.outcome.amount_nonneg
  -- the fee comes on top of the cost, up to the greatest amount
  have hlegs :
      charged.gross = chosen.amount + charged.fee ∨ charged.gross = Amount.greatest := by
    rw [hgross]
    exact (Amount.addSaturating_cases hchosen hfee).imp_right fun h => h.1
  exact ⟨{
    smart_eq := rfl
    pay_token := rfl
    receive_token := rfl
    refund_token := rfl
    fee_token := rfl
    receive_pos := hwanted
    fee_nonneg := hfee
    refund_nonneg := le_rfl
    market := nofun
    exact := fun _ => ⟨rfl, rfl⟩
    balance_pos := heval.evaluation.balance_pos
    supply_pos := heval.evaluation.supply_pos
    buys := fun _ => ⟨hchosen, hlegs⟩
    sells := nofun
    unredeemed := nofun
    administered := heval.administered }, rfl, rfl⟩

/-- The gross value of an exact sale is never cut off: the curve refuses to pay out a whole
balance, and no balance is greater than the greatest amount. -/
theorem planned_sellExact (hwanted : 0 < wanted.amount)
    (hbalance : c.balance.amount ≤ Amount.greatest)
    (h : (x.planSellExact c supply given wanted).Returns p) :
    x.Planned c supply given wanted p ∧ p.direction = .sell ∧ p.mode = .exact := by
  obtain ⟨charged, curve, chosen, overrideApplied, hcharged, hevaluate, hle, rfl⟩ :=
    returns_planSellExact h
  obtain ⟨hfee, _, hgross⟩ := FeePolicy.charge_required hcharged
  have heval := returns_evaluate hevaluate
  have hcurve := heval.evaluation
  have hlt := Connector.convert_sell_exact heval.converts
  have hsum : charged.gross = wanted.amount + charged.fee := by
    rcases Amount.addSaturating_cases hwanted.le hfee with hsum | ⟨hcut, _⟩
    · exact hgross.trans hsum
    · rw [hgross, hcut] at hlt
      exact absurd hlt (not_lt.2 hbalance)
  exact ⟨{
    smart_eq := rfl
    pay_token := rfl
    receive_token := rfl
    refund_token := rfl
    fee_token := rfl
    receive_pos := hwanted
    fee_nonneg := hfee
    refund_nonneg := le_rfl
    market := nofun
    exact := fun _ => ⟨rfl, rfl⟩
    balance_pos := hcurve.balance_pos
    supply_pos := hcurve.supply_pos
    buys := nofun
    sells := fun _ =>
      ⟨hle, Int.neg_nonpos_of_nonneg hcurve.amount_pos.le, (Int.neg_neg _).trans_le hlt.le⟩
    unredeemed := fun _ _ => hsum.symm.trans (Int.neg_neg _).symm
    administered := heval.administered }, rfl, rfl⟩

/-- The connector of a plan, its registration, and what it promises. -/
structure Plans (x : Exchange ρ) (given wanted : Asset) (conf : Configuration) (c : Connector)
    (reg : Registration) (p : Plan) : Prop extends
    Planned x c reg.supply given wanted p, Routes x given wanted conf p.direction c where
  fits : p.mode.Fits given wanted
  registration : x.ledger.registration? c.smart = some reg

/-- The planner of a direction and a mode. -/
def planBy (x : Exchange ρ) (c : Connector) (supply : Amount) (given wanted : Asset) :
    Direction → Mode → Outcome ExchangeError Plan
  | .buy, .market => x.planBuy c supply given
  | .sell, .market => x.planSell c supply given wanted
  | .buy, .exact => x.planBuyExact c supply given wanted
  | .sell, .exact => x.planSellExact c supply given wanted

/-- A plan finds the connector and the supply of its request and leaves the rest to a planner. -/
theorem plan_eq_bind_planBy : x.plan given wanted = do
    let mode ← Mode.ofRequest given wanted
    let (direction, c) ← x.route given wanted
    let supply := (← x.ledger.supply c.smart).amount
    return (← x.planBy c supply given wanted direction mode, c) := by
  unfold plan
  refine bind_congr_of_returns fun {mode} _ => ?_
  refine bind_congr_of_returns fun {routed} _ => ?_
  obtain ⟨direction, c⟩ := routed
  refine bind_congr_of_returns fun {supply} _ => ?_
  cases direction <;> cases mode <;> rfl

/-- A plan comes from the planner of its request. -/
theorem returns_planBy (h : (x.plan given wanted).Returns (p, c)) :
    ∃ (direction : Direction) (mode : Mode) (reg : Registration),
      (Mode.ofRequest given wanted).Returns mode ∧
      (x.route given wanted).Returns (direction, c) ∧
      x.ledger.registration? c.smart = some reg ∧
      (x.planBy c reg.supply given wanted direction mode).Returns p := by
  simp only [plan_eq_bind_planBy, returns_bind, returns_liftLedger, Ledger.returns_supply,
    returns_pure, Prod.mk.injEq] at h
  obtain ⟨mode, hmode, ⟨direction, c⟩, hroute, _, ⟨reg, hreg, rfl⟩, p, hp, rfl, rfl⟩ := h
  exact ⟨direction, mode, reg, hmode, hroute, hreg, hp⟩

theorem returns_quote :
    (x.quote given wanted).Returns p ↔ ∃ c, (x.plan given wanted).Returns (p, c) := by
  simp only [quote, returns_bind, returns_pure]
  constructor
  · intro h
    obtain ⟨⟨p, c⟩, h, rfl⟩ := h
    exact ⟨c, h⟩
  · intro h
    obtain ⟨c, h⟩ := h
    exact ⟨(p, c), h, rfl⟩

/-- Every plan keeps the promises of its planner. -/
theorem returns_plan
    (hbalance : ∀ {t c}, x.connector? t = some c → c.balance.amount ≤ Amount.greatest)
    (h : (x.plan given wanted).Returns (p, c)) :
    ∃ conf reg, x.Plans given wanted conf c reg p ∧
      (x.planBy c reg.supply given wanted p.direction p.mode).Returns p := by
  obtain ⟨direction, mode, reg, hmode, hroute, hreg, hp⟩ := returns_planBy h
  have hfits := Mode.returns_ofRequest.1 hmode
  obtain ⟨conf, hroutes⟩ := returns_route hroute
  have hplanned :
      x.Planned c reg.supply given wanted p ∧ p.direction = direction ∧ p.mode = mode := by
    cases direction <;> cases mode
    · exact planned_buy hroutes.directs.2 hp
    · exact planned_buyExact hfits.2 hp
    · exact planned_sell hp
    · exact planned_sellExact hfits.2 (hbalance hroutes.connector) hp
  obtain ⟨hplanned, rfl, rfl⟩ := hplanned
  exact ⟨conf, reg, ⟨hplanned, hroutes, hfits, hreg⟩, hp⟩

/-- A buyer never pays more than what reaches the connector and the owner. -/
theorem pay_le_of_planBy (hp : (x.planBy c supply given wanted p.direction p.mode).Returns p)
    (hd : p.direction = .buy) : p.pay.amount ≤ p.balanceDelta + p.fee.amount := by
  rw [hd] at hp
  cases hm : p.mode with
  | market =>
    rw [hm] at hp
    obtain ⟨charged, curve, chosen, overrideApplied, unused, excess, hcharged, _, _, _, _, _,
      rfl⟩ := returns_planBuy hp
    obtain ⟨_, hrest⟩ := FeePolicy.charge_nonRequired hcharged
    show given.amount - (unused + excess) ≤ charged.net - unused + (charged.fee - excess)
    linarith
  | exact =>
    rw [hm] at hp
    obtain ⟨charged, curve, chosen, overrideApplied, hevaluate, hcharged, rfl⟩ :=
      returns_planBuyExact hp
    obtain ⟨hfee, _, hgross⟩ := FeePolicy.charge_required hcharged
    have hchosen := (returns_evaluate hevaluate).outcome.amount_nonneg
    show charged.gross ≤ chosen.amount + charged.fee
    rw [hgross]
    rcases Amount.addSaturating_cases hchosen hfee with hsum | ⟨hcut, hlt⟩
    · exact hsum.le
    · exact hcut.trans_le hlt.le

end Exchange
end BondingCurve
