import BondingCurve.Proofs.Exchange.Covering

/-!
# Conversions along the curve

A conversion that takes no more from the pool than the exact curve gives keeps `balance ^ weight`
in step with the supply (`KeepsCurve`). Amounts are cut down or rounded up in favour of the pool,
but what is rounded is a decimal of 28 digits, and a power that is too small for them is zero. So
the exchange keeps along the curve exactly when the units it hands out are covered by the exact
curve. They are where the rounding leaves room for the error of the decimals, and that error is
bounded, so with one unit less handed out they always are (`convert_keeps_curve_iff`).
`sale_leaves_curve` is a sale that hands out that unit.
-/

namespace BondingCurve

open Outcome

/-- From one balance and supply to others the reserve per supply, measured along a curve of weight
`m / d`, does not go down. -/
def KeepsCurve (m d : ℕ) (balance supply balance' supply' : ℤ) : Prop :=
  balance ^ m * supply' ^ d ≤ balance' ^ m * supply ^ d

/-- The powers of `KeepsCurve` compare positions on the exact curve. -/
theorem keepsCurve_iff_keeps {m d : ℕ} {balance supply balance' supply' : ℤ} (hd : 0 < d)
    (hbalance : 0 < balance) (hsupply : 0 < supply) (hbalance' : 0 ≤ balance')
    (hsupply' : 0 ≤ supply') :
    KeepsCurve m d balance supply balance' supply' ↔
      ExactCurve.Keeps (m / d) balance supply balance' supply' := by
  rw [ExactCurve.keeps_iff (by exact_mod_cast hbalance) (by exact_mod_cast hsupply)
    (by exact_mod_cast hbalance') (by exact_mod_cast hsupply') hd, KeepsCurve]
  exact_mod_cast Iff.rfl

section Flows

variable {m d : ℕ} {balance supply poolIn poolOut : ℤ} {w : ℝ} (hd : 0 < d) (hweight : w = m / d)
  (hbalance : 0 < balance) (hsupply : 0 < supply)
include hd hweight hbalance hsupply

/-- A buy of `poolOut` for `poolIn` keeps along the curve when the curve gives that much for it. -/
theorem keepsCurve_buy_iff (hinto : 0 ≤ poolIn) (hout : 0 ≤ poolOut) :
    KeepsCurve m d balance supply (balance + poolIn) (supply + poolOut) ↔
      (poolOut : ℝ) ≤ Curve.exactMarket .buy balance supply w poolIn := by
  rw [keepsCurve_iff_keeps hd hbalance hsupply (by linarith) (by linarith), Curve.exactMarket,
    ExactCurve.le_buy_iff_keeps (by exact_mod_cast hbalance) (by exact_mod_cast hsupply), hweight]
  push_cast
  exact Iff.rfl

/-- A sale of `poolIn` for `poolOut` keeps along the curve when the curve gives that much for it. -/
theorem keepsCurve_sell_iff (hw : 0 < w) (hinto : poolIn ≤ supply) (hout : poolOut ≤ balance) :
    KeepsCurve m d balance supply (balance - poolOut) (supply - poolIn) ↔
      (poolOut : ℝ) ≤ Curve.exactMarket .sell balance supply w poolIn := by
  rw [keepsCurve_iff_keeps hd hbalance hsupply (by linarith) (by linarith), Curve.exactMarket,
    ExactCurve.le_sell_iff_keeps (by exact_mod_cast hbalance) (by exact_mod_cast hsupply) hw
      (by exact_mod_cast hinto) (by exact_mod_cast hout), hweight]
  push_cast
  exact Iff.rfl

end Flows

/-- One unit less out of the pool keeps along the curve, from a balance and a supply to those that a
conversion leaves. -/
def KeepsCurveButOne (direction : Direction) (m d : ℕ) (balance supply balance' supply' : ℤ) :
    Prop :=
  match direction with
  | .buy => KeepsCurve m d balance supply balance' (supply' - 1)
  | .sell => KeepsCurve m d balance supply (balance' + 1) supply'

namespace Curve

/-- The slack of a pool that holds no more than `5 * 10 ^ 23` times its weight is less than a unit. -/
theorem slack_le_one {direction : Direction} {balance supply w poolOut : ℝ} (hw : 0 < w)
    (hlarge : 2 * balance ≤ 10 ^ 24 * w) (hsupply : direction = .buy → supply + poolOut ≤ 10 ^ 19) :
    slack direction balance supply w poolOut ≤ 1 := by
  cases direction with
  | buy =>
    rw [slack]
    push_cast
    linarith [hsupply rfl]
  | sell =>
    have hshare : 2 * (balance * w⁻¹) ≤ 10 ^ 24 := by
      rwa [← mul_assoc, ← div_eq_mul_inv, div_le_iff₀ hw]
    rw [slack]
    push_cast
    linarith

end Curve

namespace Exchange

variable {ρ : Type} [Reserve ρ] {x y : Exchange ρ} {c : Connector} {p : Plan}
  {conf : Configuration} {given wanted : Asset} {reg : Registration}

/-! ## Plans along the curve -/

/-- A plan moves a balance and a supply by its flows. -/
theorem Plans.keepsCurve_iff {m d : ℕ} (hx : x.WellFormed)
    (hp : x.Plans given wanted conf c reg p) (hd : 0 < d)
    (hweight : (c.weight.value.toRat : ℝ) = m / d) :
    (KeepsCurve m d c.balance.amount reg.supply (c.balance.amount + p.balanceDelta)
        (reg.supply + p.minted) ↔ p.IsCovered c reg.supply) ∧
      (KeepsCurveButOne p.direction m d c.balance.amount reg.supply
          (c.balance.amount + p.balanceDelta) (reg.supply + p.minted) ↔
        ((p.poolOut - 1 : ℤ) : ℝ) ≤ Curve.exactMarket p.direction c.balance.amount reg.supply
          c.weight.value.toRat p.poolIn) := by
  have hw0 : (0 : ℝ) < c.weight.value.toRat := by
    exact_mod_cast (hx.fits hp.connector).weight_valid.pos
  unfold Plan.IsCovered Plan.minted Plan.poolOut Plan.poolIn KeepsCurveButOne
  rcases hdirection : p.direction with _ | _
  · have hdelta := (hp.buys hdirection).1
    have hreceive := hp.receive_pos
    refine ⟨keepsCurve_buy_iff hd hweight hp.balance_pos hp.supply_pos hdelta hreceive.le, ?_⟩
    show KeepsCurve m d _ _ _ (reg.supply + p.receive.amount - 1) ↔ _
    rw [Int.add_sub_assoc]
    exact keepsCurve_buy_iff hd hweight hp.balance_pos hp.supply_pos hdelta (by linarith)
  · obtain ⟨hpay, hdelta, hcovered⟩ := hp.sells hdirection
    have hless : c.balance.amount + p.balanceDelta = c.balance.amount - -p.balanceDelta ∧
        c.balance.amount + p.balanceDelta + 1 = c.balance.amount - (-p.balanceDelta - 1) := by
      constructor <;> ring
    constructor
    · rw [hless.1]
      exact keepsCurve_sell_iff hd hweight hp.balance_pos hp.supply_pos hw0 hpay hcovered
    · show KeepsCurve m d _ _ (c.balance.amount + p.balanceDelta + 1) _ ↔ _
      rw [hless.2]
      exact keepsCurve_sell_iff hd hweight hp.balance_pos hp.supply_pos hw0 hpay (by linarith)

variable [LawfulReserve ρ] {sender : Account} {signers : Signers} {receipt : Receipt}

omit [LawfulReserve ρ] in
/-- What a conversion leaves of the connector and the supply, where tokens that are taken in go out
of circulation. -/
theorem Converts.books_of_takenIn (hx : x.WellFormed)
    (htakes : ∀ {l l' : Ledger} {r : ρ}, TakenIn x.contract x.reserve l receipt.plan l' r →
      ∃ δ, l.Effect l' δ (-receipt.plan.pay.inSupply))
    (h : x.Converts signers sender given wanted receipt c y) :
    ∃ conf reg, x.Plans given wanted conf c reg receipt.plan ∧
      (x.planBy c reg.supply given wanted receipt.plan.direction receipt.plan.mode).Returns
        receipt.plan ∧
      y.connectors = x.connectors.insert c.smart.key (c.moved receipt.plan.balanceDelta) ∧
      y.ledger.registration? c.smart =
        some { reg with supply := reg.supply + receipt.plan.minted } := by
  obtain ⟨conf, reg, hp, hplan⟩ := returns_plan (fun hc => hx.balance_le hc) h.plans
  refine ⟨conf, reg, hp, hplan, ?_⟩
  rcases hd : receipt.plan.direction with _ | _
  · obtain ⟨_, _, _, final, hs, rfl, _⟩ := (returns_settle_buy hd).1 h.settles
    have hfinal := (hs.effect hp.fee_nonneg).registration? c.smart
    have hminted := Plan.minted_buy hd
    rw [hp.registration, Asset.inSupply, (hp.buy_tokens hd).2.2, if_pos rfl, ← hminted] at hfinal
    exact ⟨rfl, hfinal⟩
  · obtain ⟨_, paid, taken, _, final, _, hs, rfl, _⟩ := (returns_settle_sell hd).1 h.settles
    obtain ⟨δ, htaken⟩ := htakes hs.takes
    have hfinal := (hs.effect hp.fee_nonneg htaken).registration? c.smart
    have hminted := Plan.minted_sell hd
    rw [hp.registration, ← Asset.inSupply_neg, Asset.inSupply, (hp.sell_tokens hd).1, if_pos rfl,
      ← hminted] at hfinal
    exact ⟨rfl, hfinal⟩

omit [LawfulReserve ρ] in
/-- What a conversion that redeems nothing leaves of the connector and the supply. -/
theorem Converts.books (hx : x.WellFormed) (hno : receipt.plan.overrideApplied = false)
    (h : x.Converts signers sender given wanted receipt c y) :
    ∃ conf reg, x.Plans given wanted conf c reg receipt.plan ∧
      (x.planBy c reg.supply given wanted receipt.plan.direction receipt.plan.mode).Returns
        receipt.plan ∧
      y.connectors = x.connectors.insert c.smart.key (c.moved receipt.plan.balanceDelta) ∧
      y.ledger.registration? c.smart =
        some { reg with supply := reg.supply + receipt.plan.minted } := by
  apply h.books_of_takenIn hx
  intro l l' r htakes
  exact ⟨_, Ledger.retire_effect (htakes.retires hno)⟩

/-- The slack of a conversion is less than a unit where the pool is not too large for its weight: the
supply that is left is an amount. -/
theorem Converts.slack_le_one {reg : Registration} (hx : x.WellFormed)
    (h : x.Converts signers sender given wanted receipt c y)
    (hreg' : y.ledger.registration? c.smart =
      some { reg with supply := reg.supply + receipt.plan.minted })
    (hw : 0 < c.weight.value.toRat)
    (hlarge : 2 * (c.balance.amount : ℚ) ≤ 10 ^ 24 * c.weight.value.toRat) :
    Curve.slack receipt.plan.direction c.balance.amount reg.supply c.weight.value.toRat
      receipt.plan.poolOut ≤ 1 := by
  refine Curve.slack_le_one (by exact_mod_cast hw) (by exact_mod_cast hlarge) fun hbuy => ?_
  have hy := (hx.step (a := .convert 0 signers sender given wanted) trivial (.converts h)).ledger
  have hsupply : reg.supply + receipt.plan.minted ≤ Amount.greatest :=
    (hy.capped hreg').trans (hy.cap_le hreg')
  rw [Plan.minted_buy hbuy] at hsupply
  rw [Plan.poolOut, hbuy]
  exact_mod_cast hsupply.trans (by decide)

/-- A conversion that redeems nothing moves the whole units of what the curve makes of the request.
It keeps along the curve, for every way to write the weight as a fraction, exactly when they are
covered by the exact curve, and they are where they leave room for the error of the result. For a
pool that holds no more than `5 * 10 ^ 23` times its weight that error has a bound, worked out from
the result, and with one unit less handed out the conversion always keeps along the curve. -/
theorem convert_keeps_curve_iff {now : Int} (hx : x.Reachable)
    (h : x.convert now signers sender given wanted = .ok ⟨.ok receipt, y⟩)
    (hno : receipt.plan.overrideApplied = false) :
    ∃ c c' reg reg' amount unused, x.connector? receipt.plan.smart = some c ∧
      y.connector? receipt.plan.smart = some c' ∧
      x.ledger.registration? receipt.plan.smart = some reg ∧
      y.ledger.registration? receipt.plan.smart = some reg' ∧
      x.asked c given wanted receipt.plan.direction receipt.plan.mode = .ok amount ∧
      receipt.plan.Follows c reg.supply amount unused ∧
      (∀ m d : ℕ, 0 < d → c.weight.value.toRat = m / d →
        (KeepsCurve m d c.balance.amount reg.supply c'.balance.amount reg'.supply ↔
          receipt.plan.IsCovered c reg.supply)) ∧
      (∀ ε, receipt.plan.IsFaithful c ε reg.supply amount unused →
        receipt.plan.IsCovered c reg.supply) ∧
      (c.weight.value.Valid → 2 * (c.balance.amount : ℚ) ≤ 10 ^ 24 * c.weight.value.toRat →
        Amount.InRange given.amount → Amount.InRange wanted.amount →
        (receipt.plan.curve.Absorbs (receipt.plan.error c reg.supply amount) receipt.plan.mode
            amount unused → receipt.plan.IsCovered c reg.supply) ∧
        ∀ m d : ℕ, 0 < d → c.weight.value.toRat = m / d →
          KeepsCurveButOne receipt.plan.direction m d c.balance.amount reg.supply
            c'.balance.amount reg'.supply) := by
  obtain ⟨c, z, hconverts, rfl⟩ := convert_eq_ok.1 h
  obtain ⟨conf, reg, hp, hplan, hconnectors, hreg'⟩ := hconverts.books hx.wellFormed hno
  obtain ⟨-, -, amount, unused, hasked, hfollows⟩ := follows_planBy hno hplan
  have hc := hx.wellFormed.fits hp.connector
  have hw0 := hc.weight_valid.pos
  have hw1 := hc.weight_valid.le_one
  have hkeeps {m d : ℕ} (hd : 0 < d) (hweight : c.weight.value.toRat = m / d) :=
    hp.keepsCurve_iff hx.wellFormed hd (by rw [hweight]; push_cast; rfl)
  have hcovered {ε : ℚ} := hfollows.isCovered (ε := ε) hw0 hw1 fun hsell => by
    rw [Plan.poolIn, hsell]
    exact (hp.sells hsell).1
  refine ⟨c, c.moved receipt.plan.balanceDelta, reg,
    { reg with supply := reg.supply + receipt.plan.minted }, amount, unused, ?_, ?_, ?_, ?_,
    hasked, hfollows, fun m d hd hweight => (hkeeps hd hweight).1, fun ε => hcovered, ?_⟩
  · rw [hp.smart_eq]
    exact hp.connector
  · show z.connectors.find? receipt.plan.smart.key = _
    rw [hp.smart_eq, hconnectors, Table.find?_insert_self]
  · rw [hp.smart_eq]
    exact hp.registration
  · rw [hp.smart_eq]
    exact hreg'
  · intro hvalid hlarge hgiven hwanted
    have hbalance1 : (1 : ℚ) ≤ c.balance.amount := by exact_mod_cast hp.balance_pos
    have hw : Curve.Ordinary c.weight.value := ⟨hvalid, by linarith, hw1⟩
    have hinBalance : Amount.InRange c.balance.amount :=
      ⟨le_trans (by decide) hc.balance_nonneg, hc.balance_le⟩
    have hin : Amount.InRange amount := asked_inRange hgiven hwanted
      (Connector.convert_evaluation hfollows.converts).amount_pos hasked
    refine ⟨fun habsorbs => hcovered ⟨hfollows.isFaithful_error hw hinBalance hin, habsorbs⟩,
      fun m d hd hweight => (hkeeps hd hweight).2.2 ?_⟩
    have hslack := hconverts.slack_le_one hx.wellFormed hreg' hw0 hlarge
    have hle := hfollows.poolOut_le hw hin hinBalance (hp.poolOut_pos hno)
    push_cast
    linarith

/-- Alice gets 130 tokens of almost 131 that 175 units are worth, so one unit goes back to her. What is
left of the result has room for its error, as the exact curve has it and as it is bounded. -/
theorem buy_is_covered :
    ∃ (x y : Exchange Pool) (receipt : Receipt) (c c' : Connector) (reg reg' : Registration)
      (amount unused : Amount), x.Reachable ∧
      x.convert 0 [Sample.alice] Sample.alice ⟨176, Sample.connected⟩ ⟨0, Sample.smart⟩ =
        .ok ⟨.ok receipt, y⟩ ∧
      receipt.plan.overrideApplied = false ∧
      c.balance.amount = 20000 ∧ reg.supply = 30000 ∧ amount = 175 ∧ unused = 1 ∧
      c'.balance.amount = 20174 ∧ reg'.supply = 30130 ∧
      receipt.plan.IsFaithful c 0 reg.supply amount unused ∧
      receipt.plan.curve.Absorbs (receipt.plan.error c reg.supply amount) receipt.plan.mode amount
        unused ∧
      receipt.plan.IsCovered c reg.supply ∧
      KeepsCurve 1 2 c.balance.amount reg.supply c'.balance.amount reg'.supply ∧
      KeepsCurveButOne .buy 1 2 c.balance.amount reg.supply c'.balance.amount reg'.supply := by
  have hyields : Abort.Yields (inMemory.trace Sample.market) fun r =>
      Abort.Yields (r.2.asked ⟨Sample.smart, ⟨20000, Sample.connected⟩, ⟨5, 1, false⟩⟩
        ⟨176, Sample.connected⟩ ⟨0, Sample.smart⟩ .buy .market) fun asked => asked = 175 ∧
      Abort.Yields (r.2.convert 0 [Sample.alice] Sample.alice ⟨176, Sample.connected⟩
        ⟨0, Sample.smart⟩) fun reply => Abort.Yields reply.answer fun receipt =>
          receipt.plan.overrideApplied = false ∧ receipt.plan.direction = .buy ∧
          receipt.plan.mode = .market ∧ receipt.plan.curve.amount = 130 ∧
          receipt.plan.curve.theoretical = ⟨13096413990099985562543301600, 26, false⟩ ∧
          Abort.Yields (receipt.plan.curve.unusedShare 175) (fun unused => unused = 1) ∧
          receipt.plan.curve.Absorbs (receipt.plan.error
            ⟨Sample.smart, ⟨20000, Sample.connected⟩, ⟨5, 1, false⟩⟩ 30000 175) .market 175 1 ∧
          r.2.connector? receipt.plan.smart =
            some ⟨Sample.smart, ⟨20000, Sample.connected⟩, ⟨5, 1, false⟩⟩ ∧
          reply.exchange.connector? receipt.plan.smart =
            some ⟨Sample.smart, ⟨20174, Sample.connected⟩, ⟨5, 1, false⟩⟩ ∧
          r.2.ledger.registration? receipt.plan.smart = some ⟨Sample.smart, 30000, 1000000⟩ ∧
          reply.exchange.ledger.registration? receipt.plan.smart =
            some ⟨Sample.smart, 30130, 1000000⟩ := by
    decide +kernel
  obtain ⟨r, hr, amount, hasks, rfl, ⟨answer, y⟩, hconvert, receipt, rfl, hno, hdirection, hmode,
    hamount, hresult, ⟨unused, hunused, rfl⟩, habsorbs, hc, hc', hreg, hreg'⟩ := hyields
  have hreach : r.2.Reachable := Sample.reachable_trace (by decide) hr
  obtain ⟨c, c', reg, reg', asked, left, hfound, hfound', hrow, hrow', hasked, hfollows, hiff,
    hfaithful, hordinary⟩ := convert_keeps_curve_iff hreach hconvert hno
  obtain rfl := Option.some.inj (hc.symm.trans hfound)
  obtain rfl := Option.some.inj (hc'.symm.trans hfound')
  obtain rfl := Option.some.inj (hreg.symm.trans hrow)
  obtain rfl := Option.some.inj (hreg'.symm.trans hrow')
  rw [hdirection, hmode] at hasked
  obtain rfl := Except.ok.inj (hasks.symm.trans hasked)
  have hflows := hfollows.flows
  rw [hmode] at hflows
  obtain rfl := Except.ok.inj (hunused.symm.trans hflows.1)
  have hweight : (⟨5, 1, false⟩ : Decimal).toRat = (1 : ℕ) / (2 : ℕ) := by
    norm_num [Decimal.toRat, Decimal.powTen]
  have hvalue : receipt.plan.curve.theoretical.toRat = 130.964139900999855625433016 := by
    rw [hresult]
    norm_num [Decimal.toRat, Decimal.powTen]
  have hplan : receipt.plan.IsFaithful ⟨Sample.smart, ⟨20000, Sample.connected⟩, ⟨5, 1, false⟩⟩ 0
      30000 175 1 := by
    constructor
    · rw [hdirection, hmode, hvalue]
      have hroot : 1 + 130.964139900999855625433016 / 30000 ≤ (1 + 175 / 20000 : ℝ) ^ (1 / 2 : ℝ) := by
        rw [← Real.sqrt_eq_rpow]
        exact Real.le_sqrt_of_sq_le (by norm_num)
      show (_ : ℝ) - _ ≤ ExactCurve.buy _ _ _ _
      rw [hweight, ExactCurve.buy]
      push_cast
      linarith
    · -- the share that was cut off is worth more than one unit and less than two
      rw [hmode]
      obtain ⟨t, ht⟩ := Connector.convert_ofResult hfollows.converts
      rw [hmode] at ht
      refine Conversion.absorbs_of_floor_le ht (hamount ▸ by decide) (by decide) (by decide) hunused
        (by rw [hvalue]; norm_num) ?_
      rw [hvalue, hamount]
      have hfloor : ⌊((175 : Amount) : ℚ) * (1 - (130 : Amount) / 130.964139900999855625433016) +
          2 / 10 ^ 28 * (175 : Amount)⌋ ≤ 1 := Int.floor_le_iff.2 (by norm_num)
      exact (Int.cast_le.2 hfloor).trans (by norm_num)
  have hbutOne := (hordinary ⟨by decide, by decide, by decide⟩ (by rw [hweight]; norm_num) (by decide)
    (by decide)).2 1 2 (by norm_num) hweight
  rw [hdirection] at hbutOne
  have hcovered := hfaithful 0 hplan
  exact ⟨r.2, y, receipt, _, _, _, _, _, _, hreach, hconvert, hno, rfl, rfl, rfl, rfl, rfl, rfl, hplan,
    hmode ▸ habsorbs, hcovered, (hiff 1 2 (by norm_num) hweight).2 hcovered, hbutOne⟩

/-- Half of the supply is sold for the whole balance, since `0.5 ^ 100` has no digit among 28
decimals. The tokens that are left have nothing behind them. -/
theorem sale_leaves_curve :
    ∃ (x y : Exchange Pool) (receipt : Receipt) (c c' : Connector) (reg reg' : Registration),
      x.Reachable ∧
      x.convert 0 [Sample.alice] Sample.alice ⟨1, Sample.smart⟩ ⟨0, Sample.connected⟩ =
        .ok ⟨.ok receipt, y⟩ ∧
      receipt.plan.overrideApplied = false ∧
      x.connector? receipt.plan.smart = some c ∧ y.connector? receipt.plan.smart = some c' ∧
      x.ledger.registration? receipt.plan.smart = some reg ∧
      y.ledger.registration? receipt.plan.smart = some reg' ∧
      c.weight.value.toRat = (1 : ℕ) / (100 : ℕ) ∧
      ¬KeepsCurve 1 100 c.balance.amount reg.supply c'.balance.amount reg'.supply := by
  have hyields : Abort.Yields (inMemory.trace Sample.thinMarket) fun r =>
      Abort.Yields (r.2.convert 0 [Sample.alice] Sample.alice ⟨1, Sample.smart⟩
        ⟨0, Sample.connected⟩) fun reply => Abort.Yields reply.answer fun receipt =>
          receipt.plan.overrideApplied = false ∧
          r.2.connector? receipt.plan.smart =
            some ⟨Sample.smart, ⟨1, Sample.connected⟩, ⟨1, 2, false⟩⟩ ∧
          reply.exchange.connector? receipt.plan.smart =
            some ⟨Sample.smart, ⟨0, Sample.connected⟩, ⟨1, 2, false⟩⟩ ∧
          r.2.ledger.registration? receipt.plan.smart = some ⟨Sample.smart, 2, 1000000⟩ ∧
          reply.exchange.ledger.registration? receipt.plan.smart =
            some ⟨Sample.smart, 1, 1000000⟩ := by
    decide +kernel
  obtain ⟨r, hr, ⟨answer, y⟩, hconvert, receipt, rfl, hno, hc, hc', hreg, hreg'⟩ := hyields
  have hweight : (⟨1, 2, false⟩ : Decimal).toRat = (1 : ℕ) / (100 : ℕ) := by
    norm_num [Decimal.toRat, Decimal.powTen]
  have hlost : ¬KeepsCurve 1 100 1 2 0 1 := by
    unfold KeepsCurve
    norm_num
  exact ⟨r.2, y, receipt, _, _, _, _, Sample.reachable_trace (by decide) hr, hconvert, hno, hc, hc',
    hreg, hreg', hweight, hlost⟩

end Exchange
end BondingCurve
