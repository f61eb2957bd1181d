import BondingCurve.Proofs.Curve.Safety
import BondingCurve.Proofs.Exchange.Override

/-!
# Sales stay inside the pool

An evaluation of a curve ends with an answer, and its outcome is part of the pool
(`Connector.not_aborts_convert`, `Connector.convert_inside`). An exchange that settles a sale checks
that once more, when the connector's balance moves and, in an exact sale, against the supply. Neither
check ever refuses, also where a reserve's rate replaced the curve's outcome
(`evaluations_stay_inside`).
-/

namespace BondingCurve

open Outcome

variable {n m : Amount}

/-! ## Errors of an exact evaluation -/

/-- Arithmetic that runs over its range fails with an overflow only. -/
@[simp] theorem not_oversold_orOverflow {r : Except Decimal.Fault Decimal} :
    ¬(orOverflow r).Fails (.exceedsSupply n m) := by
  cases r <;> simp [orOverflow]

@[simp] theorem Conversion.not_oversold_roundedUp {d : Decimal} :
    ¬(roundedUp d).Fails (.exceedsSupply n m) := by
  simp only [roundedUp, toUnits, fails_bind, not_fails_lift, not_fails_pure, and_false,
    exists_false, or_false]
  split <;> simp

namespace Curve

variable {balance supply wanted : Amount} {w base exponent : Decimal}

/-- Amounts that the curve cannot work with are refused as such. -/
@[simp] theorem not_oversold_checkState :
    ¬(checkState balance supply wanted).Fails (.exceedsSupply n m) := by
  simp [checkState]

@[simp] theorem not_oversold_power : ¬(power base exponent).Fails (.exceedsSupply n m) := by
  unfold power
  split <;> simp

/-- A buy of so many tokens sells none, so none are missing. -/
@[simp] theorem not_oversold_buyExact :
    ¬(buyExact balance supply w wanted).Fails (.exceedsSupply n m) := by
  simp [buyExact]

/-- A sale for so many connected tokens has its own check, on the balance. -/
@[simp] theorem not_oversold_sellExact :
    ¬(sellExact balance supply w wanted).Fails (.exceedsSupply n m) := by
  simp [sellExact]

end Curve

namespace Rate

variable {direction : Direction} {given : Amount} {curve : Conversion} {rate : Decimal}

/-- A rate knows nothing of supplies. -/
@[simp] theorem not_oversold_rawRate {k l : ℕ} :
    ¬(rawRate rate k l).Fails (.exceedsSupply n m) := by
  unfold rawRate
  dsimp only
  split <;> simp

/-- Working out an exact request at the rate of the reserve compares nothing with the supply. -/
@[simp] theorem not_oversold_selectOverride :
    ¬(selectOverride direction .exact given curve rate).Fails (.exceedsSupply n m) := by
  simp only [selectOverride, convert, fails_bind, fails_ite, fails_throw, not_fails_lift,
    not_fails_pure, reduceCtorEq, and_false, exists_false, or_false, false_or, not_exists, not_and]
  rintro price - -
  cases direction <;> simp [fails_bind]

end Rate

namespace Exchange

variable {ρ : Type} [Reserve ρ] {x : Exchange ρ} {given wanted : Asset} {c : Connector}
  {supply amount : Amount} {direction : Direction} {mode : Mode}

/-- Whether the curve or the reserve answers, an exact plan is not refused for its supply. -/
@[simp] theorem not_oversold_evaluate :
    ¬(x.evaluate c direction .exact supply amount).Fails (.exceedsSupply n m) := by
  have hcurve : ¬(c.convert direction .exact supply amount).Fails (.exceedsSupply n m) := by
    cases direction <;> simp [Connector.convert]
  have hrate : ¬(x.administeredRate c).Fails (.exceedsSupply n m) := by
    unfold administeredRate
    split
    · split
      · simp
      · simp only [fails_bind, Rate.not_oversold_rawRate, not_fails_pure, and_false, exists_false,
          or_false, not_false_eq_true]
    · simp
  simp only [evaluate, chooseOutcome, fails_bind, hcurve, hrate, false_or, not_fails_pure,
    and_false, exists_false, or_false, not_exists, not_and]
  rintro curve - rate - h
  split at h
  · simp at h
  · simp only [fails_bind, Rate.not_oversold_selectOverride, false_or] at h
    obtain ⟨better, -, h⟩ := h
    cases better <;> simp at h

/-! ## Exact sales -/

section ExactSale

variable (hrate : ∀ rate ∈ Reserve.rate? x.reserve c.smart, rate.Valid)
include hrate

/-- An exact sale asks for part of the supply, at the curve's price and at a better one. -/
theorem evaluate_sellExact_le {curve chosen : Conversion} {overrideApplied : Bool}
    (h : (x.evaluate c .sell .exact supply amount).Returns (curve, chosen, overrideApplied)) :
    chosen.amount ≤ supply := by
  have heval := returns_evaluate h
  have hcurve : curve.amount ≤ supply := Curve.sellExact_amount_le heval.converts
  cases overrideApplied with
  | false => rwa [heval.unreplaced rfl]
  | true =>
    obtain ⟨rate, raw, hquoted, hraw, hselect⟩ := returns_evaluate_override h
    have houtcome := heval.evaluation.outcome
    have himproves : chosen.amount ≤ curve.amount :=
      (Rate.selectOverride_improves (Rate.rawRate_valid (hrate rate hquoted) hraw)
        houtcome.amount_nonneg houtcome.amount_inRange hselect).1
    exact himproves.trans hcurve

/-- The check of the input against the supply in an exact sale never fires. -/
theorem not_oversold_planSellExact :
    ¬(x.planSellExact c supply given wanted).Fails (.curve (.exceedsSupply n m)) := by
  simp only [planSellExact, fails_bind, not_fails_liftPure, fails_liftCurve, returns_liftPure,
    returns_liftCurve, ExchangeError.curve.injEq, exists_eq_right, not_oversold_evaluate, false_or,
    fails_ite, not_fails_pure, fails_throw, and_false, or_false, not_exists, not_and]
  rintro charged - ⟨curve, chosen, overrideApplied⟩ heval h
  exact absurd (evaluate_sellExact_le hrate heval) (not_le.2 h)

/-- No request for an exact output is refused because it asks for more than the supply. -/
theorem not_oversold_planBy (hexact : mode = .exact) :
    ¬(x.planBy c supply given wanted direction mode).Fails (.curve (.exceedsSupply n m)) := by
  subst hexact
  cases direction with
  | buy =>
    simp only [planBy, planBuyExact, fails_bind, not_fails_liftPure, fails_liftCurve,
      ExchangeError.curve.injEq, exists_eq_right, not_oversold_evaluate, not_fails_pure, and_false,
      exists_false, or_false, not_false_eq_true]
  | sell => exact not_oversold_planSellExact hrate

end ExactSale

omit [Reserve ρ] in
/-- Finding a connector evaluates nothing. -/
theorem not_oversold_route : ¬(x.route given wanted).Fails (.curve (.exceedsSupply n m)) := by
  intro h
  simp only [route, fails_bind, fails_requireConfiguration, fails_ite, fails_throw, reduceCtorEq,
    and_false, not_fails_pure, not_returns_throw, false_and, exists_false, returns_pure,
    exists_eq_left', false_or, or_false] at h
  obtain ⟨conf, -, -, ⟨-, h⟩ | ⟨-, -, h⟩⟩ := h <;> split at h <;> simp at h

/-- No request for an exact output is refused for selling more than there is, whatever rates the
reserve quotes. -/
theorem not_oversold_plan (hwanted : 0 < wanted.amount)
    (hrate : ∀ t, ∀ rate ∈ Reserve.rate? x.reserve t, rate.Valid) :
    ¬(x.plan given wanted).Fails (.curve (.exceedsSupply n m)) := by
  intro h
  rw [plan_eq_bind_planBy] at h
  rcases fails_bind.1 h with hmode | ⟨mode, hmode, h⟩
  · cases Mode.fails_ofRequest hmode
  have hexact : mode = .exact := by
    have hfits := Mode.returns_ofRequest.1 hmode
    cases mode with
    | market => exact absurd hfits.2 hwanted.ne'
    | exact => rfl
  simp only [fails_bind, not_oversold_route, fails_liftLedger, reduceCtorEq, and_false,
    exists_false, not_fails_pure, or_false, false_or] at h
  obtain ⟨⟨direction, c⟩, -, supply, -, h⟩ := h
  exact not_oversold_planBy (hrate c.smart) hexact h

/-- The balance of a connector covers what a sale takes from it. -/
theorem Plans.exists_withDelta {conf : Configuration} {reg : Registration} {p : Plan}
    (h : x.Plans given wanted conf c reg p) (hd : p.direction = .sell)
    (hbalance : c.balance.amount ≤ Amount.greatest) :
    ∃ c', (c.withDelta p.balanceDelta).Returns c' := by
  obtain ⟨-, hdelta, hcovered⟩ := h.sells hd
  have hnext : 0 ≤ c.balance.amount + p.balanceDelta := by linarith
  exact ⟨_, Connector.returns_withDelta.2
    ⟨⟨le_trans (by decide) hnext, by linarith⟩, hnext, rfl⟩⟩

/-- No evaluation of a curve ends without an answer, whatever the amounts and the weight, and every
outcome is inside the pool. So in an exchange the connector of a planned sale can always move by the
plan's delta, and no request for an exact output is refused because it asks for more than the supply,
also where the reserve's rate is the better one. -/
theorem evaluations_stay_inside [LawfulReserve ρ] :
    (∀ (c : Connector) (direction : Direction) (mode : Mode) (supply amount : Amount),
      c.weight.value.Valid → Weight.IsValid c.weight.value → Amount.InRange amount →
      ∃ answer, (c.convert direction mode supply amount).run = .ok answer ∧
        ∀ outcome, answer = .ok outcome →
          Connector.Inside direction mode c.balance.amount supply outcome) ∧
    (∀ x : Exchange ρ, x.Reachable → (∀ t, ∀ rate ∈ Reserve.rate? x.reserve t, rate.Valid) →
      ∀ given wanted,
        (∀ p c, (x.plan given wanted).Returns (p, c) → p.direction = .sell →
          ∃ c', (c.withDelta p.balanceDelta).Returns c') ∧
        (0 < wanted.amount → ∀ n m, ¬(x.plan given wanted).Fails (.curve (.exceedsSupply n m)))) := by
  refine ⟨fun c direction mode supply amount hvalid hweight hin => ?_,
    fun x hx hrate given wanted => ⟨fun p c hp hd => ?_, fun hwanted n m => ?_⟩⟩
  · rcases ends (c.convert direction mode supply amount) with ⟨outcome, h⟩ | ⟨e, h⟩ | ⟨a, h⟩
    · exact ⟨.ok outcome, h, fun _ heq => Except.ok.inj heq ▸ Connector.convert_inside h⟩
    · exact ⟨.error e, h, nofun⟩
    · exact absurd h (Connector.not_aborts_convert hvalid hweight hin)
  · have hwf := hx.wellFormed
    obtain ⟨conf, reg, hplans, -⟩ := returns_plan (fun hc => hwf.balance_le hc) hp
    exact hplans.exists_withDelta hd (hwf.balance_le hplans.connector)
  · exact not_oversold_plan hwanted hrate

/-- A sale of half of a supply under a weight whose reciprocal is not whole, and an exchange whose
reserve redeems above the market. -/
theorem redeemed_sale_stays_inside :
    (∃ answer, ((Connector.Sample.connector 1000 ⟨1428, 4, false⟩).convert .sell .market 1000
        500).run = .ok answer ∧ ∀ outcome, answer = .ok outcome → outcome.amount ≤ 1000) ∧
      ∃ (x : Exchange Pool) (p : Plan) (c c' : Connector), x.Reachable ∧
        (x.plan ⟨100, Sample.smart⟩ ⟨0, Sample.connected⟩).Returns (p, c) ∧
        p.overrideApplied = true ∧ (c.withDelta p.balanceDelta).Returns c' ∧
        ∀ n m, ¬(x.plan ⟨0, Sample.smart⟩ ⟨990, Sample.connected⟩).Fails
          (.curve (.exceedsSupply n m)) := by
  have hinside := evaluations_stay_inside (ρ := Pool)
  constructor
  · obtain ⟨answer, hanswer, h⟩ := hinside.1 (Connector.Sample.connector 1000 ⟨1428, 4, false⟩)
      .sell .market 1000 500 ⟨by decide, by decide, by decide⟩ (by decide) (by decide)
    exact ⟨answer, hanswer, fun outcome ho => (h outcome ho).2.2.2⟩
  · have hyields : Abort.Yields (inMemory.trace (Sample.pledged 10000 (.ofInt 2))) fun r =>
        Abort.Yields (r.2.plan ⟨100, Sample.smart⟩ ⟨0, Sample.connected⟩).run fun answer =>
        Abort.Yields answer fun planned =>
          planned.1.overrideApplied = true ∧ planned.1.direction = .sell ∧
          r.2.reserve = (Pool.empty Pool.defaultAccount).insert
            { derivative := Sample.smart, underlying := ⟨1000, Sample.connected⟩, rate := .ofInt 2 } := by
      decide +kernel
    obtain ⟨r, hr, _, hplan, ⟨p, c⟩, rfl, hover, hd, hreserve⟩ := hyields
    have hrate : ∀ t, ∀ rate ∈ Reserve.rate? r.2.reserve t, rate.Valid := by
      rw [hreserve]
      intro t rate hmem
      obtain ⟨record, hrecord, rfl⟩ := Option.map_eq_some_iff.1 hmem
      rw [Pool.record?, Pool.insert, Table.find?_insert] at hrecord
      split at hrecord
      · cases hrecord
        exact Decimal.valid_ofInt (by decide)
      · cases hrecord
    have hreach : r.2.Reachable := Sample.reachable_trace (by decide) hr
    obtain ⟨c', hc'⟩ := (hinside.2 r.2 hreach hrate _ _).1 p c hplan hd
    exact ⟨r.2, p, c, c', hreach, hplan, hover, hc', (hinside.2 r.2 hreach hrate _ _).2 (by decide)⟩

end Exchange
end BondingCurve
