import BondingCurve.Proofs.Exchange.Locality
import BondingCurve.Proofs.Rate

/-!
# Reserves that are no better than the curve

A conversion looks at a reserve only to compare its rate with the outcome of the curve. A record
whose exact rate is not strictly better for the trader than that outcome might as well not be
there: plans, receipts, errors and aborts are those of the exchange without it
(`unfavourable_record_invisible`). The one thing that gives such a record away is a rate that
leaves the decimal range when it is scaled to smallest units. It is refused wherever the curve has
an outcome that it would be compared with.
-/

namespace BondingCurve

open Outcome

namespace Exchange

section Candidate

variable {ρ : Type} [Reserve ρ] {x : Exchange ρ} {given wanted : Asset} {c : Connector}
  {direction : Direction} {mode : Mode} {supply amount : Amount}

/-! ## What the curve is asked -/

omit [Reserve ρ] in
/-- What the curve would exchange for a request. A rate is compared with that. -/
def candidate (x : Exchange ρ) (given wanted : Asset) : Outcome ExchangeError Rate.Candidate := do
  let mode ← Mode.ofRequest given wanted
  let (direction, c) ← x.route given wanted
  let supply := (← x.ledger.supply c.smart).amount
  let amount ← x.asked c given wanted direction mode
  let curve ← c.convert direction mode supply amount
  return Rate.candidate direction mode amount curve.amount

omit [Reserve ρ] in
theorem returns_candidate {k : Rate.Candidate} :
    (x.candidate given wanted).Returns k ↔
      ∃ (direction : Direction) (mode : Mode) (c : Connector) (reg : Registration)
        (amount : Amount) (curve : Conversion),
        mode.Fits given wanted ∧ (x.route given wanted).Returns (direction, c) ∧
        x.ledger.registration? c.smart = some reg ∧
        x.asked c given wanted direction mode = .ok amount ∧
        (c.convert direction mode reg.supply amount).Returns curve ∧
        k = Rate.candidate direction mode amount curve.amount := by
  simp only [candidate, returns_bind, Mode.returns_ofRequest, returns_liftLedger,
    Ledger.returns_supply, returns_liftPure, returns_liftCurve, returns_pure]
  constructor
  · rintro ⟨mode, hfits, ⟨direction, c⟩, hroute, _, ⟨reg, hreg, rfl⟩, amount, hasks, curve,
      hcurve, rfl⟩
    exact ⟨direction, mode, c, reg, amount, curve, hfits, hroute, hreg, hasks, hcurve, rfl⟩
  · rintro ⟨direction, mode, c, reg, amount, curve, hfits, hroute, hreg, hasks, hcurve, rfl⟩
    exact ⟨mode, hfits, (direction, c), hroute, _, ⟨reg, hreg, rfl⟩, amount, hasks, curve, hcurve,
      rfl⟩

/-- Without a reserve for its token a request is evaluated by the curve alone. -/
theorem evaluate_of_not_hasReserve (h : Reserve.hasReserve x.reserve c.smart = false) :
    x.evaluate c direction mode supply amount = do
      let curve ← c.convert direction mode supply amount
      return (curve, curve, false) := by
  refine bind_congr_of_returns fun {curve} _ => ?_
  rw [chooseOutcome, administeredRate, h]
  rfl

/-- A rate that is no better than the outcome of the curve makes no difference to that. -/
theorem evaluate_of_not_beatenBy {rate raw : Decimal}
    (hhas : Reserve.hasReserve x.reserve c.smart = true)
    (hrate : Reserve.rate? x.reserve c.smart = some rate) (hvalid : rate.Valid)
    (hraw : (Rate.rawRate rate c.smart.precision c.balance.token.precision).Returns raw)
    (hin : 0 < amount → Amount.InRange amount)
    (hworse : ∀ {curve}, (c.convert direction mode supply amount).Returns curve →
      ¬(Rate.candidate direction mode amount curve.amount).BeatenBy
        (Rate.scaled rate c.smart.precision c.balance.token.precision)) :
    x.evaluate c direction mode supply amount = do
      let curve ← c.convert direction mode supply amount
      return (curve, curve, false) := by
  refine bind_congr_of_returns fun {curve} hcurve => ?_
  have hevaluation := Connector.convert_evaluation hcurve
  have hadministered : (x.administeredRate c).Returns (some raw) := by
    rw [administeredRate, if_pos hhas, hrate]
    simp only [returns_bind, returns_pure, Option.some.injEq, exists_eq_right]
    exact hraw
  have hselects := Rate.selectOverride_eq_none hvalid hraw hevaluation.amount_pos
    (hin hevaluation.amount_pos) hevaluation.outcome (hworse hcurve)
  rw [chooseOutcome, hadministered.bind_eq]
  dsimp only
  rw [hselects]
  rfl

/-! ## Rates that cannot be scaled -/

theorem fails_evaluate {rate : Decimal} {curve : Conversion}
    (hhas : Reserve.hasReserve x.reserve c.smart = true)
    (hrate : Reserve.rate? x.reserve c.smart = some rate)
    (hcurve : (c.convert direction mode supply amount).Returns curve)
    (hraw : (Rate.rawRate rate c.smart.precision c.balance.token.precision).Fails .overflow) :
    (x.evaluate c direction mode supply amount).Fails .overflow := by
  have hadministered : (x.administeredRate c).Fails .overflow := by
    rw [administeredRate, if_pos hhas, hrate]
    exact fails_bind.2 (.inl hraw)
  rw [evaluate, hcurve.bind_eq]
  exact fails_bind.2 (.inl (fails_bind.2 (.inl hadministered)))

/-- What the evaluation of a request refuses, its planner does. -/
theorem fails_planBy {e : CurveError} (hpos : 0 < amount)
    (hasks : x.asked c given wanted direction mode = .ok amount)
    (h : (x.evaluate c direction mode supply amount).Fails e) :
    (x.planBy c supply given wanted direction mode).Fails (.curve e) := by
  have hlift : Fails (liftM (x.evaluate c direction mode supply amount) :
      Outcome ExchangeError (Conversion × Conversion × Bool)) (.curve e) :=
    fails_liftCurve.2 ⟨e, h, rfl⟩
  cases direction <;> cases mode
  · obtain ⟨charged, hcharged, rfl⟩ := Abort.map_eq_ok.1 hasks
    refine fails_bind.2 (.inr ⟨charged, returns_liftPure.2 hcharged, ?_⟩)
    exact fails_ite.2 (.inr ⟨not_le.2 hpos, fails_bind.2 (.inl hlift)⟩)
  · obtain rfl := Except.ok.inj hasks
    exact fails_bind.2 (.inl hlift)
  · obtain rfl := Except.ok.inj hasks
    exact fails_bind.2 (.inl hlift)
  · obtain ⟨charged, hcharged, rfl⟩ := Abort.map_eq_ok.1 hasks
    exact fails_bind.2 (.inr ⟨charged, returns_liftPure.2 hcharged, fails_bind.2 (.inl hlift)⟩)

end Candidate

/-! ## Without a record -/

/-- The exchange without the record of `t` in its pool. -/
def without (x : Exchange Pool) (t : Token) : Exchange Pool :=
  { x with reserve := { x.reserve with records := x.reserve.records.erase t } }

/-- An answer, and the exchange behind it without the record of `t`. -/
def Reply.without {α : Type} (reply : Reply Pool α) (t : Token) : Reply Pool α :=
  ⟨reply.answer, reply.exchange.without t⟩

section Settlement

variable {x : Exchange Pool} {t : Token} {sender owner : Account} {c : Connector} {p : Plan}
  {fee given wanted : Asset} {now : Int} {signers : Signers}

theorem payFee_without :
    (x.without t).payFee owner fee = (·.without t) <$> x.payFee owner fee := by
  unfold payFee
  split
  · rw [map_bind]
    rfl
  · rfl

/-- A settlement that redeems nothing does not touch the pool. -/
theorem settle_without (h : p.overrideApplied = false) :
    (x.without t).settle sender c p =
      (fun settled => (settled.1.without t, settled.2)) <$> x.settle sender c p := by
  unfold settle
  rw [map_bind]
  refine bind_congr fun conf => ?_
  rw [map_bind]
  refine bind_congr fun moved => ?_
  rw [map_bind]
  refine bind_congr fun ledger => ?_
  have hfee (l : Ledger) :
      (Exchange.without
        { x with connectors := x.connectors.insert moved.smart.key moved, ledger := l } t).payFee
        conf.owner p.fee = _ := payFee_without
  cases p.direction with
  | buy =>
    refine (congrArg (· >>= _) (hfee ledger)).trans ?_
    rw [bind_map_left, map_bind]
    refine bind_congr fun z => ?_
    rw [map_bind]
    rfl
  | sell =>
    unfold takeIn
    simp only [h, Bool.false_eq_true, if_false, bind_assoc, pure_bind, map_bind]
    refine bind_congr fun taken => ?_
    refine (congrArg (· >>= _) (hfee taken)).trans ?_
    rw [bind_map_left]
    rfl

variable (hplan : (x.without t).plan given wanted = x.plan given wanted)
  (hcurve : ∀ {p c}, (x.plan given wanted).Returns (p, c) → p.overrideApplied = false)
include hplan hcurve

theorem conversion_without :
    (x.without t).conversion sender given wanted =
      (fun settled => (settled.1.without t, settled.2)) <$> x.conversion sender given wanted := by
  unfold conversion
  rw [hplan, map_bind]
  refine bind_congr_of_returns fun {planned} hplanned => ?_
  obtain ⟨p, c⟩ := planned
  dsimp only
  rw [settle_without (hcurve hplanned), bind_map_left, map_bind]
  rfl

/-- A request that is planned alike by the curve is answered alike. -/
theorem convert_without :
    (x.without t).convert now signers sender given wanted =
      (·.without t) <$> x.convert now signers sender given wanted := by
  unfold convert
  rw [map_bind]
  refine bind_congr fun checked => ?_
  cases checked with
  | error e => rfl
  | ok u =>
    dsimp only
    rw [conversion_without hplan hcurve, ExceptT.run_map, bind_map_left, map_bind]
    refine bind_congr fun result => ?_
    cases result <;> rfl

end Settlement

section Record

variable {x : Exchange Pool} {t : Token} {r : ReserveRecord} {given wanted : Asset}

/-- The smart token of a request and the connected token are those of its connector. -/
theorem WellFormed.tokens_of_route (hx : x.WellFormed) {direction : Direction} {c : Connector}
    {connected : Token} (ht : x.traded? given wanted = some t)
    (hconnected : x.connected? = some connected)
    (hroute : (x.route given wanted).Returns (direction, c)) :
    c.smart = t ∧ c.balance.token = connected := by
  obtain ⟨conf, hroutes⟩ := returns_route hroute
  refine ⟨Option.some.inj (hroutes.traded?.symm.trans ht), ?_⟩
  exact Option.some.inj ((hx.fits hroutes.connector).connected.symm.trans hconnected)

theorem hasReserve_of_record? (hr : x.reserve.record? t = some r) :
    Reserve.hasReserve x.reserve t = true ∧ Reserve.rate? x.reserve t = some r.rate := by
  constructor
  · show (x.reserve.records.find? t).isSome = true
    rw [show x.reserve.records.find? t = some r from hr]
    rfl
  · show (x.reserve.record? t).map (·.rate) = some r.rate
    rw [hr]
    rfl

theorem not_hasReserve_without : Reserve.hasReserve (x.without t).reserve t = false := by
  show ((x.reserve.records.erase t).find? t).isSome = false
  rw [Table.find?_erase_self]
  rfl

variable (hx : x.WellFormed) (ht : x.traded? given wanted = some t)
  (hconnected : x.connected? = some r.underlying.token) (hr : x.reserve.record? t = some r)
include hx ht hconnected hr

/-- A record that is no better than the curve has no part in a plan. -/
theorem plan_without {raw : Decimal} (hvalid : r.rate.Valid)
    (hraw : (Rate.rawRate r.rate t.precision r.underlying.token.precision).Returns raw)
    (hgiven : Amount.InRange given.amount) (hwanted : Amount.InRange wanted.amount)
    (hworse : ∀ k, (x.candidate given wanted).Returns k →
      ¬k.BeatenBy (Rate.scaled r.rate t.precision r.underlying.token.precision)) :
    (x.without t).plan given wanted = x.plan given wanted := by
  refine plan_eq_of_evaluate rfl (fun _ => rfl) (fun _ => rfl) ?_
  intro direction mode c reg amount hfits hroute hreg hasks
  obtain ⟨rfl, htoken⟩ := hx.tokens_of_route ht hconnected hroute
  obtain ⟨hhas, hrate⟩ := hasReserve_of_record? hr
  rw [← htoken] at hraw hworse
  rw [evaluate_of_not_hasReserve not_hasReserve_without,
    evaluate_of_not_beatenBy hhas hrate hvalid hraw
      (fun hpos => asked_inRange hgiven hwanted hpos hasks)]
  intro curve hcurve
  exact hworse _ (returns_candidate.2
    ⟨direction, mode, c, reg, amount, curve, hfits, hroute, hreg, hasks, hcurve, rfl⟩)

/-- A record whose rate cannot be scaled blocks what the curve has an outcome for. -/
theorem fails_quote {k : Rate.Candidate}
    (hraw : (Rate.rawRate r.rate t.precision r.underlying.token.precision).Fails .overflow)
    (hk : (x.candidate given wanted).Returns k) :
    (x.quote given wanted).Fails (.curve .overflow) := by
  obtain ⟨direction, mode, c, reg, amount, curve, hfits, hroute, hreg, hasks, hcurve, -⟩ :=
    returns_candidate.1 hk
  obtain ⟨rfl, htoken⟩ := hx.tokens_of_route ht hconnected hroute
  obtain ⟨hhas, hrate⟩ := hasReserve_of_record? hr
  rw [← htoken] at hraw
  have hplanner := fails_planBy (Connector.convert_evaluation hcurve).amount_pos hasks
    (fails_evaluate hhas hrate hcurve hraw)
  have hsupply := returns_liftLedger.2 (Ledger.returns_supply.2 ⟨reg, hreg, rfl⟩)
  rw [quote, plan_eq_bind_planBy, (Mode.returns_ofRequest.2 hfits).bind_eq, hroute.bind_eq]
  dsimp only
  rw [hsupply.bind_eq]
  exact fails_bind.2 (.inl (fails_bind.2 (.inl hplanner)))

omit hconnected hr in
/-- A plan without a record is one of the curve. -/
theorem not_overrideApplied_without {p : Plan} {c : Connector}
    (h : ((x.without t).plan given wanted).Returns (p, c)) : p.overrideApplied = false := by
  have hbalance {u : Token} {c : Connector} (hc : (x.without t).connector? u = some c) :
      c.balance.amount ≤ Amount.greatest :=
    hx.balance_le (show x.connector? u = some c from hc)
  obtain ⟨conf, reg, hplans, -⟩ := returns_plan hbalance h
  refine hplans.not_overrideApplied fun t' ht' => ?_
  have ht' : x.traded? given wanted = some t' := ht'
  obtain rfl : t' = t := Option.some.inj (ht'.symm.trans ht)
  exact not_hasReserve_without

end Record

end Exchange

namespace Sample

/-- A token without decimals. -/
def whole : Token := ⟨⟨"ONE", 0⟩, ⟨"gxc.token"⟩⟩

/-- A market for whole tokens, half of whose worth lies behind them, and a reserve that quotes a
rate for them. -/
def quoted (rate : Decimal) : List (Exchange.Action Pool) :=
  [.ledger (.createToken connected 1000000), .ledger (.createToken whole 1000000),
    .ledger (.issue owner ⟨20000, connected⟩ ""), .ledger (.issue alice ⟨50000, connected⟩ ""),
    .ledger (.issue alice ⟨30000, whole⟩ ""), .init 0 [contract] owner connected,
    .connect 0 [contract] whole ⟨20000, connected⟩ ⟨5, 1, false⟩,
    .reserve ((Pool.empty Pool.defaultAccount).insert
      { derivative := whole, underlying := ⟨1000, connected⟩, rate })]

end Sample

namespace Exchange

/-- A record behind a smart token whose exact rate between smallest units is not strictly better
for the trader than what the curve would exchange. As long as the rate can be scaled to smallest
units, plans, receipts, errors and aborts are those of the exchange without that record. Where it
cannot, a request that the curve has an outcome for is refused. -/
theorem unfavourable_record_invisible {x : Exchange Pool} {t : Token} {r : ReserveRecord}
    {given wanted : Asset} (hx : x.Reachable) (ht : x.traded? given wanted = some t)
    (hr : x.reserve.record? t = some r) (hconnected : x.connected? = some r.underlying.token)
    (hvalid : r.rate.Valid) (hgiven : Amount.InRange given.amount)
    (hwanted : Amount.InRange wanted.amount)
    (hworse : ∀ k, (x.candidate given wanted).Returns k →
      ¬k.BeatenBy (Rate.scaled r.rate t.precision r.underlying.token.precision)) :
    (∀ raw, (Rate.rawRate r.rate t.precision r.underlying.token.precision).Returns raw →
      (x.without t).quote given wanted = x.quote given wanted ∧
      ∀ now signers sender, (x.without t).convert now signers sender given wanted =
        (·.without t) <$> x.convert now signers sender given wanted) ∧
    ((∀ raw, ¬(Rate.rawRate r.rate t.precision r.underlying.token.precision).Returns raw) →
      ∀ k, (x.candidate given wanted).Returns k →
        (x.quote given wanted).Fails (.curve .overflow)) := by
  have hx := hx.wellFormed
  constructor
  · intro raw hraw
    have hplan := plan_without hx ht hconnected hr hvalid hraw hgiven hwanted hworse
    refine ⟨by rw [quote, hplan, quote], fun now signers sender => ?_⟩
    refine convert_without hplan fun {p c} hp => ?_
    rw [← hplan] at hp
    exact not_overrideApplied_without hx ht hp
  · intro hraw k hk
    exact fails_quote hx ht hconnected hr (Rate.fails_rawRate hraw) hk

/-- A thousand units buy 740 whole tokens of the curve. A reserve that asks two whole connected
tokens for each of them, which is twenty thousand units, makes no difference. -/
theorem dear_record_invisible :
    ∃ (x : Exchange Pool) (r : ReserveRecord) (p : Plan), x.Reachable ∧
      x.reserve.record? Sample.whole = some r ∧ r.rate = .ofInt 2 ∧
      (x.quote ⟨1000, Sample.connected⟩ ⟨0, Sample.whole⟩).Returns p ∧ p.receive.amount = 740 ∧
      (x.without Sample.whole).quote ⟨1000, Sample.connected⟩ ⟨0, Sample.whole⟩ =
        x.quote ⟨1000, Sample.connected⟩ ⟨0, Sample.whole⟩ ∧
      (x.without Sample.whole).convert 0 [Sample.alice] Sample.alice ⟨1000, Sample.connected⟩
          ⟨0, Sample.whole⟩ =
        (·.without Sample.whole) <$> x.convert 0 [Sample.alice] Sample.alice
          ⟨1000, Sample.connected⟩ ⟨0, Sample.whole⟩ := by
  have hyields : Abort.Yields (inMemory.trace (Sample.quoted (.ofInt 2))) fun r =>
      r.2.traded? ⟨1000, Sample.connected⟩ ⟨0, Sample.whole⟩ = some Sample.whole ∧
      r.2.reserve.record? Sample.whole = some ⟨Sample.whole, ⟨1000, Sample.connected⟩, .ofInt 2⟩ ∧
      r.2.connected? = some Sample.connected ∧
      Abort.Yields (r.2.candidate ⟨1000, Sample.connected⟩ ⟨0, Sample.whole⟩).run (fun answer =>
        Abort.Yields answer fun k => k = ⟨.buy, 1000, 740⟩) ∧
      Abort.Yields (r.2.quote ⟨1000, Sample.connected⟩ ⟨0, Sample.whole⟩).run (fun answer =>
        Abort.Yields answer fun p => p.receive.amount = 740) := by
    decide +kernel
  have hscales : Abort.Yields (Rate.rawRate (.ofInt 2) 0 4).run fun answer =>
      Abort.Yields answer fun raw => raw = .ofInt 20000 := by
    decide +kernel
  obtain ⟨r, hr, ht, hrecord, hconnected, ⟨_, hk, k, rfl, hbuys⟩, _, hp, p, rfl, hreceive⟩ :=
    hyields
  obtain ⟨_, hraw, raw, rfl, -⟩ := hscales
  have hreachable := Sample.reachable_trace (by decide) hr
  have hworse : ∀ k, (r.2.candidate ⟨1000, Sample.connected⟩ ⟨0, Sample.whole⟩).Returns k →
      ¬k.BeatenBy (Rate.scaled (.ofInt 2) Sample.whole.precision Sample.connected.precision) := by
    intro k' hk'
    obtain rfl := hk'.unique hk
    rw [hbuys]
    rintro ⟨-, hless⟩
    norm_num [Rate.scaled, Sample.whole, Sample.connected, Token.precision] at hless
  have hsame := unfavourable_record_invisible hreachable ht hrecord hconnected
    (Decimal.valid_ofInt (by decide)) (by decide) (by decide) hworse
  obtain ⟨hquote, hconvert⟩ := hsame.1 raw hraw
  exact ⟨r.2, _, p, hreachable, hrecord, rfl, hp, hreceive, hquote, hconvert 0 [_] _⟩

/-- A reserve that asks a vast price for a whole token is no better than the curve. Scaled to
smallest units its rate does not fit into a decimal, and so nobody is quoted what the curve has to
offer. -/
theorem vast_rate_refused :
    ∃ (x : Exchange Pool) (r : ReserveRecord) (p : Plan), x.Reachable ∧
      x.traded? ⟨1000, Sample.connected⟩ ⟨0, Sample.whole⟩ = some Sample.whole ∧
      x.reserve.record? Sample.whole = some r ∧
      x.connected? = some r.underlying.token ∧ r.rate.Valid ∧
      (∀ k, (x.candidate ⟨1000, Sample.connected⟩ ⟨0, Sample.whole⟩).Returns k →
        ¬k.BeatenBy (Rate.scaled r.rate Sample.whole.precision r.underlying.token.precision)) ∧
      (x.quote ⟨1000, Sample.connected⟩ ⟨0, Sample.whole⟩).Fails (.curve .overflow) ∧
      ((x.without Sample.whole).quote ⟨1000, Sample.connected⟩ ⟨0, Sample.whole⟩).Returns p := by
  have hyields : Abort.Yields (inMemory.trace (Sample.quoted (.ofInt (10 ^ 25)))) fun r =>
      r.2.traded? ⟨1000, Sample.connected⟩ ⟨0, Sample.whole⟩ = some Sample.whole ∧
      r.2.reserve.record? Sample.whole =
        some ⟨Sample.whole, ⟨1000, Sample.connected⟩, .ofInt (10 ^ 25)⟩ ∧
      r.2.connected? = some Sample.connected ∧
      Abort.Yields (r.2.candidate ⟨1000, Sample.connected⟩ ⟨0, Sample.whole⟩).run (fun answer =>
        Abort.Yields answer fun k => k = ⟨.buy, 1000, 740⟩) ∧
      (r.2.quote ⟨1000, Sample.connected⟩ ⟨0, Sample.whole⟩).run =
        .ok (.error (.curve .overflow)) ∧
      Abort.Yields ((r.2.without Sample.whole).quote ⟨1000, Sample.connected⟩
        ⟨0, Sample.whole⟩).run (fun answer => Abort.Yields answer fun _ => True) := by
    decide +kernel
  obtain ⟨r, hr, ht, hrecord, hconnected, ⟨_, hk, k, rfl, hbuys⟩, hquote, _, hp, p, rfl, -⟩ :=
    hyields
  refine ⟨r.2, _, p, Sample.reachable_trace (by decide) hr, ht, hrecord, hconnected,
    Decimal.valid_ofInt (by decide), fun k' hk' => ?_, hquote, hp⟩
  obtain rfl := hk'.unique hk
  rw [hbuys]
  rintro ⟨-, hless⟩
  norm_num [Rate.scaled, Sample.whole, Sample.connected, Token.precision] at hless

end Exchange
end BondingCurve
