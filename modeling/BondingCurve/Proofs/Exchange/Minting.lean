import BondingCurve.Proofs.Exchange.Success
import BondingCurve.Proofs.Ledger.Cap

/-!
# Conversions that mint

The last leg of a buy mints what was bought. In a reachable exchange it is the only leg that can
abort: the payment and the fee are transfers, and no transfer in a consistent ledger aborts.
`aborts_settle_buy` says when it does, namely where the smart token has a cap of the greatest amount
and the buy would pass it (`Overruns`). The legs before it have gone through by then.
-/

namespace BondingCurve

open Outcome

theorem Connector.not_aborts_withDelta {c : Connector} {delta : Amount} {a : Abort}
    (h : 0 ≤ c.balance.amount + delta) : ¬(c.withDelta delta).Aborts a := by
  unfold withDelta Amount.add? Amount.ofInt?
  by_cases hrange : Amount.InRange (c.balance.amount + delta)
  · simp [hrange, not_lt.2 h]
  · simp [hrange]

namespace Exchange

variable {ρ : Type} {x : Exchange ρ} {sender owner : Account} {c : Connector} {p : Plan}
  {conf : Configuration} {reg : Registration} {given wanted : Asset} {a : Abort}

theorem not_aborts_payFee {fee : Asset} (hx : x.ledger.Consistent) :
    ¬(x.payFee owner fee).Aborts a := by
  simp only [payFee, aborts_ite, aborts_bind, aborts_liftLedger, not_aborts_pure,
    hx.not_aborts_transfer, and_false, exists_false, or_false, not_false_eq_true]

theorem not_aborts_requireConfiguration : ¬x.requireConfiguration.Aborts a := by
  unfold requireConfiguration
  split
  · exact not_aborts_pure
  · exact not_aborts_throw

/-- A buy whose payment and fee go through, and which then asks for more than a cap of the greatest
amount leaves. -/
structure Overruns (x : Exchange ρ) (sender : Account) (c : Connector) (p : Plan)
    (conf : Configuration) (reg : Registration) (paid charged : Ledger) : Prop where
  delta_inRange : Amount.InRange (c.balance.amount + p.balanceDelta)
  pays : (x.ledger.transfer sender x.contract p.pay convertMemo).Returns paid
  charges : x.FeePaid paid conf.owner p.fee charged
  token_eq : reg.token = p.receive.token
  cap_eq : reg.maxSupply = Amount.greatest
  passes : Amount.greatest < reg.supply + p.receive.amount

variable [Reserve ρ]

/-- The legs before the mint leave the registration and the trader as they were. -/
theorem mintable_iff {paid charged : Ledger} (hx : x.WellFormed) (hd : p.direction = .buy)
    (hp : x.Plans given wanted conf c reg p)
    (hpays : (x.ledger.transfer sender x.contract p.pay convertMemo).Returns paid)
    (hcharges : x.FeePaid paid conf.owner p.fee charged) {reg' : Registration} :
    charged.Mintable reg' sender p.receive ↔ reg' = reg ∧ reg.token = p.receive.token := by
  have hpaid := Ledger.transfer_effect hpays
  have hcharged := hpaid.trans (hcharges.effect hp.fee_nonneg)
  rw [zero_add] at hcharged
  have hreg : charged.registration? p.receive.token = some reg := by
    rw [hcharged.registration?_eq, (hp.buy_tokens hd).2.2, hp.registration]
  constructor
  · intro hv
    obtain rfl := Option.some.inj (hv.registration.symm.trans hreg)
    exact ⟨rfl, hv.token_eq⟩
  · intro hv
    obtain ⟨rfl, htoken⟩ := hv
    have hactive := (hx.ledger.returns_transfer.1 hpays).1.sender_active
    rw [← hcharged.isFrozen] at hactive
    exact ⟨hp.receive_pos, hreg, htoken, hactive⟩

/-- The settlement of a buy aborts where it overruns, and nowhere else. -/
theorem aborts_settle_buy (hx : x.WellFormed) (hd : p.direction = .buy)
    (hp : x.Plans given wanted conf c reg p) :
    (x.settle sender c p).Aborts a ↔
      a = .amountSum ∧ ∃ paid charged, x.Overruns sender c p conf reg paid charged := by
  have hdelta : 0 ≤ c.balance.amount + p.balanceDelta :=
    Int.add_nonneg hp.balance_pos.le (hp.buys hd).1
  simp only [settle, hd, aborts_bind, not_aborts_requireConfiguration,
    returns_requireConfiguration, aborts_liftCurve, Connector.not_aborts_withDelta hdelta,
    returns_liftCurve, Connector.returns_withDelta, aborts_liftLedger,
    hx.ledger.not_aborts_transfer, returns_liftLedger, returns_payFee, not_aborts_pure, and_false,
    exists_false, or_false, false_or]
  constructor
  · intro habort
    obtain ⟨conf', hconf, _, ⟨hrange, _, rfl⟩, paid, hpays, habort⟩ := habort
    obtain rfl := Option.some.inj (hconf.symm.trans hp.configuration)
    have hpaid : paid.Consistent := hx.ledger.transfer hpays
    rcases habort with hfee | ⟨_, ⟨charged, hcharges, rfl⟩, hmint⟩
    · exact absurd hfee (not_aborts_payFee hpaid)
    · obtain ⟨reg', hv, hcap, hpasses, ha⟩ := (hpaid.moves hcharges.moves).aborts_issue.1 hmint
      obtain ⟨rfl, htoken⟩ := (mintable_iff hx hd hp hpays hcharges).1 hv
      exact ⟨ha, paid, charged, hrange, hpays, hcharges, htoken, hcap, hpasses⟩
  · intro hover
    obtain ⟨ha, paid, charged, h⟩ := hover
    have hpaid : paid.Consistent := hx.ledger.transfer h.pays
    have hv := (mintable_iff hx hd hp h.pays h.charges).2 ⟨rfl, h.token_eq⟩
    have hmint : (charged.issue sender p.receive convertMemo).Aborts a :=
      (hpaid.moves h.charges.moves).aborts_issue.2 ⟨reg, hv, h.cap_eq, h.passes, ha⟩
    exact ⟨conf, hp.configuration, _, ⟨h.delta_inRange, hdelta, rfl⟩, paid, h.pays,
      .inr ⟨_, ⟨charged, h.charges, rfl⟩, hmint⟩⟩

/-- A request that has passed its checks and has a plan aborts in the settlement of the plan. -/
theorem convert_eq_abort {now : Int} {signers : Signers}
    (hcheck : (x.checkRequest signers sender given wanted).Returns ())
    (hplan : (x.plan given wanted).Returns (p, c)) :
    x.convert now signers sender given wanted = .error a ↔ (x.settle sender c p).Aborts a := by
  have hconversion : (x.conversion sender given wanted).Aborts a ↔
      (x.settle sender c p).Aborts a := by
    rw [conversion, hplan.bind_eq]
    simp only [aborts_bind, not_aborts_pure, and_false, exists_false, or_false]
  rw [← hconversion, convert, hcheck]
  rcases hends : (x.conversion sender given wanted).run with b | e | ⟨y, receipt⟩
  · simp [bind, Except.bind, Outcome.aborts_def, hends]
  · simp [bind, Except.bind, Outcome.aborts_def, hends, pure, Except.pure]
  · simp [bind, Except.bind, Outcome.aborts_def, hends, pure, Except.pure]

variable [LawfulReserve ρ]

/-- On a ledger after any history of calls, minting succeeds up to the cap, adding exactly what is
asked for. Beyond it, minting is refused and changes nothing if the cap is below the greatest
amount, and aborts if it is the greatest amount. In a reachable exchange, that is also the only way
in which a buy with a plan aborts. -/
theorem minting_ends :
    (∀ {cs : List Ledger.Call} {l : Ledger} {reg : Registration} {r : Account} {v : Asset}
      (memo : String), (∀ c ∈ cs, c.InRange) → Ledger.empty.afterAll cs = .ok l →
      l.Mintable reg r v →
      (∀ l', (l.issue r v memo).Returns l' ↔
        reg.supply + v.amount ≤ reg.maxSupply ∧ l' = l.issued reg r v memo) ∧
      (l.issued reg r v memo).registration? v.token =
        some { reg with supply := reg.supply + v.amount } ∧
      (∀ e, (l.issue r v memo).Fails e ↔ reg.maxSupply < reg.supply + v.amount ∧
        reg.maxSupply < Amount.greatest ∧
        e = .maxSupplyExceeded v.token v.amount reg.maxSupply) ∧
      (∀ e, (l.issue r v memo).Fails e → l.after (.issue r v memo) = .ok l) ∧
      ∀ a, (l.issue r v memo).Aborts a ↔ reg.maxSupply = Amount.greatest ∧
        Amount.greatest < reg.supply + v.amount ∧ a = .amountSum) ∧
    ∀ {x : Exchange ρ} (now : Int) {signers : Signers} {sender : Account} {given wanted : Asset}
      {p : Plan} {c : Connector}, x.Reachable →
      (x.checkRequest signers sender given wanted).Returns () →
      (x.plan given wanted).Returns (p, c) → p.direction = .buy →
      ∃ conf reg, x.configuration.get? = some conf ∧
        x.ledger.registration? c.smart = some reg ∧
        ∀ a, x.convert now signers sender given wanted = .error a ↔ a = .amountSum ∧
          ∃ paid charged, x.Overruns sender c p conf reg paid charged := by
  constructor
  · intro cs l reg r v memo hcs hl hv
    have hconsistent := Ledger.consistent_afterAll hcs hl
    exact ⟨fun l' => hv.returns_issue hconsistent, hv.registration?_issued,
      fun e => hv.fails_issue hconsistent,
      fun e he => Ledger.after_of_fails (c := .issue r v memo) he,
      fun a => hv.aborts_issue hconsistent⟩
  · intro x now signers sender given wanted p c hx hcheck hplan hd
    have hwf := hx.wellFormed
    obtain ⟨conf, reg, hp, _⟩ := returns_plan (fun hc => hwf.balance_le hc) hplan
    refine ⟨conf, reg, hp.configuration, hp.registration, ?_⟩
    intro a
    rw [convert_eq_abort hcheck hplan]
    exact aborts_settle_buy hwf hd hp

end Exchange

/-! ## A supply at its end -/

namespace Sample

/-- A market for a token of which all but ten units of the greatest amount are in circulation. -/
def crowded : List (Exchange.Action Pool) :=
  [.ledger (.createToken connected 1000000), .ledger (.createToken smart Amount.greatest),
    .ledger (.issue owner ⟨1000, connected⟩ ""), .ledger (.issue alice ⟨1, connected⟩ ""),
    .ledger (.issue owner ⟨Amount.greatest - 10, smart⟩ ""), .init 0 [contract] owner connected,
    .connect 0 [contract] smart ⟨1000, connected⟩ .one]

end Sample

namespace Exchange

/-- A cap of a hundred refuses the hundred and first unit. Alice's unit buys more of the crowded
token than its cap leaves, so her request has no answer. -/
theorem crowded_buy_aborts :
    (∃ l, Ledger.empty.afterAll Ledger.Sample.mixed = .ok l ∧
      (l.issue Ledger.Sample.other ⟨51, Ledger.Sample.coin⟩ "").Fails
        (.maxSupplyExceeded Ledger.Sample.coin 51 100)) ∧
    ∃ x : Exchange Pool, x.Reachable ∧
      x.convert 0 [Sample.alice] Sample.alice ⟨1, Sample.connected⟩ ⟨0, Sample.smart⟩ =
        .error .amountSum ∧
      ∃ c p conf reg paid charged, x.Overruns Sample.alice c p conf reg paid charged := by
  obtain ⟨hledger, hexchange⟩ := @minting_ends Pool _ _
  constructor
  · have hyields : Abort.Yields (Ledger.empty.afterAll Ledger.Sample.mixed) fun l =>
        l.registration? Ledger.Sample.coin = some ⟨Ledger.Sample.coin, 50, 100⟩ ∧
          l.isFrozen Ledger.Sample.other = false := by
      decide +kernel
    obtain ⟨l, hl, hreg, hactive⟩ := hyields
    have hv : l.Mintable ⟨Ledger.Sample.coin, 50, 100⟩ Ledger.Sample.other
        ⟨51, Ledger.Sample.coin⟩ := ⟨by decide, hreg, rfl, hactive⟩
    obtain ⟨_, _, hfails, _⟩ := hledger "" (by decide) hl hv
    exact ⟨l, hl, (hfails _).2 ⟨by decide, by decide, rfl⟩⟩
  · have hyields : Abort.Yields (inMemory.trace Sample.crowded) fun r =>
        Abort.Yields (r.2.checkRequest [Sample.alice] Sample.alice ⟨1, Sample.connected⟩
          ⟨0, Sample.smart⟩).run (fun answer => Abort.Yields answer fun _ => True) ∧
        Abort.Yields (r.2.plan ⟨1, Sample.connected⟩ ⟨0, Sample.smart⟩).run fun answer =>
          Abort.Yields answer fun planned => planned.1.direction = .buy ∧
            (r.2.settle Sample.alice planned.2 planned.1).Aborts .amountSum := by
      decide +kernel
    obtain ⟨r, hr, ⟨_, hcheck, _, rfl, _⟩, _, hplan, ⟨p, c⟩, rfl, hd, habort⟩ := hyields
    have hreach : r.2.Reachable := Sample.reachable_trace (by decide) hr
    obtain ⟨conf, reg, _, _, hiff⟩ := hexchange 0 hreach hcheck hplan hd
    have hconvert : r.2.convert 0 [Sample.alice] Sample.alice ⟨1, Sample.connected⟩
        ⟨0, Sample.smart⟩ = .error .amountSum := (convert_eq_abort hcheck hplan).2 habort
    obtain ⟨_, paid, charged, hover⟩ := (hiff _).1 hconvert
    exact ⟨r.2, hreach, hconvert, c, p, conf, reg, paid, charged, hover⟩

/-- With the greatest amount in circulation under a cap as great, one more unit passes the cap and
is not refused. -/
theorem full_supply_not_refused :
    ∃ l, Ledger.empty.afterAll [.createToken Ledger.Sample.coin Amount.greatest,
        .issue Ledger.Sample.holder ⟨Amount.greatest, Ledger.Sample.coin⟩ ""] = .ok l ∧
      l.Mintable ⟨Ledger.Sample.coin, Amount.greatest, Amount.greatest⟩ Ledger.Sample.holder
        ⟨1, Ledger.Sample.coin⟩ ∧
      (l.issue Ledger.Sample.holder ⟨1, Ledger.Sample.coin⟩ "").Aborts .amountSum ∧
      ∀ e, ¬(l.issue Ledger.Sample.holder ⟨1, Ledger.Sample.coin⟩ "").Fails e := by
  have hyields : Abort.Yields (Ledger.empty.afterAll
      [.createToken Ledger.Sample.coin Amount.greatest,
        .issue Ledger.Sample.holder ⟨Amount.greatest, Ledger.Sample.coin⟩ ""]) fun l =>
      l.registration? Ledger.Sample.coin =
        some ⟨Ledger.Sample.coin, Amount.greatest, Amount.greatest⟩ ∧
      l.isFrozen Ledger.Sample.holder = false ∧
      (l.issue Ledger.Sample.holder ⟨1, Ledger.Sample.coin⟩ "").Aborts .amountSum := by
    decide +kernel
  obtain ⟨l, hl, hreg, hactive, habort⟩ := hyields
  exact ⟨l, hl, ⟨by decide, hreg, rfl, hactive⟩, habort, fun _ => habort.not_fails⟩

end Exchange
end BondingCurve
