import BondingCurve.Proofs.Exchange.Solvency
import BondingCurve.Proofs.Rate

/-!
# Sales redeemed by a pool

A sale that overrides the curve is redeemed by the pool when it is settled: the pool pays what the
sold tokens are worth at its rate, rounded down. That is reckoned anew from the tokens that the
plan takes, so it need not be what the plan promised from the tokens that were offered. Where the
exact worth covers the promise, or nothing is refunded, the payout covers it too
(`redemption_covers`). `refund_sale_refused` is a sale where it falls short by one unit.
-/

namespace BondingCurve

open Outcome

/-! ## Claims that are paid -/

namespace Pool

variable {p : Pool} {l : Ledger} {owner : Account} {value : Asset}

/-- A claim of which it is known what is computed for it is paid where the record covers that, the
tokens can be burned, and the pool's account has the payout. -/
theorem exists_claim {r : ReserveRecord} {n : Amount} (hl : l.Consistent)
    (howed : (p.owed value).Returns (r, n))
    (hregistered : l.Registers value.token) (howner : l.isFrozen owner = false)
    (hcovered : value.amount ≤ l.balanceOf owner value.token)
    (hne : r.underlying.token ≠ value.token) (hactive : l.isFrozen p.account = false)
    (hheld : n ≤ l.balanceOf p.account r.underlying.token) :
    ∃ paid, p.claim l owner value =
      .ok ⟨.ok (r.underlying.withAmount n), paid, p.pay value.token r n⟩ := by
  obtain ⟨reg, hreg, htoken⟩ := hregistered
  have hcan : l.CanRetire reg owner value :=
    ⟨(returns_owed.1 howed).1, hreg, htoken, howner, hcovered⟩
  obtain ⟨burnt, hretire⟩ := Ledger.exists_retire claimMemo hcan
  by_cases hpos : 0 < n
  · have hunderlying : l.Registers r.underlying.token := hl.registers (hpos.trans_le hheld).ne'
    -- burning the value leaves the pool's account alone
    have hpayable : n ≤ l.balanceOf p.account r.underlying.token -
        value.on owner p.account r.underlying.token := by
      rwa [Asset.on_of_token_ne hne, sub_zero]
    obtain ⟨paid, hpaid⟩ := (hl.retire hretire).exists_transfer claimMemo
      ((canTransfer_payout_iff hpos hcan hretire).2 ⟨hactive, hunderlying, hpayable⟩)
    exact ⟨paid, claim_eq_ok.2 (.paid howed hretire hpos hpaid)⟩
  · exact ⟨burnt, claim_eq_ok.2 (.worthless howed hretire hpos)⟩

end Pool

/-! ## Override sales -/

namespace Exchange

variable {x : Exchange Pool} {given wanted : Asset} {p : Plan} {c : Connector}
  {r : ReserveRecord} {raw : Decimal} {n : Amount}

/-- What the sold tokens of a plan are worth, exactly, at the rate `raw` between units. -/
def worth (p : Plan) (raw : Decimal) : ℚ := p.pay.amount * raw.toRat

/-- The record `r` stands behind the sold tokens of a plan, in the token that the seller receives.
Record and pool account cover whatever a claim of those tokens computes at the record's rate,
which is `raw` between units. -/
structure Backs (x : Exchange Pool) (p : Plan) (r : ReserveRecord) (raw : Decimal) : Prop where
  record : x.reserve.record? p.pay.token = some r
  underlying : r.underlying.token = p.receive.token
  rate : (Rate.rawRate r.rate p.pay.token.precision r.underlying.token.precision).Returns raw
  covered : ∀ n, r.Computes p.pay n → n ≤ r.underlying.amount
  held : ∀ n, r.Computes p.pay n →
    n ≤ x.ledger.balanceOf x.reserve.account r.underlying.token

/-- Tokens whose exact worth is covered are backed. -/
theorem Backs.of_worth (hrecord : x.reserve.record? p.pay.token = some r)
    (htoken : r.underlying.token = p.receive.token)
    (hraw : (Rate.rawRate r.rate p.pay.token.precision r.underlying.token.precision).Returns raw)
    (hpay : 0 ≤ p.pay.amount) (hrate : 0 ≤ raw.toRat)
    (hcovered : worth p raw ≤ r.underlying.amount)
    (hheld : worth p raw ≤ x.ledger.balanceOf x.reserve.account r.underlying.token) :
    x.Backs p r raw where
  record := hrecord
  underlying := htoken
  rate := hraw
  covered n hn := by
    obtain ⟨_, -, -, -, hle⟩ := hn.near hraw hpay hrate
    exact hle.trans (Int.ceil_le.2 hcovered)
  held n hn := by
    obtain ⟨_, -, -, -, hle⟩ := hn.near hraw hpay hrate
    exact hle.trans (Int.ceil_le.2 hheld)

/-- The payout certainly covers what the seller and the owner receive: it does so exactly, or
nothing of what was offered is refunded. -/
def CertainlyPaid (p : Plan) (raw : Decimal) : Prop :=
  ((p.receive.amount + p.fee.amount : ℤ) : ℚ) ≤ worth p raw ∨
    (p.mode = .market ∧ p.refund.amount = 0)

/-- An outcome that overrides the curve is that of the reserve's rate. -/
theorem returns_evaluate_convert {direction : Direction} {mode : Mode} {supply amount : Amount}
    {curve chosen : Conversion}
    (h : (x.evaluate c direction mode supply amount).Returns (curve, chosen, true)) :
    ∃ rate raw, Reserve.rate? x.reserve c.smart = some rate ∧
      (Rate.rawRate rate c.smart.precision c.balance.token.precision).Returns raw ∧
      (Rate.convert direction mode amount raw).Returns chosen := by
  obtain ⟨rate, raw, hrate, hraw, hselect⟩ := returns_evaluate_override h
  obtain ⟨_, _, _, hconvert⟩ := Rate.returns_selectOverride hselect
  exact ⟨rate, raw, hrate, hraw, hconvert⟩

/-- An override sale is planned at a positive rate. Where nothing of a market input is refunded,
the promise is the worth of the whole input. -/
theorem returns_planBy_redeemed {supply : Amount} {mode : Mode}
    (hp : (x.planBy c supply given wanted .sell mode).Returns p)
    (hover : p.overrideApplied = true) :
    ∃ rate raw, Reserve.rate? x.reserve c.smart = some rate ∧
      (Rate.rawRate rate c.smart.precision c.balance.token.precision).Returns raw ∧
      0 < raw.toRat ∧ 0 ≤ p.pay.amount ∧ (mode = .market → p.refund.amount = 0 →
        ∃ d, p.pay.units.mul raw = .ok d ∧ p.receive.amount + p.fee.amount = ⌊d.toRat⌋) := by
  cases mode with
  | market =>
    obtain ⟨charged, curve, chosen, _, unused, heval, hcharged, hnet, hunused, rfl⟩ :=
      returns_planSell hp
    obtain rfl := hover
    obtain ⟨rate, raw, hrate, hraw, hconvert⟩ := returns_evaluate_convert heval
    obtain ⟨hgiven, hpos, -⟩ := Rate.convert_rounds hconvert
    have hused := Conversion.unusedShare_le (Rate.convert_isOutcome hconvert) hgiven.le hunused
    refine ⟨rate, raw, hrate, hraw, hpos, Int.sub_nonneg.2 hused, ?_⟩
    intro _ hrefund
    obtain ⟨d, hd, hamount⟩ := Rate.convert_sell_market hconvert
    have hnone : unused = 0 := hrefund
    obtain ⟨_, hrest⟩ := FeePolicy.charge_nonRequired hcharged
    refine ⟨d, ?_, ?_⟩
    · show (Decimal.ofInt (given.amount - unused)).mul raw = .ok d
      rwa [hnone, sub_zero]
    · show charged.net + charged.fee = ⌊d.toRat⌋
      rw [hrest, sub_add_cancel, hamount]
  | exact =>
    obtain ⟨charged, curve, chosen, _, hcharged, heval, _, rfl⟩ := returns_planSellExact hp
    obtain rfl := hover
    obtain ⟨rate, raw, hrate, hraw, hconvert⟩ := returns_evaluate_convert heval
    exact ⟨rate, raw, hrate, hraw, (Rate.convert_rounds hconvert).2.1,
      (Rate.convert_isOutcome hconvert).amount_nonneg, nofun⟩

section Backed

variable {conf : Configuration} {reg : Registration} (hx : x.WellFormed)
  (hplans : x.Plans given wanted conf c reg p)
  (hp : (x.planBy c reg.supply given wanted p.direction p.mode).Returns p)
  (hsell : p.direction = .sell) (hover : p.overrideApplied = true) (h : x.Backs p r raw)
include hx hplans hp hsell hover h

/-- The plan of a backed sale and its claim take one rate. -/
theorem Backs.planned :
    0 < raw.toRat ∧ 0 ≤ p.pay.amount ∧ (p.mode = .market → p.refund.amount = 0 →
      ∃ d, p.pay.units.mul raw = .ok d ∧ p.receive.amount + p.fee.amount = ⌊d.toRat⌋) := by
  obtain ⟨hsmart, -, hreceive⟩ := hplans.sell_tokens hsell
  rw [hsell] at hp
  obtain ⟨rate, raw', hrate, hraw', hplanned⟩ := returns_planBy_redeemed hp hover
  have hquoted : Reserve.rate? x.reserve c.smart = some r.rate := by
    show (x.reserve.record? c.smart).map (·.rate) = some r.rate
    rw [← hsmart, h.record]
    rfl
  have hconnected : c.balance.token = r.underlying.token := by
    have hfits := (hx.fits hplans.connector).connected
    rw [connected?_of_configuration hplans.configuration] at hfits
    rw [h.underlying, hreceive, ← Option.some.inj hfits]
  rw [Option.some.inj (hrate.symm.trans hquoted), ← hsmart, hconnected] at hraw'
  obtain rfl := h.rate.unique hraw'
  exact hplanned

/-- What the claim of a backed sale computes: the exact worth, to the unit next to it, and at
least what the seller and the owner receive if that is certain. -/
theorem Backs.computes (hn : r.Computes p.pay n) :
    ⌊worth p raw⌋ ≤ n ∧ n ≤ ⌈worth p raw⌉ ∧
      (CertainlyPaid p raw → p.receive.amount + p.fee.amount ≤ n) := by
  obtain ⟨hpos, hpay, hpromise⟩ := h.planned hx hplans hp hsell hover
  obtain ⟨d, hd, hamount, hfloor, hceil⟩ := hn.near h.rate hpay hpos.le
  refine ⟨hfloor, hceil, ?_⟩
  rintro (hexact | ⟨hmarket, hrefund⟩)
  · exact (Int.le_floor.2 hexact).trans hfloor
  · obtain ⟨d', hd', hpromised⟩ := hpromise hmarket hrefund
    obtain rfl := Except.ok.inj (hd.symm.trans hd')
    exact (hpromised.trans hamount.symm).le

omit hp hover in
/-- The claim of a backed sale is paid once the sold tokens were handed in. -/
theorem Backs.pays {sender : Account} {l : Ledger}
    (hactive : x.ledger.isFrozen x.reserve.account = false)
    (hpaid : (x.ledger.transfer sender x.contract p.pay convertMemo).Returns l)
    (hn : r.Computes p.pay n) :
    ∃ paid, x.reserve.claim l x.contract p.pay =
      .ok ⟨.ok ⟨n, p.receive.token⟩, paid, x.reserve.pay p.pay.token r n⟩ := by
  obtain ⟨hsmart, -, hreceive⟩ := hplans.sell_tokens hsell
  have htoken : r.underlying.token ≠ p.pay.token := by
    rw [h.underlying, hreceive, hsmart]
    exact (hplans.smart_ne hx).symm
  have hcan := (hx.ledger.returns_transfer.1 hpaid).1
  have heffect := Ledger.transfer_effect hpaid
  -- the contract holds the sold tokens, and the pool's account what it held before
  have hcontract : p.pay.amount ≤ l.balanceOf x.contract p.pay.token := by
    by_cases hsender : x.contract = sender
    · have hsame := heffect.balanceOf x.contract p.pay.token
      rw [← hsender, sub_self] at hsame
      rw [hsame]
      exact (hsender ▸ hcan.covered).trans (Int.add_zero _).ge
    · exact hx.ledger.le_balanceOf_receiver hsender hpaid
  have hheld : n ≤ l.balanceOf x.reserve.account r.underlying.token := by
    rw [heffect.balanceOf, Pi.sub_apply, Pi.sub_apply,
      Asset.on_of_token_ne htoken, Asset.on_of_token_ne htoken, sub_zero, add_zero]
    exact h.held n hn
  have howed : (x.reserve.owed p.pay).Returns (r, n) :=
    Pool.returns_owed.2 ⟨hcan.amount_pos, h.record, hn, h.covered n hn⟩
  obtain ⟨paid, hclaim⟩ := Pool.exists_claim (hx.ledger.transfer hpaid) howed
    (heffect.registers.2 hcan.registers) (by rw [heffect.isFrozen]; exact hcan.receiver_active)
    hcontract htoken (by rw [heffect.isFrozen]; exact hactive) hheld
  exact ⟨paid, by rw [hclaim, Asset.withAmount, h.underlying]⟩

/-- A backed sale whose payout is certain is not refused for too little of it. -/
theorem Backs.not_refused {l : Ledger} {t : Token} {held needed : Amount}
    (hcertain : CertainlyPaid p raw) :
    ¬Refused x.reserve l x.contract p (.insufficientUnderlying t held needed) := by
  rintro ⟨result, hclaim, hrefused⟩
  rcases (Pool.claim_eq_ok.1 hclaim).payout with ⟨e, herror, hwhy⟩ | ⟨r', n, howed, hpays⟩
  · rcases hrefused with hpayout | ⟨_, hpayout, -⟩ <;> rw [herror] at hpayout <;> cases hpayout
    rcases hwhy with hfails | ⟨_, hledger⟩
    · -- the record covers what is computed
      obtain ⟨r', hrecord, hn, hlt⟩ := Pool.fails_owed hfails
      obtain rfl := Option.some.inj (h.record.symm.trans hrecord)
      exact absurd (h.covered _ hn) (not_le.2 hlt)
    · cases hledger
  · obtain ⟨-, hrecord, hn, -⟩ := Pool.returns_owed.1 howed
    obtain rfl := Option.some.inj (h.record.symm.trans hrecord)
    rcases hrefused with hpayout | ⟨_, hpayout, hshort, -⟩ <;> rw [hpays] at hpayout <;>
      cases hpayout
    rcases hshort with hne | hlt
    · exact hne h.underlying
    · exact absurd ((h.computes hx hplans hp hsell hover hn).2.2 hcertain) (not_le.2 hlt)

end Backed

/-- What becomes of a sale that overrides the curve and that the pool backs. A claim of the sold
tokens computes an amount, unless their worth is more than any. It is the exact worth to the unit
next to it, and it is what the claim of a settlement pays, in the token that the seller receives.
Where the payout certainly covers what the seller and the owner receive, it does, and no conversion
is refused for too small a payout. -/
theorem redemption_covers (hx : x.WellFormed) (hquote : (x.quote given wanted).Returns p)
    (hsell : p.direction = .sell) (hover : p.overrideApplied = true) (hbacks : x.Backs p r raw) :
    (worth p raw ≤ Amount.greatest → ∃ n, r.Computes p.pay n) ∧
      (∀ {n}, r.Computes p.pay n →
        (⌊worth p raw⌋ ≤ n ∧ n ≤ ⌈worth p raw⌉ ∧
          (CertainlyPaid p raw → p.receive.amount + p.fee.amount ≤ n)) ∧
        ∀ {sender l}, x.ledger.isFrozen x.reserve.account = false →
          (x.ledger.transfer sender x.contract p.pay convertMemo).Returns l →
          ∃ paid, x.reserve.claim l x.contract p.pay =
            .ok ⟨.ok ⟨n, p.receive.token⟩, paid, x.reserve.pay p.pay.token r n⟩) ∧
      (CertainlyPaid p raw → ∀ {now signers sender e y},
        x.convert now signers sender given wanted = .ok ⟨.error e, y⟩ →
        ∀ t held needed, e ≠ .reserve (.insufficientUnderlying t held needed)) := by
  obtain ⟨c, hplan⟩ := returns_quote.1 hquote
  obtain ⟨conf, reg, hplans, hp⟩ := returns_plan (fun hc => hx.balance_le hc) hplan
  refine ⟨?_, ?_, ?_⟩
  · intro hworth
    obtain ⟨hpos, hpay, -⟩ := hbacks.planned hx hplans hp hsell hover
    exact ReserveRecord.exists_computes hbacks.rate hpay hpos.le hworth
  · intro n hn
    exact ⟨hbacks.computes hx hplans hp hsell hover hn, fun hactive hpaid =>
      hbacks.pays hx hplans hsell hactive hpaid hn⟩
  · intro hcertain now signers sender e y hconvert t held needed he
    subst he
    obtain ⟨-, -, l, -, hrefused⟩ := convert_eq_reserve_error hconvert hplan
    exact hbacks.not_refused hx hplans hp hsell hover hcertain hrefused

/-- Alice sells a hundred tokens to a reserve that redeems at two for one. The claim pays the two
hundred units that she was promised. -/
theorem sale_is_redeemed :
    ∃ (x : Exchange Pool) (p : Plan) (l paid : Ledger) (n : Amount) (pool : Pool), x.Reachable ∧
      (x.quote ⟨100, Sample.smart⟩ ⟨0, Sample.connected⟩).Returns p ∧
      (x.ledger.transfer Sample.alice x.contract p.pay convertMemo).Returns l ∧
      x.reserve.claim l x.contract p.pay = .ok ⟨.ok ⟨n, p.receive.token⟩, paid, pool⟩ ∧
      p.receive.amount + p.fee.amount = 200 ∧ p.receive.amount + p.fee.amount ≤ n := by
  have hyields : Abort.Yields (inMemory.trace (Sample.pledged 10000 (.ofInt 2))) fun r =>
      Abort.Yields (r.2.convert 0 [Sample.alice] Sample.alice ⟨100, Sample.smart⟩
        ⟨0, Sample.connected⟩) fun reply => Abort.Yields reply.answer fun receipt =>
        receipt.plan.direction = .sell ∧ receipt.plan.overrideApplied = true ∧
        receipt.plan.pay = ⟨100, Sample.smart⟩ ∧
        receipt.plan.receive.amount + receipt.plan.fee.amount = 200 ∧
        receipt.plan.receive.token = Sample.connected ∧
        r.2.reserve.record? receipt.plan.pay.token =
          some ⟨Sample.smart, ⟨1000, Sample.connected⟩, .ofInt 2⟩ ∧
        r.2.ledger.balanceOf r.2.reserve.account Sample.connected = 1000 ∧
        r.2.ledger.isFrozen r.2.reserve.account = false := by
    decide +kernel
  obtain ⟨r, hr, ⟨_, y⟩, hconvert, ⟨p, _⟩, rfl, hsell, hover, hpay, hpromise, htoken, hrecord,
    hheld, hactive⟩ := hyields
  obtain ⟨c, _, hconverts, -⟩ := convert_eq_ok.1 hconvert
  have hquote : (r.2.quote ⟨100, Sample.smart⟩ ⟨0, Sample.connected⟩).Returns p :=
    returns_quote.2 ⟨c, hconverts.plans⟩
  obtain ⟨l, hpaid⟩ := hconverts.pays
  dsimp only at hsell hover hpay hpromise htoken hrecord hpaid
  have hreach : r.2.Reachable := Sample.reachable_trace (by decide) hr
  have hworth : worth p (.ofInt 2) = 200 := by
    rw [worth, hpay, Decimal.toRat_ofInt]
    norm_num
  have hraw : (Rate.rawRate (.ofInt 2) p.pay.token.precision Sample.connected.precision).Returns
      (.ofInt 2) := by
    rw [hpay]
    rfl
  have hbacks : r.2.Backs p ⟨Sample.smart, ⟨1000, Sample.connected⟩, .ofInt 2⟩ (.ofInt 2) :=
    .of_worth hrecord htoken.symm hraw (by rw [hpay]; decide)
      (Decimal.toRat_ofInt_nonneg (by decide)) (by rw [hworth]; norm_num)
      (by rw [hworth, hheld]; norm_num)
  obtain ⟨hexists, hcomputes, -⟩ := redemption_covers hreach.wellFormed hquote hsell hover hbacks
  obtain ⟨n, hn⟩ := hexists (by rw [hworth]; decide)
  obtain ⟨⟨-, -, hcovers⟩, hpays⟩ := hcomputes hn
  obtain ⟨paid, hclaim⟩ := hpays hactive hpaid
  exact ⟨r.2, p, l, paid, n, _, hreach, hquote, hpaid, hclaim, hpromise,
    hcovers (.inl (by rw [hpromise, hworth]; norm_num))⟩

/-- Two sevenths, cut off after 28 decimals. -/
def Sample.twoSevenths : Decimal := ⟨2857142857142857142857142857, 28, false⟩

/-- A reserve redeems at two sevenths. Eight tokens are worth two whole units, and one token is
refunded for what is above them. The seven that are left are worth a little less than two units:
the claim pays one where two are needed, and the sale is refused. -/
theorem refund_sale_refused :
    ∃ (x y : Exchange Pool) (p : Plan) (r : ReserveRecord), x.Reachable ∧
      (x.quote ⟨8, Sample.smart⟩ ⟨0, Sample.connected⟩).Returns p ∧
      p.direction = .sell ∧ p.overrideApplied = true ∧ x.Backs p r Sample.twoSevenths ∧
      x.convert 0 [Sample.alice] Sample.alice ⟨8, Sample.smart⟩ ⟨0, Sample.connected⟩ =
        .ok ⟨.error (.reserve (.insufficientUnderlying Sample.smart 1 2)), y⟩ := by
  have hyields : Abort.Yields (inMemory.trace (Sample.pledged 10000 Sample.twoSevenths)) fun r =>
      Abort.Yields (r.2.quote ⟨8, Sample.smart⟩ ⟨0, Sample.connected⟩).run fun answer =>
      Abort.Yields answer fun p =>
      p.direction = .sell ∧ p.overrideApplied = true ∧ p.pay = ⟨7, Sample.smart⟩ ∧
        p.receive.token = Sample.connected ∧
        r.2.reserve.record? p.pay.token =
          some ⟨Sample.smart, ⟨1000, Sample.connected⟩, Sample.twoSevenths⟩ ∧
        r.2.ledger.balanceOf r.2.reserve.account Sample.connected = 1000 ∧
        Abort.Yields (r.2.convert 0 [Sample.alice] Sample.alice ⟨8, Sample.smart⟩
          ⟨0, Sample.connected⟩) fun reply =>
            reply.answer = .error (.reserve (.insufficientUnderlying Sample.smart 1 2)) := by
    decide +kernel
  obtain ⟨r, hr, _, hquote, p, rfl, hsell, hover, hpay, htoken, hrecord, hheld, ⟨_, y⟩, hconvert,
    rfl⟩ := hyields
  have hworth : worth p Sample.twoSevenths ≤ 1000 := by
    rw [worth, hpay, Sample.twoSevenths, Decimal.toRat, Decimal.powTen_cast]
    norm_num
  have hraw : (Rate.rawRate Sample.twoSevenths p.pay.token.precision
      Sample.connected.precision).Returns Sample.twoSevenths := by
    rw [hpay]
    rfl
  exact ⟨r.2, y, p, _, Sample.reachable_trace (by decide) hr, hquote, hsell, hover,
    .of_worth hrecord htoken.symm hraw (by rw [hpay]; decide)
      (Decimal.toRat_nonneg_iff.2 (by decide)) (by exact_mod_cast hworth)
      (by rw [hheld]; exact_mod_cast hworth), hconvert⟩

end Exchange
end BondingCurve
