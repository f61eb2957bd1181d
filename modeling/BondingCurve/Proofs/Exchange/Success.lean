import BondingCurve.Proofs.Exchange.Exactness

/-!
# When a conversion succeeds

A plan that the curve allows can still fail to settle, but only for reasons that are visible
before: `CanSettle` lists them. In a solvent exchange nothing else stands in the way
(`convert_succeeds_iff`): what the contract pays out it has, and no balance overflows.
-/

namespace BondingCurve

open Outcome

namespace Exchange

variable {ρ : Type} {x y : Exchange ρ} {sender owner : Account} {c : Connector} {p : Plan}
  {conf : Configuration} {given wanted : Asset} {reg : Registration}

/-- What the settlement of a plan needs of the ledger. -/
structure CanSettle (x : Exchange ρ) (sender owner : Account) (p : Plan) : Prop where
  pay_pos : 0 < p.pay.amount
  pay_covered : p.pay.amount ≤ x.ledger.balanceOf sender p.pay.token
  pay_registered : x.ledger.Registers p.pay.token
  receive_registered : x.ledger.Registers p.receive.token
  sender_active : x.ledger.isFrozen sender = false
  contract_active : x.ledger.isFrozen x.contract = false
  owner_active : 0 < p.fee.amount → x.ledger.isFrozen owner = false
  capped : p.direction = .buy → ∀ reg ∈ x.ledger.registration? p.smart,
    reg.supply + p.receive.amount ≤ reg.maxSupply

theorem CanSettle.canTransfer (h : x.CanSettle sender owner p) :
    x.ledger.CanTransfer sender x.contract p.pay :=
  ⟨h.pay_pos, h.pay_registered, h.sender_active, h.contract_active, h.pay_covered⟩

/-! ## Fees -/

theorem FeePaid.owner_active {l l' : Ledger} {fee : Asset} (hl : l.Consistent)
    (h : x.FeePaid l owner fee l') (hfee : 0 < fee.amount) : l.isFrozen owner = false := by
  rcases h with ⟨_, h⟩ | ⟨hle, _⟩
  · exact (hl.returns_transfer.1 h).1.receiver_active
  · exact absurd hfee (not_lt.2 hle)

/-- A fee that the contract can afford is paid. -/
theorem exists_feePaid {l : Ledger} {fee : Asset} (hl : l.Consistent)
    (hregistered : l.Registers fee.token) (hcontract : l.isFrozen x.contract = false)
    (howner : 0 < fee.amount → l.isFrozen owner = false)
    (hcovered : fee.amount ≤ l.balanceOf x.contract fee.token) :
    ∃ l', x.FeePaid l owner fee l' := by
  by_cases hfee : 0 < fee.amount
  · obtain ⟨l', hl'⟩ := hl.exists_transfer x.settings.feeMemo
      ⟨hfee, hregistered, hcontract, howner hfee, hcovered⟩
    exact ⟨l', .inl ⟨hfee, hl'⟩⟩
  · exact ⟨l, .inr ⟨not_lt.1 hfee, rfl⟩⟩

variable [Reserve ρ]

/-! ## Buys -/

theorem SettlesBuy.canSettle {paid charged final : Ledger} (hx : x.WellFormed)
    (hd : p.direction = .buy) (hp : x.Plans given wanted conf c reg p)
    (h : x.SettlesBuy sender c p conf paid charged final) : x.CanSettle sender conf.owner p := by
  have hcan := (hx.ledger.returns_transfer.1 h.pays).1
  have hpaid := Ledger.transfer_effect h.pays
  have hpaid_consistent : paid.Consistent := hx.ledger.transfer h.pays
  have hcharged := hpaid.trans (h.charges.effect hp.fee_nonneg)
  rw [zero_add] at hcharged
  obtain ⟨reg', hissue, _⟩ :=
    (hpaid_consistent.moves h.charges.moves).returns_issue.1 h.issues
  have hreg' := hissue.registration
  rw [hcharged.registration?_eq] at hreg'
  refine ⟨hcan.amount_pos, hcan.covered, hcan.registers, ⟨reg', hreg', hissue.token_eq⟩,
    hcan.sender_active, hcan.receiver_active, ?_, ?_⟩
  · intro hfee
    have howner := h.charges.owner_active hpaid_consistent hfee
    rwa [hpaid.isFrozen] at howner
  · intro _ reg hreg
    rw [hp.smart_eq, ← (hp.buy_tokens hd).2.2] at hreg
    obtain rfl := Option.some.inj (hreg.symm.trans hreg')
    exact hissue.capped

/-- What a trader paid for a buy has the owner's fee in it. -/
theorem Plans.fee_le_paid {paid : Ledger} (hx : x.WellFormed) (hsolvent : x.Solvent)
    (hsender : sender ≠ x.contract) (hd : p.direction = .buy)
    (hp : x.Plans given wanted conf c reg p)
    (hpaid : (x.ledger.transfer sender x.contract p.pay convertMemo).Returns paid) :
    p.fee.amount ≤ paid.balanceOf x.contract p.fee.token := by
  obtain ⟨hpay_token, hfee_token, -⟩ := hp.buy_tokens hd
  have hcovered := (hx.ledger.returns_transfer.1 hpaid).1.covered
  have hpay := hp.pay_eq hx hsolvent hsender hd hcovered
  have hdelta := (hp.buys hd).1
  have hheld := hx.ledger.le_balanceOf_receiver hsender.symm hpaid
  rw [hfee_token, ← hpay_token]
  linarith

/-- Nothing but `CanSettle` is needed for a buy: the connector's new balance is an amount, since
the contract and the trader together hold no more than one, and the fee is part of the payment. -/
theorem CanSettle.exists_settlesBuy (hx : x.WellFormed) (hsolvent : x.Solvent)
    (hsender : sender ≠ x.contract) (hd : p.direction = .buy)
    (hp : x.Plans given wanted conf c reg p) (h : x.CanSettle sender conf.owner p) :
    ∃ paid charged final, x.SettlesBuy sender c p conf paid charged final := by
  obtain ⟨hpay_token, hfee_token, hreceive_token⟩ := hp.buy_tokens hd
  have hpay := hp.pay_eq hx hsolvent hsender hd h.pay_covered
  have hdelta := (hp.buys hd).1
  have hcustody := hp.balance_le_custody hx hsolvent
  have hbalance := hp.balance_pos
  have hfee := hp.fee_nonneg
  -- the payment
  obtain ⟨paid, hpaid⟩ := hx.ledger.exists_transfer convertMemo h.canTransfer
  have hpaid_effect := Ledger.transfer_effect hpaid
  have hpaid_consistent : paid.Consistent := hx.ledger.transfer hpaid
  -- the fee
  have hafford := hp.fee_le_paid hx hsolvent hsender hd hpaid
  obtain ⟨charged, hcharged⟩ : ∃ l', x.FeePaid paid conf.owner p.fee l' := exists_feePaid
    hpaid_consistent
    (by rw [hpaid_effect.registers, hfee_token, ← hpay_token]; exact h.pay_registered)
    (by rw [hpaid_effect.isFrozen]; exact h.contract_active)
    (fun hpos => by rw [hpaid_effect.isFrozen]; exact h.owner_active hpos) hafford
  have hcharged_effect := hpaid_effect.trans (hcharged.effect hfee)
  rw [zero_add] at hcharged_effect
  have hcharged_consistent := hpaid_consistent.moves hcharged.moves
  -- the bought tokens
  obtain ⟨reg', hreg', htoken⟩ := h.receive_registered
  have hcapped := h.capped hd reg' (by rw [hp.smart_eq, ← hreceive_token]; exact hreg')
  have hissue : charged.CanIssue reg' sender p.receive :=
    ⟨hp.receive_pos, by rw [hcharged_effect.registration?_eq, hreg'], htoken, hcapped,
      by rw [hcharged_effect.isFrozen]; exact h.sender_active⟩
  refine ⟨paid, charged, _, hp.configuration, ?_, ?_, hpaid, hcharged,
    hcharged_consistent.returns_issue.2 ⟨reg', hissue, rfl⟩⟩
  · have hsum := hx.ledger.add_le_greatest (t := p.pay.token) hsender
    have hcovered := h.pay_covered
    rw [custody, ← hpay_token] at hcustody
    exact Ledger.inRange_of_nonneg (by linarith) (by linarith)
  · linarith

/-! ## Sales -/

theorem SettlesSell.canSettle {paid taken charged final : Ledger} {r : ρ} (hx : x.WellFormed)
    (hd : p.direction = .sell) (hno : p.overrideApplied = false)
    (hp : x.Plans given wanted conf c reg p)
    (h : x.SettlesSell sender c p conf paid taken charged final r) :
    x.CanSettle sender conf.owner p := by
  -- every step of the settlement checks something; the effects so far carry the checks back to
  -- the ledger from before
  have hcan := (hx.ledger.returns_transfer.1 h.pays).1
  have hretires := h.takes.retires hno
  have hpaid_consistent : paid.Consistent := hx.ledger.transfer h.pays
  have htaken_consistent : taken.Consistent := hpaid_consistent.retire hretires
  have htaken := (Ledger.transfer_effect h.pays).trans (Ledger.retire_effect hretires)
  have hcharged := htaken.trans (h.charges.effect hp.fee_nonneg)
  have hdeliver :=
    ((htaken_consistent.moves h.charges.moves).returns_transfer.1 h.delivers).1
  refine ⟨hcan.amount_pos, hcan.covered, hcan.registers, hcharged.registers.1 hdeliver.registers,
    hcan.sender_active, hcan.receiver_active, ?_, ?_⟩
  · intro hfee
    have howner := h.charges.owner_active htaken_consistent hfee
    rwa [htaken.isFrozen] at howner
  · intro hbuy
    rw [hd] at hbuy
    cases hbuy

/-- The sold tokens are no connected ones, so with them burned custody is what it was. -/
theorem Plans.custody_burned {paid taken : Ledger} (hx : x.WellFormed) (hd : p.direction = .sell)
    (hp : x.Plans given wanted conf c reg p)
    (hpaid : (x.ledger.transfer sender x.contract p.pay convertMemo).Returns paid)
    (hburns : (paid.retire x.contract p.pay convertMemo).Returns taken) :
    taken.balanceOf x.contract conf.connected = x.custody conf.connected := by
  have hne : conf.connected ≠ p.pay.token := (hp.sell_tokens hd).1 ▸ (hp.smart_ne hx).symm
  have heffect := (Ledger.transfer_effect hpaid).trans (Ledger.retire_effect hburns)
  have hbalance := heffect.balanceOf x.contract conf.connected
  simp only [Pi.add_apply, Pi.sub_apply, Pi.neg_apply, Asset.on_of_token_ne hne, sub_zero,
    neg_zero, add_zero] at hbalance
  exact hbalance

/-- What the trader and the owner receive of a sale that is not redeemed is in custody. -/
theorem Plans.legs_le_custody (hx : x.WellFormed) (hsolvent : x.Solvent)
    (hd : p.direction = .sell) (hno : p.overrideApplied = false)
    (hp : x.Plans given wanted conf c reg p) :
    p.receive.amount + p.fee.amount ≤ x.custody conf.connected := by
  have hlegs := hp.unredeemed hd hno
  have hsells := hp.sells hd
  have hcustody := hp.balance_le_custody hx hsolvent
  linarith

section Burned

variable {paid taken charged : Ledger} (hx : x.WellFormed) (hsolvent : x.Solvent)
  (hd : p.direction = .sell) (hno : p.overrideApplied = false)
  (hp : x.Plans given wanted conf c reg p)
  (hpaid : (x.ledger.transfer sender x.contract p.pay convertMemo).Returns paid)
  (hburns : (paid.retire x.contract p.pay convertMemo).Returns taken)
include hx hsolvent hd hno hp hpaid hburns

/-- With the sold tokens burned the contract has the fee. -/
theorem Plans.fee_le_burned : p.fee.amount ≤ taken.balanceOf x.contract p.fee.token := by
  have hlegs := hp.legs_le_custody hx hsolvent hd hno
  have hreceive := hp.receive_pos
  rw [(hp.sell_tokens hd).2.1, hp.custody_burned hx hd hpaid hburns]
  linarith

/-- With the fee paid as well it has what the trader receives. -/
theorem Plans.receive_le_charged (hcharged : x.FeePaid taken conf.owner p.fee charged) :
    p.receive.amount ≤ charged.balanceOf x.contract p.receive.token := by
  obtain ⟨-, hfee_token, hreceive_token⟩ := hp.sell_tokens hd
  have hlegs := hp.legs_le_custody hx hsolvent hd hno
  have hrest := hcharged.le_balanceOf hp.fee_nonneg
  rw [hfee_token, hp.custody_burned hx hd hpaid hburns] at hrest
  rw [hreceive_token]
  linarith

end Burned

/-- Nothing but `CanSettle` is needed for a sale that is not redeemed: what the trader and the
owner receive is what the connector gives up, and the contract holds at least what the connector
has. -/
theorem CanSettle.exists_settlesSell (hx : x.WellFormed) (hsolvent : x.Solvent)
    (hsender : sender ≠ x.contract) (hd : p.direction = .sell) (hno : p.overrideApplied = false)
    (hp : x.Plans given wanted conf c reg p) (h : x.CanSettle sender conf.owner p) :
    ∃ paid taken charged final,
      x.SettlesSell sender c p conf paid taken charged final x.reserve := by
  obtain ⟨-, hfee_token, hreceive_token⟩ := hp.sell_tokens hd
  have hsells := hp.sells hd
  have hreceive := hp.receive_pos
  have hfee := hp.fee_nonneg
  -- the payment
  obtain ⟨paid, hpaid⟩ := hx.ledger.exists_transfer convertMemo h.canTransfer
  have hpaid_effect := Ledger.transfer_effect hpaid
  have hpaid_consistent : paid.Consistent := hx.ledger.transfer hpaid
  -- the burn
  obtain ⟨reg', hreg', htoken⟩ := hpaid_effect.registers.2 h.pay_registered
  have hheld := hx.ledger.le_balanceOf_receiver hsender.symm hpaid
  have hretire : paid.CanRetire reg' x.contract p.pay :=
    ⟨h.pay_pos, hreg', htoken, by rw [hpaid_effect.isFrozen]; exact h.contract_active, hheld⟩
  have hburns : (paid.retire x.contract p.pay convertMemo).Returns _ :=
    Ledger.returns_retire.2 ⟨reg', hretire, rfl⟩
  generalize paid.retired reg' x.contract p.pay convertMemo = taken at hburns
  have htaken_consistent := hpaid_consistent.retire hburns
  have htaken_effect := hpaid_effect.trans (Ledger.retire_effect hburns)
  -- the fee
  obtain ⟨charged, hcharged⟩ : ∃ l', x.FeePaid taken conf.owner p.fee l' := exists_feePaid
    htaken_consistent
    (by rw [htaken_effect.registers, hfee_token, ← hreceive_token]; exact h.receive_registered)
    (by rw [htaken_effect.isFrozen]; exact h.contract_active)
    (fun hpos => by rw [htaken_effect.isFrozen]; exact h.owner_active hpos)
    (hp.fee_le_burned hx hsolvent hd hno hpaid hburns)
  have hcharged_effect := htaken_effect.trans (hcharged.effect hfee)
  have hcharged_consistent := htaken_consistent.moves hcharged.moves
  -- the rest
  have hcovered := hp.receive_le_charged hx hsolvent hd hno hpaid hburns hcharged
  obtain ⟨final, hfinal⟩ := hcharged_consistent.exists_transfer convertMemo
    ⟨hreceive, hcharged_effect.registers.2 h.receive_registered,
      by rw [hcharged_effect.isFrozen]; exact h.contract_active,
      by rw [hcharged_effect.isFrozen]; exact h.sender_active, hcovered⟩
  refine ⟨paid, taken, charged, final, hp.configuration, ?_, ?_, hpaid, .burned hno hburns,
    hcharged, hfinal⟩
  · have hle := (hx.fits hp.connector).balance_le
    exact Ledger.inRange_of_nonneg (by linarith) (by linarith)
  · linarith

/-! ## Conversions -/

variable [LawfulReserve ρ] {signers : Signers}

/-- When a request converts: it is signed, it has a plan, and the ledger can settle the plan. It
takes that the exchange is solvent, does not convert for itself, and has no reserve for the smart
token. -/
theorem convert_succeeds_iff {now : Int} (hx : x.Reachable) (hsolvent : x.Solvent)
    (hsender : sender ≠ x.contract)
    (hreserve : ∀ p, (x.quote given wanted).Returns p →
      Reserve.hasReserve x.reserve p.smart = false) :
    (∃ receipt y, x.convert now signers sender given wanted = .ok ⟨.ok receipt, y⟩) ↔
      ∃ p, (x.quote given wanted).Returns p ∧ sender ∈ signers ∧
        ∃ conf ∈ x.configuration.get?, x.CanSettle sender conf.owner p := by
  have hwf := hx.wellFormed
  -- without a reserve no plan is administered
  have hunredeemed : ∀ {p c conf reg}, (x.plan given wanted).Returns (p, c) →
      x.Plans given wanted conf c reg p → p.overrideApplied = false := by
    intro p c conf reg hplan hp
    by_contra ho
    have hhas := hp.administered (Bool.not_eq_false _ ▸ ho)
    rw [← hp.smart_eq, hreserve p (returns_quote.2 ⟨c, hplan⟩)] at hhas
    cases hhas
  constructor
  · intro h
    obtain ⟨receipt, y, h⟩ := h
    obtain ⟨c, z, hconverts, _⟩ := convert_eq_ok.1 h
    obtain ⟨conf, reg, hp⟩ := hconverts.plans_connector hwf
    refine ⟨receipt.plan, returns_quote.2 ⟨c, hconverts.plans⟩, hconverts.signed, conf,
      hp.configuration, ?_⟩
    rcases hd : receipt.plan.direction with _ | _
    · obtain ⟨conf', _, _, _, hs, _⟩ := (returns_settle_buy hd).1 hconverts.settles
      obtain rfl := Option.some.inj (hs.configuration.symm.trans hp.configuration)
      exact hs.canSettle hwf hd hp
    · obtain ⟨conf', _, _, _, _, _, hs, _⟩ := (returns_settle_sell hd).1 hconverts.settles
      obtain rfl := Option.some.inj (hs.configuration.symm.trans hp.configuration)
      exact hs.canSettle hwf hd (hunredeemed hconverts.plans hp) hp
  · intro h
    obtain ⟨p, hquote, hsigned, conf', hconf, hcan⟩ := h
    obtain ⟨c, hplan⟩ := returns_quote.1 hquote
    obtain ⟨conf, reg, hp, _⟩ := returns_plan (fun hc => hwf.balance_le hc) hplan
    obtain rfl := Option.some.inj (hconf.symm.trans hp.configuration)
    rcases hd : p.direction with _ | _
    · obtain ⟨paid, charged, final, hs⟩ := hcan.exists_settlesBuy hwf hsolvent hsender hd hp
      have hsettle := (returns_settle_buy hd).2 ⟨conf', paid, charged, final, hs, rfl, rfl⟩
      exact ⟨⟨p, _⟩, _, convert_eq_ok.2 ⟨c, _,
        ⟨⟨p.mode, hp.fits⟩, ⟨conf', hconf⟩, hsigned, hplan, hsettle⟩, rfl⟩⟩
    · obtain ⟨paid, taken, charged, final, hs⟩ :=
        hcan.exists_settlesSell hwf hsolvent hsender hd (hunredeemed hplan hp) hp
      have hsettle :=
        (returns_settle_sell hd).2 ⟨conf', paid, taken, charged, final, _, hs, rfl, rfl⟩
      exact ⟨⟨p, _⟩, _, convert_eq_ok.2 ⟨c, _,
        ⟨⟨p.mode, hp.fits⟩, ⟨conf', hconf⟩, hsigned, hplan, hsettle⟩, rfl⟩⟩

/-- Alice's buy goes through, so it has a plan that can be settled. -/
theorem buy_can_settle :
    ∃ (x : Exchange Pool) (p : Plan), x.Reachable ∧
      (x.quote ⟨1000, Sample.connected⟩ ⟨0, Sample.smart⟩).Returns p ∧
      ∃ conf ∈ x.configuration.get?, x.CanSettle Sample.alice conf.owner p := by
  have hyields : Abort.Yields (inMemory.trace Sample.market) fun r =>
      r.2.Solvent ∧ Sample.alice ≠ r.2.contract ∧ r.2.reserve = .empty Pool.defaultAccount ∧
        Abort.Yields (r.2.convert 0 [Sample.alice] Sample.alice ⟨1000, Sample.connected⟩
          ⟨0, Sample.smart⟩) fun reply => Abort.Yields reply.answer fun _ => True := by
    decide +kernel
  obtain ⟨r, hr, hsolvent, hsender, hempty, ⟨answer, y⟩, hconvert, receipt, rfl, _⟩ := hyields
  have hreach : r.2.Reachable := Sample.reachable_trace (by decide) hr
  have hreserve : ∀ p, (r.2.quote ⟨1000, Sample.connected⟩ ⟨0, Sample.smart⟩).Returns p →
      Reserve.hasReserve r.2.reserve p.smart = false := by
    intro p _
    rw [hempty]
    rfl
  obtain ⟨p, hquote, _, hsettle⟩ :=
    (convert_succeeds_iff hreach hsolvent hsender hreserve).1 ⟨receipt, y, hconvert⟩
  exact ⟨r.2, p, hreach, hquote, hsettle⟩

end Exchange
end BondingCurve
