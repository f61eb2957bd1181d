import BondingCurve.Proofs.Exchange.Solvency

/-!
# A settlement is its plan

`Performs` says all that a conversion over a pool does: which balances move and by how much, which
supply changes, which connector and which record are written, and that nothing else is. Every
settlement does just that (`Converts.performs`).
-/

namespace BondingCurve

open Outcome

/-- `n` for the account `b`. -/
def Account.gets (b : Account) (n : ℤ) : Account → ℤ := fun a => if a = b then n else 0

theorem Asset.on_apply (v : Asset) (b a : Account) (t : Token) :
    v.on b a t = if t = v.token then b.gets v.amount a else 0 := by
  unfold on Account.gets
  by_cases h : t = v.token
  · simp [h]
  · simp [h]

namespace Plan

/-- A sale at an administered rate is redeemed from the reserve. -/
def IsRedeemed (p : Plan) : Prop := p.direction = .sell ∧ p.overrideApplied = true

instance (p : Plan) : Decidable p.IsRedeemed := inferInstanceAs (Decidable (_ ∧ _))

/-- The connected tokens that the trader gets. -/
def traderGets (p : Plan) : ℤ :=
  match p.direction with
  | .buy => -p.pay.amount
  | .sell => p.receive.amount

/-- The smart tokens that are minted for the trader, or burned for him. -/
def minted (p : Plan) : ℤ :=
  match p.direction with
  | .buy => p.receive.amount
  | .sell => -p.pay.amount

theorem traderGets_buy {p : Plan} (h : p.direction = .buy) : p.traderGets = -p.pay.amount := by
  rw [traderGets, h]

theorem traderGets_sell {p : Plan} (h : p.direction = .sell) :
    p.traderGets = p.receive.amount := by
  rw [traderGets, h]

theorem minted_buy {p : Plan} (h : p.direction = .buy) : p.minted = p.receive.amount := by
  rw [minted, h]

theorem minted_sell {p : Plan} (h : p.direction = .sell) : p.minted = -p.pay.amount := by
  rw [minted, h]

/-- The connected tokens that the contract keeps, `payout` of which came from the reserve. -/
def kept (p : Plan) (payout : Amount) : ℤ :=
  if p.IsRedeemed then payout - p.receive.amount - p.fee.amount else p.balanceDelta

/-- What happens to the balances of the connected token. -/
def moves (p : Plan) (sender owner contract reserve : Account) (payout : Amount) : Account → ℤ :=
  sender.gets p.traderGets + owner.gets p.fee.amount + contract.gets (p.kept payout) +
    reserve.gets (-payout)

end Plan

namespace Exchange

/-- What the reserve pays for a plan: nothing unless it is redeemed, and then an amount that
covers what the trader and the owner receive, off the record of the smart token. -/
def Pays (x : Exchange Pool) (p : Plan) (payout : Amount) (pool : Pool) : Prop :=
  if p.IsRedeemed then
    ∃ r, x.reserve.record? p.smart = some r ∧ r.underlying.token = p.receive.token ∧
      p.receive.amount + p.fee.amount ≤ payout ∧ payout ≤ r.underlying.amount ∧
      pool = x.reserve.pay p.smart r payout
  else payout = 0 ∧ pool = x.reserve

/-- All that performing a plan does. -/
structure Performs (x : Exchange Pool) (sender : Account) (conf : Configuration) (c : Connector)
    (p : Plan) (payout : Amount) (y : Exchange Pool) : Prop where
  connectors : y.connectors = x.connectors.insert c.smart.key (c.moved p.balanceDelta)
  balances : ∀ a t, y.ledger.balanceOf a t = x.ledger.balanceOf a t +
    ((if t = conf.connected then
        p.moves sender conf.owner x.contract x.reserve.account payout a else 0) +
      if t = c.smart then sender.gets p.minted a else 0)
  supplies : ∀ t, y.ledger.registration? t = (x.ledger.registration? t).map fun reg =>
    { reg with supply := reg.supply + if t.key = c.smart.key then p.minted else 0 }
  reserve : x.Pays p payout y.reserve
  frozen : y.ledger.frozen = x.ledger.frozen
  configuration : y.configuration = x.configuration
  charges : y.charges = x.charges
  settings : y.settings = x.settings
  events : y.events = x.events ∧ y.nextEventId = x.nextEventId
  clock : y.clock = x.clock

variable {x y : Exchange Pool} {sender : Account} {c : Connector} {p : Plan} {b : Asset}
  {conf : Configuration} {given wanted : Asset} {reg : Registration}

/-- A buy: what the trader pays is the contract's, apart from the fee. -/
theorem SettlesBuy.performs {paid charged final : Ledger} (hx : x.WellFormed)
    (hsolvent : x.Solvent) (hsender : sender ≠ x.contract) (hd : p.direction = .buy)
    (hp : x.Plans given wanted conf c reg p)
    (h : x.SettlesBuy sender c p conf paid charged final) :
    x.Performs sender conf c p 0 (x.settled c p.balanceDelta final x.reserve) := by
  have hcan := (hx.ledger.returns_transfer.1 h.pays).1
  have hpay := hp.pay_eq hx hsolvent hsender hd hcan.covered
  have heffect := h.effect hp.fee_nonneg
  obtain ⟨hpay_token, hfee_token, hreceive_token⟩ := hp.buy_tokens hd
  have hne := hp.smart_ne hx
  have hunredeemed : ¬p.IsRedeemed := by
    intro hredeemed
    obtain ⟨hsell, _⟩ := hredeemed
    rw [hd] at hsell
    cases hsell
  have hkept : p.kept 0 = p.balanceDelta := if_neg hunredeemed
  have htrader := Plan.traderGets_buy hd
  have hminted := Plan.minted_buy hd
  refine ⟨rfl, ?_, ?_, ?_, heffect.frozen, rfl, rfl, rfl, ⟨rfl, rfl⟩, rfl⟩
  · intro a t
    refine (heffect.balanceOf a t).trans (congrArg _ ?_)
    simp only [Pi.add_apply, Pi.sub_apply, Asset.on_apply, hpay_token, hfee_token, hreceive_token,
      hminted]
    -- the connected and the smart token differ, so no leg counts twice
    by_cases ht : t = conf.connected
    · have hs : t ≠ c.smart := ht ▸ hne.symm
      simp only [if_pos ht, if_neg hs, Plan.moves, hkept, htrader, hpay, Pi.add_apply, Account.gets]
      split_ifs <;> ring
    · simp only [if_neg ht]
      ring
  · intro t
    rw [hminted, ← hreceive_token]
    exact heffect.registration? t
  · unfold Pays
    rw [if_neg hunredeemed]
    exact ⟨rfl, rfl⟩

/-- However sold tokens are taken in, they are burned, and the contract gets a payout from the
pool's account, of nothing unless they are redeemed. -/
theorem TakenIn.effect {contract : Account} {pool pool' : Pool} {l l' : Ledger}
    (h : TakenIn contract pool l p l' pool') :
    ∃ payout : Asset, payout.token = p.receive.token ∧
      l.Effect l' (-p.pay.on contract + (payout.on contract - payout.on pool.account))
        (-p.pay.inSupply) ∧
      if p.overrideApplied then
        ∃ r, pool.record? p.pay.token = some r ∧ r.underlying.token = p.receive.token ∧
          p.receive.amount + p.fee.amount ≤ payout.amount ∧
          payout.amount ≤ r.underlying.amount ∧ pool' = pool.pay p.pay.token r payout.amount
      else payout.amount = 0 ∧ pool' = pool := by
  cases h with
  | burned hno hburns =>
    -- a payout of nothing
    refine ⟨⟨0, p.receive.token⟩, rfl, ?_, ?_⟩
    · have hzero : ∀ b, Asset.on ⟨0, p.receive.token⟩ b = 0 := Asset.on_eq_zero rfl
      rw [hzero, hzero, sub_zero, add_zero]
      exact Ledger.retire_effect hburns
    · simp [hno]
  | @redeemed result payout hyes hclaim hpayout htoken _ hcovers =>
    obtain ⟨r, burnt, hredeems⟩ := (Pool.claim_eq_ok.1 hclaim).redeems hpayout
    refine ⟨payout, htoken, hredeems.effect, ?_⟩
    rw [if_pos hyes]
    exact ⟨r, hredeems.record, hredeems.token_eq.symm.trans htoken, hcovers, hredeems.payout_le,
      hredeems.pool_eq⟩

/-- A sale: the contract pays the trader and the owner, out of a payout where there is one. -/
theorem SettlesSell.performs {paid taken charged final : Ledger} {pool : Pool} (hx : x.WellFormed)
    (hd : p.direction = .sell) (hp : x.Plans given wanted conf c reg p)
    (h : x.SettlesSell sender c p conf paid taken charged final pool) :
    ∃ payout, x.Performs sender conf c p payout (x.settled c p.balanceDelta final pool) := by
  obtain ⟨payout, hpayout_token, htaken, hpays⟩ := h.takes.effect
  have heffect := h.effect hp.fee_nonneg htaken
  obtain ⟨hpay_token, hfee_token, hreceive_token⟩ := hp.sell_tokens hd
  have hne := hp.smart_ne hx
  have hredeemed : p.IsRedeemed ↔ p.overrideApplied = true := and_iff_right hd
  have htrader := Plan.traderGets_sell hd
  have hminted := Plan.minted_sell hd
  -- without a payout, the connector's delta is what the trader and the owner receive
  have hkept : p.kept payout.amount = payout.amount - p.receive.amount - p.fee.amount := by
    unfold Plan.kept
    by_cases ho : p.overrideApplied = true
    · rw [if_pos (hredeemed.2 ho)]
    · rw [if_neg ho] at hpays
      have hlegs := hp.unredeemed hd (Bool.not_eq_true _ ▸ ho)
      rw [if_neg (mt hredeemed.1 ho), hpays.1]
      linarith
  refine ⟨payout.amount, rfl, ?_, ?_, ?_, heffect.frozen, rfl, rfl, rfl, ⟨rfl, rfl⟩, rfl⟩
  · intro a t
    refine (heffect.balanceOf a t).trans (congrArg _ ?_)
    simp only [Pi.add_apply, Pi.sub_apply, Pi.neg_apply, Asset.on_apply, hpay_token, hfee_token,
      hreceive_token, hpayout_token, hminted]
    by_cases ht : t = conf.connected
    · have hs : t ≠ c.smart := ht ▸ hne.symm
      simp only [if_pos ht, if_neg hs, Plan.moves, hkept, htrader, Pi.add_apply, Account.gets]
      split_ifs <;> ring
    · simp only [if_neg ht, Account.gets]
      split_ifs <;> ring
  · intro t
    rw [hminted, ← hpay_token]
    rw [← Asset.inSupply_neg] at heffect
    exact heffect.registration? t
  · unfold Pays
    rw [hp.smart_eq, ← hpay_token]
    by_cases ho : p.overrideApplied = true
    · rw [if_pos (hredeemed.2 ho)]
      rwa [if_pos ho] at hpays
    · rw [if_neg (mt hredeemed.1 ho)]
      rwa [if_neg ho] at hpays

/-! ## Conversions -/

variable {signers : Signers} {receipt : Receipt}

/-- A committed conversion performs its plan. -/
theorem Converts.performs (hx : x.WellFormed) (hsolvent : x.Solvent)
    (hsender : sender ≠ x.contract)
    (h : x.Converts signers sender given wanted receipt c y) :
    ∃ conf reg payout, x.Plans given wanted conf c reg receipt.plan ∧
      x.Performs sender conf c receipt.plan payout y ∧
      receipt.balanceAfter = (c.moved receipt.plan.balanceDelta).balance := by
  obtain ⟨conf, reg, hp⟩ := h.plans_connector hx
  rcases hd : receipt.plan.direction with _ | _
  · obtain ⟨conf', _, _, _, hs, rfl, hafter⟩ := (returns_settle_buy hd).1 h.settles
    obtain rfl : conf' = conf := Option.some.inj (hs.configuration.symm.trans hp.configuration)
    exact ⟨conf', reg, 0, hp, hs.performs hx hsolvent hsender hd hp, hafter⟩
  · obtain ⟨conf', _, _, _, _, _, hs, rfl, hafter⟩ := (returns_settle_sell hd).1 h.settles
    obtain rfl : conf' = conf := Option.some.inj (hs.configuration.symm.trans hp.configuration)
    obtain ⟨payout, hperforms⟩ := hs.performs hx hd hp
    exact ⟨conf', reg, payout, hp, hperforms, hafter⟩

end Exchange

/-- How the legs of a plan relate to the request. -/
structure Plan.AddsUp (p : Plan) (given wanted : Asset) : Prop where
  pay_pos : 0 < p.pay.amount
  receive_pos : 0 < p.receive.amount
  fee_nonneg : 0 ≤ p.fee.amount
  refund_nonneg : 0 ≤ p.refund.amount
  market : p.mode = .market → p.pay.amount + p.refund.amount = given.amount
  exact : p.mode = .exact → p.refund.amount = 0 ∧ p.receive.amount = wanted.amount

namespace Exchange

variable {x y : Exchange Pool} {sender : Account} {conf : Configuration} {given wanted : Asset}
  {signers : Signers} {receipt : Receipt}

/-- A conversion that succeeds has a plan that adds up, performs it, and does nothing else but log
it. It takes that the exchange is solvent and does not convert for itself. -/
theorem convert_performs_plan {now : Int} (hx : x.Reachable) (hsolvent : x.Solvent)
    (hconf : x.configuration.get? = some conf) (hsender : sender ≠ x.contract)
    (h : x.convert now signers sender given wanted = .ok ⟨.ok receipt, y⟩) :
    receipt.plan.AddsUp given wanted ∧
      ∃ c payout z, x.connector? receipt.plan.smart = some c ∧
        x.Performs sender conf c receipt.plan payout z ∧
        receipt.balanceAfter = (c.moved receipt.plan.balanceDelta).balance ∧
        y = z.emit now (.converted (receipt.record sender)) := by
  obtain ⟨c, z, hconverts, rfl⟩ := convert_eq_ok.1 h
  obtain ⟨conf', reg, payout, hp, hperforms, hafter⟩ :=
    hconverts.performs hx.wellFormed hsolvent hsender
  obtain rfl : conf' = conf := Option.some.inj (hp.configuration.symm.trans hconf)
  obtain ⟨paid, hpaid⟩ := hconverts.pays
  have hcan := (hx.wellFormed.ledger.returns_transfer.1 hpaid).1
  refine ⟨⟨hcan.amount_pos, hp.receive_pos, hp.fee_nonneg, hp.refund_nonneg, hp.market, hp.exact⟩,
    c, payout, z, ?_, hperforms, hafter, rfl⟩
  rw [hp.smart_eq]
  exact hp.connector

/-- Alice sells a hundred units to a reserve that pays two for one, and the owner gets two. -/
theorem sale_performs_plan :
    ∃ (x y z : Exchange Pool) (receipt : Receipt) (c : Connector) (payout : Amount),
      receipt.plan.IsRedeemed ∧ receipt.plan.receive.amount = 198 ∧ receipt.plan.fee.amount = 2 ∧
      receipt.plan.AddsUp ⟨100, Sample.smart⟩ ⟨0, Sample.connected⟩ ∧
      x.Performs Sample.alice ⟨Sample.connected, ⟨10⟩, 0, Sample.owner⟩ c receipt.plan payout z ∧
      y = z.emit 0 (.converted (receipt.record Sample.alice)) := by
  have hyields : Abort.Yields (inMemory.trace Sample.backedMarket) fun r =>
      r.2.Solvent ∧
        r.2.configuration.get? = some ⟨Sample.connected, ⟨10⟩, 0, Sample.owner⟩ ∧
        Sample.alice ≠ r.2.contract ∧
        Abort.Yields (r.2.convert 0 [Sample.alice] Sample.alice ⟨100, Sample.smart⟩
          ⟨0, Sample.connected⟩) fun reply => Abort.Yields reply.answer fun receipt =>
            receipt.plan.IsRedeemed ∧ receipt.plan.receive.amount = 198 ∧
              receipt.plan.fee.amount = 2 := by
    decide +kernel
  obtain ⟨r, hr, hsolvent, hconf, hsender, hreply⟩ := hyields
  obtain ⟨⟨answer, y⟩, hconvert, hanswer⟩ := hreply
  obtain ⟨receipt, rfl, hredeemed, hreceive, hfee⟩ := hanswer
  obtain ⟨hadds, c, payout, z, _, hperforms, _, hy⟩ := convert_performs_plan
    (Sample.reachable_trace (by decide) hr) hsolvent hconf hsender hconvert
  exact ⟨r.2, y, z, receipt, c, payout, hredeemed, hreceive, hfee, hadds, hperforms, hy⟩

end Exchange
end BondingCurve
