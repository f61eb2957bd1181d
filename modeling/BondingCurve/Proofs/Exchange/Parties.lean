import BondingCurve.Proofs.Exchange.Exactness

/-!
# Custody, whoever the parties are

The owner pays for a new connector and the trader for one that grows, and both payments are
transfers to the contract. A transfer from the contract to itself succeeds and moves nothing, so
custody follows the connectors exactly where the payer is another account
(`custody_follows_iff`). A contract that owns itself opens connectors with nothing behind them
(`unbacked_connector`).
-/

namespace BondingCurve

open Outcome

/-- The connected tokens that a plan brings to the contract when nothing is redeemed: what the
trader pays less what he and the owner receive. What the contract pays to itself is no part of
it. -/
def Plan.inflow (p : Plan) (sender owner contract : Account) : ℤ :=
  (if sender = contract then 0 else -p.traderGets) -
    (if owner = contract then 0 else p.fee.amount)

namespace Exchange

variable {ρ : Type} {x y : Exchange ρ} {sender : Account} {c : Connector} {p : Plan}
  {conf : Configuration} {given wanted : Asset} {reg : Registration}

/-- What the connector of a smart token holds, nothing where there is none. -/
def connectorBalance (x : Exchange ρ) (smart : Token) : ℤ :=
  ((x.connector? smart).map (·.balance.amount)).getD 0

theorem connectorBalance_of_connector? {smart : Token} (h : x.connector? smart = some c) :
    x.connectorBalance smart = c.balance.amount := by
  rw [connectorBalance, h]
  rfl

theorem connectorBalance_insert {smart : Token}
    (h : y.connectors = x.connectors.insert smart.key c) :
    y.connectorBalance smart = c.balance.amount := by
  apply connectorBalance_of_connector?
  rw [connector?, h, Table.find?_insert_self]

/-- From `x` to `y` custody grows by what the connector of `smart` does, and by `extra`. -/
def CustodyFollows (x y : Exchange ρ) (conf : Configuration) (smart : Token) (extra : ℤ) : Prop :=
  y.custody conf.connected - x.custody conf.connected =
    y.connectorBalance smart - x.connectorBalance smart + extra

/-! ## New connectors -/

/-- The deposit of a new connector reaches the contract, unless the contract makes it. -/
theorem Connects.custody_sub {smart : Token} {balance : Asset} {weight : Decimal} {l : Ledger}
    (h : x.Connects smart balance weight conf l) :
    (x.opened smart balance weight l).custody conf.connected - x.custody conf.connected =
      if conf.owner = x.contract then 0 else balance.amount := by
  have hbalance := (Ledger.transfer_effect h.deposits).balanceOf x.contract balance.token
  rw [← h.balance_token, custody, custody]
  show l.balanceOf x.contract balance.token - _ = _
  rw [hbalance, Pi.sub_apply, Pi.sub_apply, Asset.on_self]
  by_cases howner : conf.owner = x.contract
  · rw [if_pos howner, howner, Asset.on_self]
    ring
  · rw [if_neg howner, Asset.on_of_ne (Ne.symm howner)]
    ring

theorem Connects.connectorBalance_sub {smart : Token} {balance : Asset} {weight : Decimal}
    {l : Ledger} (h : x.Connects smart balance weight conf l) :
    (x.opened smart balance weight l).connectorBalance smart - x.connectorBalance smart =
      balance.amount := by
  have hbefore : x.connectorBalance smart = 0 := by
    rw [connectorBalance, connector?, h.new]
    rfl
  rw [hbefore, connectorBalance_insert (x := x) rfl, sub_zero]

/-! ## Conversions -/

variable [Reserve ρ]

theorem SettlesBuy.custody_sub {paid charged final : Ledger} {r : ρ} (hx : x.WellFormed)
    (hd : p.direction = .buy) (hp : x.Plans given wanted conf c reg p)
    (h : x.SettlesBuy sender c p conf paid charged final) :
    (x.settled c p.balanceDelta final r).custody conf.connected - x.custody conf.connected =
      p.inflow sender conf.owner x.contract := by
  obtain ⟨hpay_token, hfee_token, hreceive_token⟩ := hp.buy_tokens hd
  have hne := hp.smart_ne hx
  have hbalance := (h.effect hp.fee_nonneg).balanceOf x.contract conf.connected
  show final.balanceOf x.contract conf.connected - x.ledger.balanceOf x.contract conf.connected = _
  rw [hbalance]
  simp only [Pi.add_apply, Pi.sub_apply, Asset.on_apply, hpay_token, hfee_token, hreceive_token,
    if_neg hne.symm, if_true, Account.gets, Plan.inflow, Plan.traderGets_buy hd,
    eq_comm (a := x.contract)]
  split_ifs <;> ring

theorem SettlesSell.custody_sub [LawfulReserve ρ] {paid taken charged final : Ledger} {r : ρ}
    (hx : x.WellFormed) (hd : p.direction = .sell) (hno : p.overrideApplied = false)
    (hp : x.Plans given wanted conf c reg p)
    (h : x.SettlesSell sender c p conf paid taken charged final r) :
    (x.settled c p.balanceDelta final r).custody conf.connected - x.custody conf.connected =
      p.inflow sender conf.owner x.contract := by
  obtain ⟨hpay_token, hfee_token, hreceive_token⟩ := hp.sell_tokens hd
  have hne := hp.smart_ne hx
  have hburns := Ledger.retire_effect (h.takes.retires hno)
  have hbalance :=
    (h.effect hp.fee_nonneg hburns).balanceOf x.contract conf.connected
  show final.balanceOf x.contract conf.connected - x.ledger.balanceOf x.contract conf.connected = _
  rw [hbalance]
  simp only [Pi.add_apply, Pi.sub_apply, Pi.neg_apply, Asset.on_apply, hpay_token, hfee_token,
    hreceive_token, if_neg hne.symm, if_true, Account.gets, Plan.inflow, Plan.traderGets_sell hd,
    eq_comm (a := x.contract)]
  split_ifs <;> ring

/-- A plan brings the contract what the connector gains and the fee that the contract itself is
due exactly when somebody else pays it, and pays in full. -/
theorem Plans.inflow_eq_iff (hp : x.Plans given wanted conf c reg p)
    (hplan : (x.planBy c reg.supply given wanted p.direction p.mode).Returns p)
    (hpay : 0 < p.pay.amount) (hno : p.overrideApplied = false) :
    p.inflow sender conf.owner x.contract =
        p.balanceDelta + (if conf.owner = x.contract then p.fee.amount else 0) ↔
      sender ≠ x.contract ∧
        (p.direction = .buy → p.pay.amount = p.balanceDelta + p.fee.amount) := by
  have hreceive := hp.receive_pos
  -- the owner's fee stands on both sides
  have hfee : p.inflow sender conf.owner x.contract =
        p.balanceDelta + (if conf.owner = x.contract then p.fee.amount else 0) ↔
      (if sender = x.contract then 0 else -p.traderGets) = p.balanceDelta + p.fee.amount := by
    unfold Plan.inflow
    split_ifs <;> constructor <;> intro h <;> linarith
  rw [hfee]
  cases hd : p.direction with
  | buy =>
    have hle := pay_le_of_planBy hplan hd
    rw [Plan.traderGets_buy hd, neg_neg]
    by_cases hsender : sender = x.contract
    · -- the contract brings nothing, and the connector and the owner get something
      rw [if_pos hsender]
      exact ⟨fun h => by linarith, fun h => absurd hsender h.1⟩
    · rw [if_neg hsender]
      exact ⟨fun h => ⟨hsender, fun _ => h⟩, fun h => h.2 rfl⟩
  | sell =>
    have hlegs := hp.unredeemed hd hno
    rw [Plan.traderGets_sell hd]
    by_cases hsender : sender = x.contract
    · rw [if_pos hsender]
      exact ⟨fun h => by linarith, fun h => absurd hsender h.1⟩
    · rw [if_neg hsender]
      exact ⟨fun _ => ⟨hsender, nofun⟩, fun _ => by linarith⟩

variable [LawfulReserve ρ] {signers : Signers} {receipt : Receipt}

theorem Converts.custody_sub (hx : x.WellFormed) (hconf : x.configuration.get? = some conf)
    (hno : receipt.plan.overrideApplied = false)
    (h : x.Converts signers sender given wanted receipt c y) :
    y.custody conf.connected - x.custody conf.connected =
        receipt.plan.inflow sender conf.owner x.contract ∧
      y.connectorBalance receipt.plan.smart - x.connectorBalance receipt.plan.smart =
        receipt.plan.balanceDelta := by
  obtain ⟨conf', reg, hp⟩ := h.plans_connector hx
  obtain rfl : conf' = conf := Option.some.inj (hp.configuration.symm.trans hconf)
  -- the connector of the plan is the one that is written
  have hconnector : ∀ final r, (x.settled c receipt.plan.balanceDelta final r).connectorBalance
        receipt.plan.smart - x.connectorBalance receipt.plan.smart =
      receipt.plan.balanceDelta := by
    intro final r
    rw [hp.smart_eq, connectorBalance_insert (x := x) rfl,
      connectorBalance_of_connector? hp.connector]
    show c.balance.amount + receipt.plan.balanceDelta - c.balance.amount = _
    ring
  cases hd : receipt.plan.direction with
  | buy =>
    obtain ⟨conf'', _, _, final, hs, rfl, _⟩ := (returns_settle_buy hd).1 h.settles
    obtain rfl := Option.some.inj (hs.configuration.symm.trans hconf)
    exact ⟨hs.custody_sub hx hd hp, hconnector final x.reserve⟩
  | sell =>
    obtain ⟨conf'', _, _, _, final, r, hs, rfl, _⟩ := (returns_settle_sell hd).1 h.settles
    obtain rfl := Option.some.inj (hs.configuration.symm.trans hconf)
    exact ⟨hs.custody_sub hx hd hno hp, hconnector final r⟩

/-- How custody moves, whoever the parties are. A new connector is paid for unless the contract
owns itself. A conversion without override brings the contract `Plan.inflow`, which is what the
connector gains, and a fee that the contract owes itself, exactly when another account sends it
and its payment is not cut off. -/
theorem custody_follows_iff (hx : x.Reachable) (hconf : x.configuration.get? = some conf) :
    (∀ {now : Int} {smart : Token} {balance : Asset} {weight : Decimal} {y : Exchange ρ},
      x.connect now signers smart balance weight = .ok ⟨.ok (), y⟩ →
        y.custody conf.connected - x.custody conf.connected =
            (if conf.owner = x.contract then 0 else balance.amount) ∧
          y.connectorBalance smart - x.connectorBalance smart = balance.amount ∧
          (x.CustodyFollows y conf smart 0 ↔ conf.owner ≠ x.contract)) ∧
    (∀ {now : Int} {sender : Account} {given wanted : Asset} {receipt : Receipt} {y : Exchange ρ},
      x.convert now signers sender given wanted = .ok ⟨.ok receipt, y⟩ →
      receipt.plan.overrideApplied = false →
        y.custody conf.connected - x.custody conf.connected =
            receipt.plan.inflow sender conf.owner x.contract ∧
          y.connectorBalance receipt.plan.smart - x.connectorBalance receipt.plan.smart =
            receipt.plan.balanceDelta ∧
          (x.CustodyFollows y conf receipt.plan.smart
              (if conf.owner = x.contract then receipt.plan.fee.amount else 0) ↔
            sender ≠ x.contract ∧ (receipt.plan.direction = .buy →
              receipt.plan.pay.amount = receipt.plan.balanceDelta + receipt.plan.fee.amount))) := by
  have hwf := hx.wellFormed
  constructor
  · intro now smart balance weight y h
    obtain ⟨z, payload, hz, rfl⟩ := commit_eq_ok_ok.1 h
    obtain ⟨conf', l, hconnects, rfl⟩ := returns_connectChange hz
    obtain rfl := Option.some.inj (hconnects.configuration.symm.trans hconf)
    have hcustody := hconnects.custody_sub
    have hconnector := hconnects.connectorBalance_sub
    refine ⟨hcustody, hconnector, ?_⟩
    show (x.opened smart balance weight l).custody _ - _ =
      (x.opened smart balance weight l).connectorBalance smart - _ + 0 ↔ _
    rw [hcustody, hconnector, add_zero]
    have hpos := hconnects.balance_pos
    by_cases howner : conf'.owner = x.contract
    · rw [if_pos howner]
      exact ⟨fun heq => absurd heq hpos.ne, fun hne => absurd howner hne⟩
    · rw [if_neg howner]
      exact ⟨fun _ => howner, fun _ => rfl⟩
  · intro now sender given wanted receipt y h hno
    obtain ⟨c, z, hconverts, rfl⟩ := convert_eq_ok.1 h
    obtain ⟨hcustody, hconnector⟩ := hconverts.custody_sub hwf hconf hno
    refine ⟨hcustody, hconnector, ?_⟩
    show z.custody _ - _ = z.connectorBalance _ - _ + _ ↔ _
    rw [hcustody, hconnector]
    obtain ⟨conf', reg, hp, hplan⟩ := returns_plan (fun hc => hwf.balance_le hc) hconverts.plans
    obtain rfl := Option.some.inj (hp.configuration.symm.trans hconf)
    obtain ⟨paid, hpaid⟩ := hconverts.pays
    exact hp.inflow_eq_iff hplan (hwf.ledger.returns_transfer.1 hpaid).1.amount_pos hno

/-- In the market the owner pays for a second connector, and Alice for what she buys. -/
theorem custody_follows_buy :
    ∃ (x y z : Exchange Pool) (receipt : Receipt), x.Reachable ∧
      y.custody Sample.connected - x.custody Sample.connected = 500 ∧
      receipt.plan.balanceDelta = 990 ∧
      x.CustodyFollows z ⟨Sample.connected, ⟨10⟩, 0, Sample.owner⟩ Sample.smart 0 := by
  have hyields : Abort.Yields (inMemory.trace (Sample.market ++
      [.ledger (.issue Sample.owner ⟨500, Sample.connected⟩ "")])) fun r =>
        r.2.configuration.get? = some ⟨Sample.connected, ⟨10⟩, 0, Sample.owner⟩ ∧
        Sample.alice ≠ r.2.contract ∧ Sample.owner ≠ r.2.contract ∧
        Abort.Yields (r.2.connect 0 [Sample.contract] ⟨⟨"OTHER", 4⟩, ⟨"gxc.token"⟩⟩
          ⟨500, Sample.connected⟩ .one) (fun reply => Abort.Yields reply.answer fun _ => True) ∧
        Abort.Yields (r.2.convert 0 [Sample.alice] Sample.alice ⟨1000, Sample.connected⟩
          ⟨0, Sample.smart⟩) fun reply => Abort.Yields reply.answer fun receipt =>
            receipt.plan.overrideApplied = false ∧ receipt.plan.smart = Sample.smart ∧
              receipt.plan.balanceDelta = 990 ∧ receipt.plan.pay.amount =
                receipt.plan.balanceDelta + receipt.plan.fee.amount := by
    decide +kernel
  obtain ⟨r, hr, hconf, hsender, howner, ⟨⟨_, y⟩, hconnect, _, rfl, _⟩, ⟨_, z⟩, hconvert, receipt,
    rfl, hno, hsmart, hdelta, hpay⟩ := hyields
  have hreach : r.2.Reachable := Sample.reachable_trace (by decide) hr
  have hconnects := (custody_follows_iff hreach hconf).1 hconnect
  have hconverts := (custody_follows_iff hreach hconf).2 hconvert hno
  refine ⟨r.2, y, z, receipt, hreach, ?_, hdelta, ?_⟩
  · rw [hconnects.1, if_neg howner]
  · have hfollows := hconverts.2.2.2 ⟨hsender, fun _ => hpay⟩
    rwa [if_neg howner, hsmart] at hfollows

/-- A contract that owns itself opens a connector of a thousand units and pays for it out of what
it has already: custody does not follow. -/
theorem unbacked_connector :
    ∃ x y : Exchange Pool, x.Reachable ∧
      x.connect 0 [Sample.contract] Sample.smart ⟨1000, Sample.connected⟩ ⟨5, 1, false⟩ =
        .ok ⟨.ok (), y⟩ ∧
      y.connectorBalance Sample.smart - x.connectorBalance Sample.smart = 1000 ∧
      y.custody Sample.connected - x.custody Sample.connected = 0 ∧
      ¬x.CustodyFollows y (.new Sample.contract Sample.connected) Sample.smart 0 := by
  have hyields : Abort.Yields (inMemory.trace Sample.selfOwned) fun r =>
      Abort.Yields (r.2.connect 0 [Sample.contract] Sample.smart ⟨1000, Sample.connected⟩
        ⟨5, 1, false⟩) fun reply => Abort.Yields reply.answer fun _ =>
          reply.exchange.connectorBalance Sample.smart - r.2.connectorBalance Sample.smart = 1000 ∧
          reply.exchange.custody Sample.connected - r.2.custody Sample.connected = 0 := by
    decide +kernel
  obtain ⟨r, hr, ⟨_, y⟩, hconnect, _, rfl, hconnector, hcustody⟩ := hyields
  refine ⟨r.2, y, Sample.reachable_trace (by decide) hr, hconnect, hconnector, hcustody, ?_⟩
  intro hfollows
  have heq : (0 : ℤ) = 1000 + 0 :=
    hcustody.symm.trans (Eq.trans hfollows (congrArg (· + 0) hconnector))
  exact absurd heq (by decide)

end Exchange
end BondingCurve
