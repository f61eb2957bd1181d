import BondingCurve.Proofs.Exchange.Movement

/-!
# Backing and custody

The balances of all connectors together, the `backing`, are connected tokens that the contract
should hold, its `custody`. An exchange is solvent when it does. The legs of every plan add up,
except those of a payment that was cut off at the greatest amount, and nobody can make such a
payment to an exchange that is solvent (`Plans.pay_eq`).
-/

namespace BondingCurve

open Outcome

namespace Exchange

variable {ρ : Type} {x y : Exchange ρ} {c : Connector} {k : TokenKey} {t : Token}

/-! ## Backing and custody -/

/-- The balances of all connectors together. -/
def backing (x : Exchange ρ) : ℤ := (x.connectors.values.map fun c => c.balance.amount).sum

/-- What the contract holds of a token. -/
def custody (x : Exchange ρ) (t : Token) : ℤ := x.ledger.balanceOf x.contract t

/-- The contract holds what the connectors say. -/
def Solvent (x : Exchange ρ) : Prop := ∀ t ∈ x.connected?, x.backing ≤ x.custody t

instance (x : Exchange ρ) : Decidable x.Solvent := inferInstanceAs (Decidable (∀ _ ∈ _, _))

theorem backing_eq_sum : x.backing = x.connectors.sum fun _ c => c.balance.amount := by
  rw [backing, Table.values, Table.sum, List.map_map]
  rfl

/-- A connector is written over another one, or over none. -/
theorem backing_insert (h : y.connectors = x.connectors.insert k c) :
    y.backing = x.backing + c.balance.amount -
      x.connectors.share (fun _ c => c.balance.amount) k := by
  rw [backing_eq_sum, h, Table.sum_insert, ← backing_eq_sum]

/-- A connector moved by `delta` moves the backing by as much. -/
theorem backing_moved {delta : Amount}
    (h : y.connectors = x.connectors.insert c.smart.key (c.moved delta))
    (hc : x.connector? c.smart = some c) : y.backing = x.backing + delta := by
  rw [backing_insert h, Table.share_of_find? hc]
  show x.backing + (c.balance.amount + delta) - c.balance.amount = x.backing + delta
  ring

/-! ## New connectors -/

section Connects

variable {smart : Token} {balance : Asset} {weight : Decimal} {conf : Configuration} {l : Ledger}

theorem Connects.backing_eq (h : x.Connects smart balance weight conf l) :
    (x.opened smart balance weight l).backing = x.backing + balance.amount := by
  -- there was no connector under the key
  rw [backing_insert (x := x) rfl, Table.share_of_find?_eq_none h.new]
  exact Int.sub_zero _

/-- The owner pays what a new connector starts with. -/
theorem Connects.custody_eq (howner : conf.owner ≠ x.contract)
    (h : x.Connects smart balance weight conf l) :
    (x.opened smart balance weight l).custody conf.connected =
      x.custody conf.connected + balance.amount := by
  have hbalance := (Ledger.transfer_effect h.deposits).balanceOf x.contract balance.token
  rw [← h.balance_token, custody, custody]
  simp only [Pi.sub_apply, Asset.on_self, Asset.on_of_ne howner.symm, sub_zero] at hbalance
  exact hbalance

end Connects

theorem le_backing (hx : x.WellFormed) (h : x.connectors.find? k = some c) :
    c.balance.amount ≤ x.backing := by
  rw [backing_eq_sum]
  exact Table.le_sum (f := fun _ c => c.balance.amount)
    (fun _ _ hc => (hx.fits hc).balance_nonneg) h

/-- Without a connected token there are no connectors. -/
theorem backing_of_not_connected (hx : x.WellFormed) (h : x.connected? = none) :
    x.backing = 0 := by
  rw [backing_eq_sum]
  apply Table.sum_eq_zero
  intro k c hc
  -- a connector's balance is one of the connected token
  have hconnected := (hx.fits hc).connected
  rw [h] at hconnected
  cases hconnected

/-! ## Conversions -/

variable {sender : Account} {p : Plan} {conf : Configuration} {given wanted : Asset}
  {reg : Registration}

/-- What a connector holds is in the contract's custody. -/
theorem Plans.balance_le_custody [Reserve ρ] (hx : x.WellFormed) (hsolvent : x.Solvent)
    (hp : x.Plans given wanted conf c reg p) :
    c.balance.amount ≤ x.custody conf.connected :=
  (le_backing hx hp.connector).trans
    (hsolvent _ (connected?_of_configuration hp.configuration))

theorem Plans.smart_ne [Reserve ρ] (hx : x.WellFormed) (hp : x.Plans given wanted conf c reg p) :
    c.smart ≠ conf.connected := by
  have hc := hx.fits hp.connector
  have hconnected := hc.connected
  rw [connected?_of_configuration hp.configuration] at hconnected
  rw [Option.some.inj hconnected]
  exact hc.smart_ne

/-- The tokens of a buy's legs. -/
theorem Plans.buy_tokens [Reserve ρ] (hp : x.Plans given wanted conf c reg p)
    (hd : p.direction = .buy) :
    p.pay.token = conf.connected ∧ p.fee.token = conf.connected ∧ p.receive.token = c.smart := by
  have hdirects := hp.directs
  have hfee := hp.fee_token
  rw [hd] at hdirects hfee
  exact ⟨hp.pay_token.trans hdirects.1, hfee.trans hdirects.1,
    hp.receive_token.trans hdirects.2.symm⟩

/-- The tokens of a sale's legs. -/
theorem Plans.sell_tokens [Reserve ρ] (hp : x.Plans given wanted conf c reg p)
    (hd : p.direction = .sell) :
    p.pay.token = c.smart ∧ p.fee.token = conf.connected ∧ p.receive.token = conf.connected := by
  have hdirects := hp.directs
  have hfee := hp.fee_token
  rw [hd] at hdirects hfee
  exact ⟨hp.pay_token.trans hdirects.2.2.symm, hfee.trans hdirects.2.1,
    hp.receive_token.trans hdirects.2.1⟩

/-- A solvent exchange is never paid the greatest amount, so what a buyer pays adds up. -/
theorem Plans.pay_eq [Reserve ρ] (hx : x.WellFormed) (hsolvent : x.Solvent)
    (hsender : sender ≠ x.contract) (hd : p.direction = .buy)
    (hp : x.Plans given wanted conf c reg p)
    (hcovered : p.pay.amount ≤ x.ledger.balanceOf sender p.pay.token) :
    p.pay.amount = p.balanceDelta + p.fee.amount := by
  rcases (hp.buys hd).2 with heq | hcut
  · exact heq
  · -- the connector's balance is in the contract's custody, so no other account can hold the
    -- greatest amount
    exfalso
    have hcustody := hp.balance_le_custody hx hsolvent
    rw [custody, ← (hp.buy_tokens hd).1] at hcustody
    have hsum := hx.ledger.add_le_greatest (t := p.pay.token) hsender
    have hpos := hp.balance_pos
    rw [hcut] at hcovered
    linarith

end Exchange
end BondingCurve
