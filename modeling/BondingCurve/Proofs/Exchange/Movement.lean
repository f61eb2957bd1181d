import BondingCurve.Proofs.Exchange.Run
import BondingCurve.Proofs.Ledger.Effect

/-!
# What a settlement moves

The effects of a settlement's operations add up. `SettlesBuy.effect` and `SettlesSell.effect` are
the sums for a whole settlement.
-/

namespace BondingCurve

open Outcome

namespace Exchange

variable {ρ : Type} {x : Exchange ρ} {sender owner : Account} {c : Connector} {p : Plan}
  {conf : Configuration} {paid taken charged final : Ledger}

/-- A fee goes from the contract to the owner. A fee of nothing goes there as well. -/
theorem FeePaid.effect {l l' : Ledger} {fee : Asset} (hfee : 0 ≤ fee.amount)
    (h : x.FeePaid l owner fee l') : l.Effect l' (fee.on owner - fee.on x.contract) 0 := by
  rcases h with ⟨_, h⟩ | ⟨hle, rfl⟩
  · exact Ledger.transfer_effect h
  · have hzero : fee.amount = 0 := le_antisymm hle hfee
    rw [Asset.on_eq_zero hzero, Asset.on_eq_zero hzero, sub_zero]
    exact Ledger.effect_refl l'

/-- Nobody but the contract and the owner has to do with a fee, whatever its sign. -/
theorem FeePaid.balanceOf_of_ne {l l' : Ledger} {fee : Asset} {a : Account} (howner : a ≠ owner)
    (hcontract : a ≠ x.contract) (h : x.FeePaid l owner fee l') (t : Token) :
    l'.balanceOf a t = l.balanceOf a t := by
  rcases h with ⟨_, h⟩ | ⟨_, rfl⟩
  · exact Ledger.balanceOf_of_transfer hcontract howner h t
  · rfl

/-- A fee costs the contract its amount at most. -/
theorem FeePaid.le_balanceOf {l l' : Ledger} {fee : Asset} (hfee : 0 ≤ fee.amount)
    (h : x.FeePaid l owner fee l') :
    l.balanceOf x.contract fee.token - fee.amount ≤ l'.balanceOf x.contract fee.token := by
  have hbalance := (h.effect hfee).balanceOf x.contract fee.token
  have howner := Asset.on_nonneg hfee owner x.contract fee.token
  simp only [Pi.sub_apply, Asset.on_self] at hbalance
  rw [hbalance]
  linarith

/-- What a buy does to all balances and supplies. -/
theorem SettlesBuy.effect (hfee : 0 ≤ p.fee.amount)
    (h : x.SettlesBuy sender c p conf paid charged final) :
    x.ledger.Effect final
      (p.pay.on x.contract - p.pay.on sender + (p.fee.on conf.owner - p.fee.on x.contract) +
        p.receive.on sender)
      p.receive.inSupply := by
  -- the payment, the fee and what is minted; only the last changes a supply
  have heffect := ((Ledger.transfer_effect h.pays).trans (h.charges.effect hfee)).trans
    (Ledger.issue_effect h.issues)
  rwa [zero_add, zero_add] at heffect

variable [Reserve ρ] {r : ρ}

/-- What a sale does to all balances and supplies, given what taking the tokens in does. -/
theorem SettlesSell.effect {δ : Account → Token → ℤ} {σ : TokenKey → ℤ}
    (hfee : 0 ≤ p.fee.amount) (h : x.SettlesSell sender c p conf paid taken charged final r)
    (htaken : paid.Effect taken δ σ) :
    x.ledger.Effect final
      (p.pay.on x.contract - p.pay.on sender + δ + (p.fee.on conf.owner - p.fee.on x.contract) +
        (p.receive.on sender - p.receive.on x.contract)) σ := by
  have heffect := (((Ledger.transfer_effect h.pays).trans htaken).trans
    (h.charges.effect hfee)).trans (Ledger.transfer_effect h.delivers)
  rwa [zero_add, add_zero, add_zero] at heffect

end Exchange

/-- Behind a burn the ledger pays out where the account of the pool can pay. The owner, who has just
burned, can be paid. -/
theorem Pool.canTransfer_payout_iff {pool : Pool} {l burnt : Ledger} {owner : Account} {value : Asset}
    {reg : Registration} {r : ReserveRecord} {n : Amount} (hpos : 0 < n)
    (hcan : l.CanRetire reg owner value) (hburns : (l.retire owner value claimMemo).Returns burnt) :
    burnt.CanTransfer pool.account owner (r.underlying.withAmount n) ↔
      l.isFrozen pool.account = false ∧ l.Registers r.underlying.token ∧
        n ≤ l.balanceOf pool.account r.underlying.token -
          value.on owner pool.account r.underlying.token := by
  have heffect := Ledger.retire_effect hburns
  have hbalance := heffect.balanceOf pool.account r.underlying.token
  rw [Pi.neg_apply, Pi.neg_apply, ← sub_eq_add_neg] at hbalance
  constructor
  · rintro ⟨-, hregisters, hsender, -, hcovered⟩
    rw [heffect.isFrozen] at hsender
    exact ⟨hsender, heffect.registers.1 hregisters, hbalance ▸ hcovered⟩
  · rintro ⟨hsender, hregisters, hcovered⟩
    refine ⟨hpos, heffect.registers.2 hregisters, ?_, ?_, hbalance.symm ▸ hcovered⟩
    · rw [heffect.isFrozen]
      exact hsender
    · rw [heffect.isFrozen]
      exact hcan.sender_active

/-- What a redemption from a pool does: it burns the tokens of the claimant and pays him from the
pool's account. -/
theorem Pool.Redeems.effect {pool pool' : Pool} {l burnt l' : Ledger} {account : Account}
    {value payout : Asset} {record : ReserveRecord}
    (h : pool.Redeems l account value payout record burnt l' pool') :
    l.Effect l' (-value.on account + (payout.on account - payout.on pool.account))
      (-value.inSupply) := by
  have hburns := Ledger.retire_effect h.burns
  -- a payout of nothing is not transferred, which has the same effect
  rcases h.payout_nonneg.lt_or_eq with hpos | hzero
  · have heffect := hburns.trans (Ledger.transfer_effect (h.pays hpos))
    rwa [add_zero] at heffect
  · rw [h.pays_nothing hzero.symm, Asset.on_eq_zero hzero.symm, Asset.on_eq_zero hzero.symm,
      sub_zero, add_zero]
    exact hburns

end BondingCurve
