import BondingCurve.Proofs.Exchange.Exactness
import BondingCurve.Proofs.Exchange.Rollback
import BondingCurve.Proofs.Ledger.Conservation

/-!
# Who can lose tokens

A movement on a ledger takes tokens from the one account it names as its payer, and none from an
account that is frozen (`Ledger.Spends`). The legs of a settlement name the trader, the contract
and, where tokens are redeemed, the account of the reserve. So whoever has less after a request is
among `Request.Pays`, and the request was signed by its `Request.authority`
(`losses_are_signed`). Nothing here asks for a consistent ledger or a reachable exchange.
-/

namespace BondingCurve

open Outcome

namespace Ledger

variable {l l' l'' : Ledger} {s r : Account} {v : Asset} {memo : String} {P Q : Account → Prop}

/-- At most the accounts in `P` have less than before, frozen accounts have what they had, and the
same accounts are frozen. -/
structure Spends (P : Account → Prop) (l l' : Ledger) : Prop where
  frozen : l'.frozen = l.frozen
  kept : ∀ {a}, l.isFrozen a = true → ∀ t, l'.balanceOf a t = l.balanceOf a t
  payer : ∀ {a t}, l'.balanceOf a t < l.balanceOf a t → P a

namespace Spends

theorem refl (P : Account → Prop) (l : Ledger) : Spends P l l :=
  ⟨rfl, fun _ _ => rfl, fun h => absurd h (lt_irrefl _)⟩

theorem mono (h : Spends P l l') (hPQ : ∀ {a}, P a → Q a) : Spends Q l l' :=
  ⟨h.frozen, h.kept, fun hlt => hPQ (h.payer hlt)⟩

theorem isFrozen (h : Spends P l l') (a : Account) : l'.isFrozen a = l.isFrozen a := by
  rw [Ledger.isFrozen, h.frozen, Ledger.isFrozen]

theorem trans (h : Spends P l l') (h' : Spends P l' l'') : Spends P l l'' := by
  refine ⟨h'.frozen.trans h.frozen, ?_, ?_⟩
  · intro a ha t
    rw [h'.kept ((h.isFrozen a).trans ha), h.kept ha]
  · intro a t hlt
    -- what is lost over two steps is lost in one of them
    rcases lt_or_ge (l'.balanceOf a t) (l.balanceOf a t) with hfirst | hfirst
    · exact h.payer hfirst
    · exact h'.payer (hlt.trans_le hfirst)

end Spends

/-- An account that is not frozen is none of those that are. -/
theorem ne_of_isFrozen {a b : Account} (ha : l.isFrozen a = true) (hb : l.isFrozen b = false) :
    a ≠ b := by
  intro heq
  rw [heq, hb] at ha
  cases ha

theorem transfer_spends (h : (l.transfer s r v memo).Returns l') : Spends (· = s) l l' := by
  obtain ⟨hcan, -, rfl⟩ := returns_transfer.1 h
  have hpos := hcan.amount_pos
  refine ⟨rfl, ?_, ?_⟩
  · intro a ha t
    have hs : a ≠ s := ne_of_isFrozen ha hcan.sender_active
    have hr : a ≠ r := ne_of_isFrozen ha hcan.receiver_active
    simp [balanceOf_transferred, hs, hr]
  · intro a t hlt
    by_contra hs
    rw [balanceOf_transferred, if_neg fun h => hs h.1, sub_zero] at hlt
    split at hlt
    · linarith
    · linarith

/-- Where one balance moves with the supply, its owner pays if it goes down. -/
theorem adjusted_spends {reg : Registration} {a : Account} {t : Token} {n : Amount}
    (ha : l.isFrozen a = false) (hP : n < 0 → P a) : Spends P l (l.adjusted reg a t n) := by
  refine ⟨rfl, ?_, ?_⟩
  · intro b hb u
    have hba : b ≠ a := ne_of_isFrozen hb ha
    rw [balanceOf_adjusted, if_neg fun h => hba h.1, add_zero]
  · intro b u hlt
    rw [balanceOf_adjusted] at hlt
    split at hlt
    · next hb =>
      rw [hb.1]
      exact hP (by linarith)
    · linarith

theorem issue_spends (h : (l.issue r v memo).Returns l') : Spends (fun _ => False) l l' := by
  obtain ⟨reg, hcan, -, -, rfl⟩ := returns_issue.1 h
  have hpos := hcan.amount_pos
  have hspends : Spends (fun _ => False) l (l.adjusted reg r v.token v.amount) :=
    adjusted_spends hcan.receiver_active fun hneg => by linarith
  exact ⟨hspends.frozen, hspends.kept, hspends.payer⟩

theorem retire_spends (h : (l.retire s v memo).Returns l') : Spends (· = s) l l' := by
  obtain ⟨reg, hcan, rfl⟩ := returns_retire.1 h
  have hspends : Spends (· = s) l (l.adjusted reg s v.token (-v.amount)) :=
    adjusted_spends hcan.sender_active fun _ => rfl
  exact ⟨hspends.frozen, hspends.kept, hspends.payer⟩

/-- Whose tokens a call takes. -/
def Call.payer? : Call → Option Account
  | .transfer s .. | .retire s .. => some s
  | .createToken .. | .freeze _ | .unfreeze _ | .issue .. => none

/-- A movement takes tokens from nobody but its payer, and leaves frozen accounts alone. -/
theorem call_spends {c : Call} (hc : c.IsMovement) (h : (l.call c).Returns l') :
    Spends (fun a => c.payer? = some a) l l' := by
  cases c with
  | createToken t n => exact hc.elim
  | freeze a => exact hc.elim
  | unfreeze a => exact hc.elim
  | transfer s r v memo => exact (transfer_spends h).mono fun ha => congrArg some ha.symm
  | issue r v memo => exact (issue_spends h).mono False.elim
  | retire s v memo => exact (retire_spends h).mono fun ha => congrArg some ha.symm

theorem after_spends {c : Call} (hc : c.IsMovement) (h : l.after c = .ok l') :
    Spends (fun a => c.payer? = some a) l l' := by
  rcases after_cases h with hreturns | rfl
  · exact call_spends hc hreturns
  · exact .refl _ _

end Ledger

/-! ## Conversions -/

namespace Exchange

section Legs

variable {ρ : Type} {x : Exchange ρ} {sender : Account} {c : Connector} {p : Plan}
  {conf : Configuration}

/-- The owner's fee comes from the contract. -/
theorem FeePaid.spends {l l' : Ledger} {owner : Account} {fee : Asset}
    (h : x.FeePaid l owner fee l') : l.Spends (· = x.contract) l' := by
  rcases h with ⟨-, h⟩ | ⟨-, rfl⟩
  · exact Ledger.transfer_spends h
  · exact .refl _ _

/-- A buy takes tokens from the trader and, for the fee, from the contract. -/
theorem SettlesBuy.spends {paid charged final : Ledger}
    (h : x.SettlesBuy sender c p conf paid charged final) :
    x.ledger.Spends (fun a => a = sender ∨ a = x.contract) final := by
  have hpays := (Ledger.transfer_spends h.pays).mono (Q := fun a => a = sender ∨ a = x.contract)
    .inl
  have hcharges := h.charges.spends.mono (Q := fun a => a = sender ∨ a = x.contract) .inr
  have hissues := (Ledger.issue_spends h.issues).mono
    (Q := fun a => a = sender ∨ a = x.contract) False.elim
  exact (hpays.trans hcharges).trans hissues

end Legs

variable {x y : Exchange Pool} {sender : Account} {c : Connector} {p : Plan}

/-- Sold tokens are the contract's by then, and a payout for them is the reserve's. -/
theorem TakenIn.spends {contract : Account} {pool pool' : Pool} {l l' : Ledger}
    (h : TakenIn contract pool l p l' pool') :
    l.Spends (fun a => a = contract ∨ p.overrideApplied = true ∧ a = pool.account) l' := by
  cases h with
  | burned _ hl => exact (Ledger.retire_spends hl).mono .inl
  | redeemed hover hclaim hpayout =>
    obtain ⟨record, burnt, hredeems⟩ := (Pool.claim_eq_ok.1 hclaim).redeems hpayout
    have hburns := (Ledger.retire_spends hredeems.burns).mono
      (Q := fun a => a = contract ∨ p.overrideApplied = true ∧ a = pool.account) .inl
    -- a payout of nothing is not transferred
    rcases hredeems.payout_nonneg.lt_or_eq with hpos | hzero
    · exact hburns.trans ((Ledger.transfer_spends (hredeems.pays hpos)).mono
        fun ha => .inr ⟨hover, ha⟩)
    · rw [hredeems.pays_nothing hzero.symm]
      exact hburns

/-- Who pays in a settlement: the trader, the contract, and the reserve for what it redeems. -/
def SettlementPays (x : Exchange Pool) (sender : Account) (p : Plan) (a : Account) : Prop :=
  a = sender ∨ a = x.contract ∨ p.IsRedeemed ∧ a = x.reserve.account

theorem SettlesSell.spends {conf : Configuration} {paid taken charged final : Ledger}
    {pool : Pool} (hd : p.direction = .sell)
    (h : x.SettlesSell sender c p conf paid taken charged final pool) :
    x.ledger.Spends (x.SettlementPays sender p) final := by
  have hpays := (Ledger.transfer_spends h.pays).mono (Q := x.SettlementPays sender p) .inl
  have htakes : paid.Spends (x.SettlementPays sender p) taken := by
    apply h.takes.spends.mono
    intro a ha
    rcases ha with ha | ⟨hover, ha⟩
    · exact .inr (.inl ha)
    · exact .inr (.inr ⟨⟨hd, hover⟩, ha⟩)
  have hcharges := h.charges.spends.mono (Q := x.SettlementPays sender p) fun ha => .inr (.inl ha)
  have hdelivers := (Ledger.transfer_spends h.delivers).mono (Q := x.SettlementPays sender p)
    fun ha => .inr (.inl ha)
  exact ((hpays.trans htakes).trans hcharges).trans hdelivers

theorem Converts.spends {signers : Signers} {given wanted : Asset} {receipt : Receipt}
    (h : x.Converts signers sender given wanted receipt c y) :
    x.ledger.Spends (x.SettlementPays sender receipt.plan) y.ledger := by
  cases hd : receipt.plan.direction with
  | buy =>
    obtain ⟨_, _, _, final, hsettles, rfl, -⟩ := (returns_settle_buy hd).1 h.settles
    apply hsettles.spends.mono
    intro a ha
    rcases ha with ha | ha
    · exact .inl ha
    · exact .inr (.inl ha)
  | sell =>
    obtain ⟨_, _, _, _, final, _, hsettles, rfl, -⟩ := (returns_settle_sell hd).1 h.settles
    exact hsettles.spends hd

end Exchange

/-! ## Requests -/

/-- Whose signature a request needs. -/
def Request.authority {ρ α : Type} (x : Exchange ρ) : Request α → Account
  | .init .. | .connect .. | .setCharge .. | .setOwner .. => x.contract
  | .convert sender .. => sender

/-- Whose tokens a request takes that is answered with `answer`. -/
def Request.Pays (x : Exchange Pool) : {α : Type} → Request α → (answer : α) → Account → Prop
  | _, .init .., _, _ | _, .setCharge .., _, _ | _, .setOwner .., _, _ => False
  | _, .connect .., _, a => ∃ conf, x.configuration.get? = some conf ∧ a = conf.owner
  | _, .convert sender .., receipt, a => x.SettlementPays sender receipt.plan a

namespace Exchange

variable {ρ α : Type} {signers : Signers} {now : Int}

/-- What begins with asking for a signature returns nothing without it. -/
theorem signed_of_returns {β : Type} {a : Account} {f : Unit → Outcome ExchangeError β} {b : β}
    (h : (signers.require a >>= f).Returns b) : a ∈ signers := by
  obtain ⟨_, hsigned, -⟩ := returns_bind.1 h
  exact returns_require.1 hsigned

theorem SameBooks.spends {P : Account → Prop} {x y : Exchange ρ} (h : x.SameBooks y) :
    x.ledger.Spends P y.ledger := by
  rw [h.ledger]
  exact .refl P x.ledger

variable {x y : Exchange Pool}

/-- A request that succeeds was signed by its authority, and took tokens from its payers only. -/
theorem perform_spends {r : Request α} {v : α}
    (h : x.perform now signers r = .ok ⟨.ok v, y⟩) :
    r.authority x ∈ signers ∧ x.ledger.Spends (r.Pays x v) y.ledger := by
  cases r with
  | init owner connected =>
    obtain ⟨z, payload, hz, rfl⟩ := commit_eq_ok_ok.1 h
    exact ⟨signed_of_returns hz, (sameBooks_initChange hz).spends⟩
  | connect smart balance weight =>
    obtain ⟨z, payload, hz, rfl⟩ := commit_eq_ok_ok.1 h
    refine ⟨signed_of_returns hz, ?_⟩
    obtain ⟨conf, l, hconnects, rfl⟩ := returns_connectChange hz
    exact (Ledger.transfer_spends hconnects.deposits).mono
      fun ha => ⟨conf, hconnects.configuration, ha⟩
  | setCharge rate fixed target =>
    obtain ⟨z, payload, hz, rfl⟩ := commit_eq_ok_ok.1 h
    exact ⟨signed_of_returns hz, (sameBooks_setChargeChange hz).spends⟩
  | setOwner owner =>
    obtain ⟨z, payload, hz, rfl⟩ := commit_eq_ok_ok.1 h
    exact ⟨signed_of_returns hz, (sameBooks_setOwnerChange hz).spends⟩
  | convert sender given wanted =>
    obtain ⟨c, z, hconverts, rfl⟩ := convert_eq_ok.1 h
    exact ⟨hconverts.signed, hconverts.spends⟩

/-- In every state: a request that is granted was signed, by the contract or for a conversion by
its sender; whoever has less of a token after a request is one of its payers; and neither a
request nor a movement on the ledger, granted or not, touches what a frozen account has. -/
theorem losses_are_signed :
    (∀ {α : Type} {x y : Exchange Pool} {now : Int} {signers : Signers} {r : Request α}
      {answer : Except ExchangeError α}, x.perform now signers r = .ok ⟨answer, y⟩ →
      (∀ v, answer = .ok v → r.authority x ∈ signers) ∧
      (∀ a t, y.ledger.balanceOf a t < x.ledger.balanceOf a t →
        ∃ v, answer = .ok v ∧ r.authority x ∈ signers ∧ r.Pays x v a) ∧
      ∀ a t, x.ledger.isFrozen a = true → y.ledger.balanceOf a t = x.ledger.balanceOf a t) ∧
    ∀ {l l' : Ledger} {c : Ledger.Call}, c.IsMovement → l.after c = .ok l' →
      ∀ a t, l.isFrozen a = true → l'.balanceOf a t = l.balanceOf a t := by
  refine ⟨?_, ?_⟩
  · intro α x y now signers r answer h
    rcases answer with e | v
    · -- a refused request leaves the ledger as it was
      obtain ⟨-, hstate, -⟩ := failure_restores h
      rw [hstate.ledger]
      refine ⟨nofun, ?_, fun _ _ _ => rfl⟩
      intro a t hlt
      exact absurd hlt (lt_irrefl _)
    · obtain ⟨hsigned, hspends⟩ := perform_spends h
      refine ⟨fun _ _ => hsigned, ?_, fun a t ha => hspends.kept ha t⟩
      intro a t hlt
      exact ⟨v, rfl, hsigned, hspends.payer hlt⟩
  · intro l l' c hc h a t ha
    exact (Ledger.after_spends hc h).kept ha t

/-- Alice sells to the reserve, which pays her from its account. Meanwhile the owner of another
five units is frozen, and can neither be paid out nor be emptied. -/
theorem reserve_pays_sale :
    ∃ (x y : Exchange Pool) (receipt : Receipt) (l : Ledger) (frozen : Account),
      x.perform 0 [Sample.alice] (.convert Sample.alice ⟨100, Sample.smart⟩
        ⟨0, Sample.connected⟩) = .ok ⟨.ok receipt, y⟩ ∧
      y.ledger.balanceOf Pool.defaultAccount Sample.connected <
        x.ledger.balanceOf Pool.defaultAccount Sample.connected ∧
      Sample.alice ∈ [Sample.alice] ∧
      x.SettlementPays Sample.alice receipt.plan Pool.defaultAccount ∧
      y.ledger.balanceOf frozen Sample.connected = 5 ∧
      x.ledger.after (.transfer frozen Sample.alice ⟨5, Sample.connected⟩ "") = .ok l ∧
      l.balanceOf frozen Sample.connected = 5 := by
  have hyields : Abort.Yields (inMemory.trace (Sample.backedMarket ++
      [.ledger (.issue ⟨"carol"⟩ ⟨5, Sample.connected⟩ ""), .ledger (.freeze ⟨"carol"⟩)])) fun r =>
        r.2.ledger.isFrozen ⟨"carol"⟩ = true ∧
        r.2.ledger.balanceOf ⟨"carol"⟩ Sample.connected = 5 ∧
        Abort.Yields (r.2.ledger.after (.transfer ⟨"carol"⟩ Sample.alice ⟨5, Sample.connected⟩ ""))
          (fun _ => True) ∧
        Abort.Yields (r.2.perform 0 [Sample.alice] (.convert Sample.alice ⟨100, Sample.smart⟩
          ⟨0, Sample.connected⟩)) fun reply => Abort.Yields reply.answer fun _ =>
            reply.exchange.ledger.balanceOf Pool.defaultAccount Sample.connected <
              r.2.ledger.balanceOf Pool.defaultAccount Sample.connected := by
    decide +kernel
  obtain ⟨r, -, hfrozen, hheld, ⟨l, hl, -⟩, ⟨_, y⟩, hperform, receipt, rfl, hlt⟩ := hyields
  obtain ⟨hsigned, hpayers, hkept⟩ := losses_are_signed.1 hperform
  obtain ⟨_, hanswer, -, hpays⟩ := hpayers _ _ hlt
  cases hanswer
  refine ⟨r.2, y, receipt, l, ⟨"carol"⟩, hperform, hlt, hsigned receipt rfl, hpays, ?_, hl, ?_⟩
  · rw [hkept _ _ hfrozen, hheld]
  · rw [losses_are_signed.2 (c := .transfer _ _ _ _) trivial hl _ _ hfrozen, hheld]

end Exchange
end BondingCurve
