import BondingCurve.Proofs.Exchange.Exactness

/-!
# Custody covers the backing

Over a pool, and as long as the contract is no party to conversions, no owner and no reserve, a
run keeps the backing covered by the contract's custody (`Run.custody_covers`). The two are equal
until somebody gives the contract connected tokens, or a sale is redeemed for more than the
connector gave up.
-/

namespace BondingCurve

open Outcome

namespace Exchange

/-- What the accounts around an exchange must keep to in a transition: the contract is neither the
owner nor the reserve, sends no conversion, and loses no connected tokens by an operation on the
ledger that is no request. -/
structure Transition.IsArmsLength (τ : Transition Pool) : Prop where
  owner : ∀ conf ∈ τ.before.configuration.get?, conf.owner ≠ τ.before.contract
  account : τ.before.reserve.account ≠ τ.before.contract
  sender : ∀ sender ∈ τ.action.sender?, sender ≠ τ.before.contract
  undebited : τ.action.IsCall → ∀ t ∈ τ.before.connected?, τ.before.custody t ≤ τ.after.custody t

instance (τ : Transition Pool) : Decidable τ.IsArmsLength :=
  decidable_of_iff
    ((∀ conf ∈ τ.before.configuration.get?, conf.owner ≠ τ.before.contract) ∧
      τ.before.reserve.account ≠ τ.before.contract ∧
      (∀ sender ∈ τ.action.sender?, sender ≠ τ.before.contract) ∧
      (τ.action.IsCall → ∀ t ∈ τ.before.connected?, τ.before.custody t ≤ τ.after.custody t))
    ⟨fun ⟨h₁, h₂, h₃, h₄⟩ => ⟨h₁, h₂, h₃, h₄⟩, fun ⟨h₁, h₂, h₃, h₄⟩ => ⟨h₁, h₂, h₃, h₄⟩⟩

/-- An operation on the ledger that is no request gives the contract some of a token. -/
def Transition.Credits (τ : Transition Pool) (t : Token) : Prop :=
  τ.action.IsCall ∧ τ.before.custody t < τ.after.custody t

instance (τ : Transition Pool) (t : Token) : Decidable (τ.Credits t) :=
  inferInstanceAs (Decidable (_ ∧ _))

/-- A sale is committed at an administered rate. -/
def Transition.Redeems (τ : Transition Pool) : Prop := ∃ r ∈ τ.receipt?, r.plan.IsRedeemed

instance (τ : Transition Pool) : Decidable τ.Redeems := inferInstanceAs (Decidable (∃ _ ∈ _, _))

variable {x y : Exchange Pool} {a : Action Pool} {t : Token} {c : Connector} {sender : Account}
  {conf : Configuration} {p : Plan} {payout : Amount}

/-! ## One transition -/

/-- Among parties that are all others than the contract, a plan moves custody by what it keeps. -/
theorem Performs.custody_eq (hne : c.smart ≠ conf.connected) (hsender : sender ≠ x.contract)
    (howner : conf.owner ≠ x.contract) (haccount : x.reserve.account ≠ x.contract)
    (h : x.Performs sender conf c p payout y) :
    y.custody conf.connected = x.custody conf.connected + p.kept payout := by
  have hcontract : y.contract = x.contract := by rw [contract, h.settings, contract]
  rw [custody, hcontract, h.balances, if_pos rfl, if_neg hne.symm]
  simp only [Plan.moves, Account.gets, Pi.add_apply, if_neg hsender.symm, if_neg howner.symm,
    if_neg haccount.symm, if_pos]
  rw [custody]
  ring

/-- The contract never keeps less than the connector's delta. A redeemed sale is paid for by the
reserve, and the connector gives up what the curve says all the same. -/
theorem Performs.delta_le_kept {given wanted : Asset} {reg : Registration}
    (hp : x.Plans given wanted conf c reg p) (h : x.Performs sender conf c p payout y) :
    p.balanceDelta ≤ p.kept payout ∧ (¬p.IsRedeemed → p.kept payout = p.balanceDelta) := by
  unfold Plan.kept
  have hpays := h.reserve
  unfold Pays at hpays
  by_cases hr : p.IsRedeemed
  · rw [if_pos hr] at hpays ⊢
    obtain ⟨r, _, _, hcovers, _⟩ := hpays
    have hdelta := (hp.sells hr.1).2.1
    exact ⟨by linarith, fun hno => absurd hr hno⟩
  · rw [if_neg hr]
    exact ⟨le_rfl, fun _ => rfl⟩

/-- A transition at arm's length of an exchange whose custody of `t` covers its backing, where `t`
is its connected token if it has one. -/
theorem Step.covers (hx : x.WellFormed) (ha : a.InRange)
    (hconnected : ∀ u ∈ x.connected?, u = t) (hcovers : x.backing ≤ x.custody t)
    (harms : (Transition.mk x a y).IsArmsLength) (h : x.Step a y) :
    y.backing ≤ y.custody t ∧
      (x.custody t = x.backing → ¬(Transition.mk x a y).Credits t →
        ¬(Transition.mk x a y).Redeems → y.custody t = y.backing) := by
  cases h with
  | idle h =>
    -- neither side changes
    have hbacking : y.backing = x.backing := by rw [backing, h.connectors, backing]
    have hcustody : y.custody t = x.custody t := by
      rw [custody, custody, contract, contract, h.ledger, h.settings]
    rw [hbacking, hcustody]
    exact ⟨hcovers, fun heq _ _ => heq⟩
  | @connects now signers smart balance weight conf l payload h =>
    -- the owner pays for the new connector, so both sides grow alike
    obtain rfl := hconnected _ (connected?_of_configuration h.configuration)
    have hcustody := h.custody_eq (harms.owner conf h.configuration)
    have hbacking := h.backing_eq
    show (x.opened smart balance weight l).backing ≤ (x.opened smart balance weight l).custody _ ∧
      (_ → _ → _ → (x.opened smart balance weight l).custody _ =
        (x.opened smart balance weight l).backing)
    rw [hcustody, hbacking]
    exact ⟨by linarith, fun heq _ _ => by rw [heq]⟩
  | @converts now signers sender given wanted receipt c z h =>
    have hsolvent : x.Solvent := fun u hu => hconnected u hu ▸ hcovers
    have hsender := harms.sender sender rfl
    obtain ⟨conf, reg, payout, hp, hperforms, _⟩ := h.performs hx hsolvent hsender
    obtain rfl := hconnected _ (connected?_of_configuration hp.configuration)
    have hcustody := hperforms.custody_eq (hp.smart_ne hx) hsender
      (harms.owner conf hp.configuration) harms.account
    have hbacking := backing_moved hperforms.connectors hp.connector
    -- the connector moves by its delta, custody by what the contract keeps
    obtain ⟨hkept, hkept_eq⟩ := hperforms.delta_le_kept hp
    show z.backing ≤ z.custody _ ∧ (_ → _ → _ → z.custody _ = z.backing)
    rw [hcustody, hbacking]
    refine ⟨by linarith, fun heq _ hno => ?_⟩
    have hunredeemed : ¬receipt.plan.IsRedeemed := fun hr => hno
      ⟨receipt, receipt?_of_convert (convert_eq_ok.2 ⟨c, z, h, rfl⟩), hr⟩
    rw [hkept_eq hunredeemed, heq]
  | @calls call l h =>
    have hcovers' : x.backing ≤ l.balanceOf x.contract t := by
      rcases hc : x.connected? with _ | u
      · -- no connected token yet, so no connectors, and no balance is negative
        rw [backing_of_not_connected hx hc]
        exact (hx.ledger.call ha h).balance_nonneg _ _
      · obtain rfl := hconnected u hc
        exact hcovers.trans (harms.undebited trivial u hc)
    -- the connectors are not touched, and custody grows only by a credit
    refine ⟨hcovers', fun heq hno _ => ?_⟩
    have hle : l.balanceOf x.contract t ≤ x.custody t := by
      by_contra hlt
      exact hno ⟨trivial, not_le.1 hlt⟩
    exact le_antisymm (heq ▸ hle) hcovers'
  | reserves => exact ⟨hcovers, fun heq _ _ => heq⟩

/-! ## Runs -/

/-- Custody covers the backing after every run at arm's length, and equals it when nobody gave the
contract connected tokens and no sale was redeemed. -/
theorem Run.custody_covers {settings : Settings} {pool : Pool} {trace : List (Transition Pool)}
    (h : Run settings pool trace x) (harms : ∀ τ ∈ trace, τ.IsArmsLength)
    (ht : x.connected? = some t) :
    x.backing ≤ x.custody t ∧
      ((∀ τ ∈ trace, ¬τ.Credits t ∧ ¬τ.Redeems) → x.custody t = x.backing) := by
  -- the connected token at the end is the only one there can have been
  have hconnected : ∀ u ∈ x.connected?, u = t := by
    intro u hu
    exact Option.some.inj (hu.symm.trans ht)
  clear ht
  induction h with
  | start => exact ⟨le_rfl, fun _ => rfl⟩
  | @step trace x y a hrun ha hy ih =>
    have hstep := step_of_act hy
    have hbefore : ∀ u ∈ x.connected?, u = t := fun u hu =>
      hconnected u (hstep.connected hu)
    obtain ⟨hcovers, heq⟩ := ih (fun τ hτ => harms τ (List.mem_append_left _ hτ)) hbefore
    have hlast := harms ⟨x, a, y⟩ (List.mem_append_right _ List.mem_cons_self)
    obtain ⟨hcovers', heq'⟩ := hstep.covers hrun.wellFormed ha hbefore hcovers hlast
    refine ⟨hcovers', fun hclean => ?_⟩
    obtain ⟨hcredits, hredeems⟩ := hclean ⟨x, a, y⟩ (List.mem_append_right _ List.mem_cons_self)
    exact heq' (heq fun τ hτ => hclean τ (List.mem_append_left _ hτ)) hcredits hredeems

/-- Alice's buy leaves custody equal to the backing. -/
theorem custody_eq_backing_after_buy :
    ∃ r, inMemory.trace (Sample.market ++ [Sample.buy]) = .ok r ∧
      r.2.backing = 20990 ∧ r.2.custody Sample.connected = r.2.backing := by
  have hyields : Abort.Yields (inMemory.trace (Sample.market ++ [Sample.buy])) fun r =>
      r.2.backing = 20990 ∧ r.2.connected? = some Sample.connected ∧
        (∀ τ ∈ r.1, τ.IsArmsLength) ∧
        ∀ τ ∈ r.1, ¬τ.Credits Sample.connected ∧ ¬τ.Redeems := by
    decide +kernel
  obtain ⟨r, hr, hbacking, hconnected, harms, hclean⟩ := hyields
  have hrun := Sample.run_trace (by decide) hr
  exact ⟨r, hr, hbacking, (Run.custody_covers hrun harms hconnected).2 hclean⟩

end Exchange
end BondingCurve
