import BondingCurve.Proofs.Exchange.Solvency
import BondingCurve.Proofs.Ledger.Registration

/-!
# Which token a plan is priced by

A connector is found by contract and code, and its token must then be the one that was asked for.
The supply behind a price is found by contract and code as well, and there nobody compares: `connect`
takes a token without a look at the ledger, and a plan takes the supply of whatever is registered
under the key. Where that is the token of the plan, no step of a settlement finds another precision;
where it is not, the plan is priced by the supply of another token and never settles
(`quote_prices_registered`).
-/

namespace BondingCurve

open Outcome

namespace Exchange

variable {ρ : Type} {x y : Exchange ρ} {a : Action ρ} {given wanted : Asset} {p : Plan}
  {c : Connector}

/-! ## Settlements that a ledger refuses -/

section Refusals

variable {sender : Account} {signers : Signers} {e : LedgerError}

theorem raises_of_fails_payFee {owner : Account} {fee : Asset}
    (h : (x.payFee owner fee).Fails (.ledger e)) : x.ledger.Raises e := by
  simp only [payFee, fails_ite, fails_bind, fails_liftLedger, not_fails_pure,
    ExchangeError.ledger.injEq, exists_eq_right, and_false, exists_false, or_false] at h
  exact ⟨x.ledger, .transfer x.contract owner fee x.settings.feeMemo, .refl _, h.2⟩

variable [Reserve ρ]

/-- A payout that is turned down is an error of the reserve. -/
theorem raises_of_fails_takeIn (h : (x.takeIn p).Fails (.ledger e)) : x.ledger.Raises e := by
  have hredeem : ¬(x.redeem p).Fails (.ledger e) := by
    simp only [redeem, fails_bind, not_fails_liftPure, false_or]
    rintro ⟨result, -, h⟩
    rcases hpayout : result.payout with e' | payout
    · simp [hpayout] at h
    · simp [hpayout] at h
  simp only [takeIn, fails_ite, hredeem, and_false, false_or, fails_bind, fails_liftLedger,
    not_fails_pure, ExchangeError.ledger.injEq, exists_eq_right, exists_false, or_false] at h
  exact ⟨x.ledger, .retire x.contract p.pay convertMemo, .refl _, h.2⟩

variable [LawfulReserve ρ]

/-- Where a ledger refuses a settlement, it refuses one of its legs. -/
theorem raises_of_fails_settle (h : (x.settle sender c p).Fails (.ledger e)) :
    x.ledger.Raises e := by
  simp only [settle, fails_bind, fails_requireConfiguration, fails_liftCurve,
    reduceCtorEq, and_false, exists_false, false_or, fails_liftLedger, ExchangeError.ledger.injEq,
    exists_eq_right, returns_liftLedger] at h
  obtain ⟨conf, -, c', -, hpay | ⟨paid, hpaid, h⟩⟩ := h
  · exact ⟨x.ledger, .transfer sender x.contract p.pay convertMemo, .refl _, hpay⟩
  have hmoves := (Ledger.Moves.refl x.ledger).transfer hpaid
  cases hd : p.direction with
  | buy =>
    simp only [hd, fails_bind, fails_liftLedger, ExchangeError.ledger.injEq, exists_eq_right,
      not_fails_pure, and_false, exists_false, or_false, returns_payFee] at h
    obtain hfee | ⟨_, ⟨charged, hcharged, rfl⟩, hissue⟩ := h
    · exact hmoves.raises (raises_of_fails_payFee hfee)
    · exact ⟨charged, .issue sender p.receive convertMemo, hmoves.trans hcharged.moves, hissue⟩
  | sell =>
    simp only [hd, fails_bind, fails_liftLedger, ExchangeError.ledger.injEq, exists_eq_right,
      not_fails_pure, and_false, exists_false, or_false, returns_payFee, returns_takeIn] at h
    obtain htake | ⟨_, ⟨taken, r, htaken, rfl⟩, h⟩ := h
    · exact hmoves.raises (raises_of_fails_takeIn htake)
    have hmoves := hmoves.trans htaken.moves
    obtain hfee | ⟨_, ⟨charged, hcharged, rfl⟩, hdeliver⟩ := h
    · exact hmoves.raises (raises_of_fails_payFee hfee)
    · exact ⟨charged, .transfer x.contract sender p.receive convertMemo,
        hmoves.trans hcharged.moves, hdeliver⟩

/-- Where a ledger refuses a request that has a plan, it refuses a leg of the settlement. -/
theorem raises_of_convert {now : Int} (hplan : (x.plan given wanted).Returns (p, c))
    (h : x.convert now signers sender given wanted = .ok ⟨.error (.ledger e), y⟩) :
    x.ledger.Raises e := by
  rcases convert_eq_error h with ⟨hunheard, -⟩ | ⟨-, hfails, -⟩
  · rcases fails_checkRequest hunheard with h | h | h <;> cases h
  simp only [conversion, fails_bind, not_fails_pure, and_false, exists_false, or_false] at hfails
  rcases hfails with hunplanned | ⟨⟨p', c'⟩, -, hsettle⟩
  · exact absurd hplan hunplanned.not_returns
  · exact raises_of_fails_settle hsettle

end Refusals

/-! ## The token that connectors are paid in -/

/-- Connectors hold tokens that are registered, precision and all. -/
def HoldsRegistered (x : Exchange ρ) : Prop :=
  ∀ {k : TokenKey} {c : Connector}, x.connectors.find? k = some c →
    x.ledger.Registers c.balance.token

variable [Reserve ρ]

section Runs

variable [LawfulReserve ρ]

/-- The deposit of a connector was a transfer, and nothing is ever registered otherwise. -/
theorem HoldsRegistered.step (hx : x.HoldsRegistered) (hwf : x.WellFormed) (h : x.Step a y) :
    y.HoldsRegistered := by
  cases h with
  | idle h =>
    intro k c hc
    rw [h.ledger]
    exact hx (h.connectors ▸ hc)
  | @connects _ _ smart balance weight conf l _ h =>
    have hmoves := (Ledger.Moves.refl x.ledger).transfer h.deposits
    intro k c hc
    change (x.connectors.insert smart.key _).find? k = some c at hc
    rw [Table.find?_insert] at hc
    refine hmoves.registers.2 ?_
    split at hc
    · cases hc
      exact (hwf.ledger.returns_transfer.1 h.deposits).1.registers
    · exact hx hc
  | @converts _ _ _ _ _ receipt c z h =>
    obtain ⟨conf, reg, hplans⟩ := h.plans_connector hwf
    obtain ⟨-, -, final, r, hmoves, rfl⟩ := returns_settle h.settles
    intro k c' hc
    change (x.connectors.insert c.smart.key (c.moved _)).find? k = some c' at hc
    rw [Table.find?_insert] at hc
    refine hmoves.registers.2 ?_
    split at hc
    · cases hc
      have hbefore : x.ledger.Registers c.balance.token := hx hplans.connector
      exact hbefore
    · exact hx hc
  | calls h =>
    intro k c hc
    exact (hx hc).call h
  | reserves =>
    intro k c hc
    exact hx hc

theorem Reachable.holdsRegistered (h : x.Reachable) : x.HoldsRegistered := by
  obtain ⟨settings, reserve, ts, hrun⟩ := h
  induction hrun with
  | start => exact fun hc => nomatch hc
  | step hrun _ hy ih => exact ih.step hrun.wellFormed (step_of_act hy)

end Runs

/-! ## Plans -/

/-- What is minted or burned for a conversion is registered, precision and all. -/
theorem Converts.registers {sender : Account} {signers : Signers} {receipt : Receipt}
    (hx : x.WellFormed) (h : x.Converts signers sender given wanted receipt c y) :
    x.ledger.Registers receipt.plan.smart := by
  obtain ⟨conf, reg, hp⟩ := h.plans_connector hx
  rw [hp.smart_eq]
  cases hd : receipt.plan.direction with
  | buy =>
    obtain ⟨_, paid, charged, _, hs, -⟩ := (returns_settle_buy hd).1 h.settles
    have hmoves := ((Ledger.Moves.refl x.ledger).transfer hs.pays).trans hs.charges.moves
    obtain ⟨reg', hissue, -⟩ := Ledger.returns_issue.1 hs.issues
    rw [← (hp.buy_tokens hd).2.2, ← hmoves.registers]
    exact ⟨reg', hissue.registration, hissue.token_eq⟩
  | sell =>
    obtain ⟨_, _, _, _, _, _, hs, -⟩ := (returns_settle_sell hd).1 h.settles
    rw [← (hp.sell_tokens hd).1]
    exact (Ledger.returns_transfer.1 hs.pays).1.registers

variable [LawfulReserve ρ]

/-- In a reachable exchange, a plan is priced by the supply of what is registered under contract and
code of its smart token, which is not the connected token. If that is the smart token itself, then
the connected token has another contract or code, and no movement, of a settlement of the request or
of a reserve, is refused for the precision of the smart token. If it has another precision, no
settlement of the request goes through at all. -/
theorem quote_prices_registered (hx : x.Reachable) (h : (x.quote given wanted).Returns p) :
    ∃ conf c reg, x.configuration.get? = some conf ∧ x.connector? p.smart = some c ∧
      c.smart = p.smart ∧ p.smart ≠ conf.connected ∧
      x.ledger.registration? p.smart = some reg ∧ reg.token.key = p.smart.key ∧
      (x.planBy c reg.supply given wanted p.direction p.mode).Returns p ∧
      (reg.token = p.smart → p.smart.key ≠ conf.connected.key ∧
        ∀ expected, ¬x.ledger.Raises (.symbolMismatch expected p.smart) ∧
          ∀ {now : Int} {signers : Signers} {sender : Account} {y : Exchange ρ},
            x.convert now signers sender given wanted ≠
              .ok ⟨.error (.ledger (.symbolMismatch expected p.smart)), y⟩) ∧
      (reg.token ≠ p.smart →
        ∀ {now : Int} {signers : Signers} {sender : Account} {receipt : Receipt} {y : Exchange ρ},
          x.convert now signers sender given wanted ≠ .ok ⟨.ok receipt, y⟩) := by
  have hwf := hx.wellFormed
  obtain ⟨c, hplan⟩ := returns_quote.1 h
  obtain ⟨conf, reg, hp, hpriced⟩ := returns_plan (fun hc => hwf.balance_le hc) hplan
  have hfits := hwf.fits hp.connector
  have hconnected : c.balance.token = conf.connected :=
    Option.some.inj (hfits.connected.symm.trans (connected?_of_configuration hp.configuration))
  rw [hp.smart_eq]
  refine ⟨conf, c, reg, hp.configuration, hp.connector, rfl, hconnected ▸ hfits.smart_ne,
    hp.registration, hwf.ledger.key_eq hp.registration, hpriced, ?_, ?_⟩
  · intro htoken
    constructor
    · -- under one key there is one registration, and that of the connected token is exact
      intro hkey
      obtain ⟨reg', hreg', htoken'⟩ := hx.holdsRegistered hp.connector
      rw [hconnected] at hreg' htoken'
      have hsame : reg' = reg := by
        have hreg := hp.registration
        rw [Ledger.registration?, hkey, ← Ledger.registration?] at hreg
        exact Option.some.inj (hreg'.symm.trans hreg)
      apply hfits.smart_ne
      calc c.smart = reg.token := htoken.symm
        _ = conf.connected := hsame ▸ htoken'
        _ = c.balance.token := hconnected.symm
    · intro expected
      have hregisters : x.ledger.Registers c.smart := ⟨reg, hp.registration, htoken⟩
      refine ⟨hregisters.not_raises, ?_⟩
      intro now signers sender y hconvert
      exact hregisters.not_raises (raises_of_convert hplan hconvert)
  · intro htoken now signers sender receipt y hconvert
    obtain ⟨c', z, hconverts, -⟩ := convert_eq_ok.1 hconvert
    obtain ⟨hsame, -⟩ := Prod.mk.inj (hconverts.plans.unique hplan)
    obtain ⟨reg', hreg', htoken'⟩ := hconverts.registers hwf
    rw [hsame, hp.smart_eq] at hreg' htoken'
    obtain rfl : reg = reg' := Option.some.inj (hp.registration.symm.trans hreg')
    exact htoken htoken'

end Exchange

/-! ## A token of another precision -/

namespace Sample

/-- The token of the market with two decimals instead of four. -/
def coarse : Token := ⟨⟨"TKN", 2⟩, ⟨"gxc.token"⟩⟩

/-- The market, over a ledger that has the token with two decimals only. -/
def coarseMarket : List (Exchange.Action Pool) :=
  [.ledger (.createToken connected 1000000), .ledger (.createToken coarse 1000000),
    .ledger (.issue owner ⟨20000, connected⟩ ""), .ledger (.issue alice ⟨50000, connected⟩ ""),
    .ledger (.issue alice ⟨30000, coarse⟩ ""), .init 0 [contract] owner connected,
    .connect 0 [contract] smart ⟨20000, connected⟩ ⟨5, 1, false⟩]

end Sample

namespace Exchange

/-- What alice is quoted on the market is priced by the supply of the token that she would get, and
its precision is no obstacle. -/
theorem market_quote_registered :
    ∃ (x : Exchange Pool) (p : Plan), x.Reachable ∧
      (x.quote ⟨1000, Sample.connected⟩ ⟨0, Sample.smart⟩).Returns p ∧ p.smart = Sample.smart ∧
      x.ledger.registration? p.smart = some ⟨Sample.smart, 30000, 1000000⟩ ∧
      ∀ expected, ¬x.ledger.Raises (.symbolMismatch expected Sample.smart) := by
  have hyields : Abort.Yields (inMemory.trace Sample.market) fun r =>
      Abort.Yields (r.2.quote ⟨1000, Sample.connected⟩ ⟨0, Sample.smart⟩).run fun answer =>
        Abort.Yields answer fun p => p.smart = Sample.smart ∧
          r.2.ledger.registration? p.smart = some ⟨Sample.smart, 30000, 1000000⟩ := by
    decide +kernel
  obtain ⟨r, hr, _, hquote, p, rfl, hsmart, hreg⟩ := hyields
  have hreach : r.2.Reachable := Sample.reachable_trace (by decide) hr
  obtain ⟨conf, c, reg, _, _, _, _, hreg', _, _, hexact, _⟩ :=
    quote_prices_registered hreach hquote
  obtain rfl : _ = reg := Option.some.inj (hreg.symm.trans hreg')
  refine ⟨r.2, p, hreach, hquote, hsmart, hreg, ?_⟩
  intro expected
  have hraises := ((hexact hsmart.symm).2 expected).1
  rwa [hsmart] at hraises

/-- On the coarse market a buy is quoted, and the plan is priced by thirty thousand units of another
precision. Nobody can settle it: the ledger refuses to mint. -/
theorem coarse_quote_mismatch :
    ∃ (x y : Exchange Pool) (p : Plan) (reg : Registration), x.Reachable ∧
      (x.quote ⟨1000, Sample.connected⟩ ⟨0, Sample.smart⟩).Returns p ∧ p.smart = Sample.smart ∧
      x.ledger.registration? p.smart = some reg ∧ reg.token = Sample.coarse ∧
      reg.token ≠ p.smart ∧
      x.convert 0 [Sample.alice] Sample.alice ⟨1000, Sample.connected⟩ ⟨0, Sample.smart⟩ =
        .ok ⟨.error (.ledger (.symbolMismatch Sample.coarse p.smart)), y⟩ := by
  have hyields : Abort.Yields (inMemory.trace Sample.coarseMarket) fun r =>
      Abort.Yields (r.2.quote ⟨1000, Sample.connected⟩ ⟨0, Sample.smart⟩).run (fun answer =>
        Abort.Yields answer fun p => p.smart = Sample.smart ∧
          r.2.ledger.registration? p.smart = some ⟨Sample.coarse, 30000, 1000000⟩) ∧
      Abort.Yields (r.2.convert 0 [Sample.alice] Sample.alice ⟨1000, Sample.connected⟩
        ⟨0, Sample.smart⟩) fun reply =>
          reply.answer = .error (.ledger (.symbolMismatch Sample.coarse Sample.smart)) := by
    decide +kernel
  obtain ⟨r, hr, ⟨_, hquote, p, rfl, hsmart, hreg⟩, ⟨_, y⟩, hconvert, rfl⟩ := hyields
  refine ⟨r.2, y, p, _, Sample.reachable_trace (by decide) hr, hquote, hsmart, hreg, rfl, ?_, ?_⟩
  · rw [hsmart]
    decide
  · rw [hsmart]
    exact hconvert

end Exchange
end BondingCurve
