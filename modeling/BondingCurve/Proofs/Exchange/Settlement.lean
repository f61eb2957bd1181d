import BondingCurve.Exchange.Settlement
import BondingCurve.Proofs.Exchange.Plan
import BondingCurve.Proofs.Reserve

/-!
# The steps of a settlement

A settlement is a sequence of ledger operations, and it succeeds exactly when they do.
`returns_settle_buy` and `returns_settle_sell` list them; nothing after this module opens the
definitions of `Exchange.settle` and `Exchange.convert` again.
-/

namespace BondingCurve

open Outcome

/-! ## Connectors -/

/-- The connector with its balance moved. -/
def Connector.moved (c : Connector) (delta : Amount) : Connector :=
  { c with balance := c.balance.withAmount (c.balance.amount + delta) }

/-- A balance moves where it stays an amount and is not overdrawn. -/
theorem Connector.returns_withDelta {c c' : Connector} {delta : Amount} :
    (c.withDelta delta).Returns c' ↔
      Amount.InRange (c.balance.amount + delta) ∧ 0 ≤ c.balance.amount + delta ∧
        c' = c.moved delta := by
  unfold withDelta Amount.add? Amount.ofInt?
  by_cases hrange : Amount.InRange (c.balance.amount + delta)
  · simp [hrange, moved, eq_comm]
  · simp [hrange]

namespace Exchange

variable {ρ : Type} {x y : Exchange ρ} {sender : Account} {c : Connector} {p : Plan} {b : Asset}

/-! ## The owner's fee -/

/-- A ledger after the owner's fee was paid from the contract's account, if there is one. -/
def FeePaid (x : Exchange ρ) (l : Ledger) (owner : Account) (fee : Asset) (l' : Ledger) : Prop :=
  (0 < fee.amount ∧ (l.transfer x.contract owner fee x.settings.feeMemo).Returns l') ∨
    (fee.amount ≤ 0 ∧ l' = l)

/-- A fee is paid on the ledger, and nothing else of the exchange changes. -/
theorem returns_payFee {owner : Account} {fee : Asset} :
    (x.payFee owner fee).Returns y ↔
      ∃ l, x.FeePaid x.ledger owner fee l ∧ y = { x with ledger := l } := by
  unfold payFee FeePaid
  simp only [Asset.isPositive_iff, returns_ite, returns_bind, returns_liftLedger, returns_pure,
    Int.not_lt]
  constructor
  · intro h
    rcases h with ⟨hpos, l, hl, rfl⟩ | ⟨hle, rfl⟩
    · exact ⟨l, .inl ⟨hpos, hl⟩, rfl⟩
    · exact ⟨x.ledger, .inr ⟨hle, rfl⟩, rfl⟩
  · intro h
    obtain ⟨l, ⟨hpos, hl⟩ | ⟨hle, rfl⟩, rfl⟩ := h
    · exact .inl ⟨hpos, l, hl, rfl⟩
    · exact .inr ⟨hle, rfl⟩

variable [Reserve ρ]

/-! ## Tokens out of circulation -/

/-- A ledger and a reserve after `contract` burned sold tokens, or redeemed them for a payout that
covers what the trader and the owner receive. -/
inductive TakenIn (contract : Account) (reserve : ρ) (l : Ledger) (p : Plan) : Ledger → ρ → Prop
  | burned {l' : Ledger} (h : p.overrideApplied = false)
      (hl : (l.retire contract p.pay convertMemo).Returns l') :
      TakenIn contract reserve l p l' reserve
  | redeemed {result : ClaimResult ρ} {payout : Asset} (h : p.overrideApplied = true)
      (hclaim : Reserve.claim reserve l contract p.pay = .ok result)
      (hpayout : result.payout = .ok payout) (htoken : payout.token = p.receive.token)
      (hrange : Amount.InRange (p.receive.amount + p.fee.amount))
      (hcovers : p.receive.amount + p.fee.amount ≤ payout.amount) :
      TakenIn contract reserve l p result.ledger result.reserve

/-- Sold tokens that are not redeemed are burned. -/
theorem TakenIn.retires {contract : Account} {reserve r : ρ} {l l' : Ledger}
    (hno : p.overrideApplied = false) (h : TakenIn contract reserve l p l' r) :
    (l.retire contract p.pay convertMemo).Returns l' := by
  cases h with
  | burned _ hl => exact hl
  | redeemed hyes =>
    rw [hno] at hyes
    cases hyes

/-- What redeems nothing leaves the reserve. -/
theorem TakenIn.reserve_eq {contract : Account} {reserve r : ρ} {l l' : Ledger}
    (hno : p.overrideApplied = false) (h : TakenIn contract reserve l p l' r) : r = reserve := by
  cases h with
  | burned => rfl
  | redeemed hyes =>
    rw [hno] at hyes
    cases hyes

/-- Taking tokens in changes the ledger and the reserve. -/
theorem returns_takeIn :
    (x.takeIn p).Returns y ↔
      ∃ l r, TakenIn x.contract x.reserve x.ledger p l r ∧
        y = { x with ledger := l, reserve := r } := by
  simp only [takeIn, redeem, returns_ite, returns_bind, returns_liftLedger, returns_liftPure,
    returns_pure, Bool.not_eq_true]
  constructor
  · intro h
    rcases h with ⟨h, result, hclaim, hy⟩ | ⟨h, l, hl, rfl⟩
    · rcases hpayout : result.payout with e | payout
      · -- a claim that the reserve turns down fails the settlement
        simp [hpayout] at hy
      · simp only [hpayout, returns_bind, returns_liftPure, Amount.add_eq_ok_iff, returns_ite,
          not_returns_throw, false_and, exists_false, and_false, false_or, returns_pure, not_or,
          ne_eq, Decidable.not_not, not_lt] at hy
        obtain ⟨needed, ⟨hrange, rfl⟩, ⟨htoken, hcovers⟩, rfl⟩ := hy
        exact ⟨_, _, .redeemed h hclaim hpayout htoken hrange hcovers, rfl⟩
    · exact ⟨l, x.reserve, .burned h hl, rfl⟩
  · intro h
    obtain ⟨l, r, htaken, rfl⟩ := h
    cases htaken with
    | burned h hl => exact .inr ⟨h, l, hl, rfl⟩
    | @redeemed result payout h hclaim hpayout htoken hrange hcovers =>
      refine .inl ⟨h, result, hclaim, ?_⟩
      simpa [hpayout, Amount.add, hrange, htoken] using hcovers

/-! ## Settlements -/

/-- The exchange with the connector's balance moved, and another ledger and reserve. -/
def settled (x : Exchange ρ) (c : Connector) (delta : Amount) (l : Ledger) (r : ρ) : Exchange ρ :=
  { x with
    connectors := x.connectors.insert c.smart.key (c.moved delta)
    ledger := l
    reserve := r }

/-- The steps of a buy: the trader pays, the owner gets his fee, the bought tokens are minted. -/
structure SettlesBuy (x : Exchange ρ) (sender : Account) (c : Connector) (p : Plan)
    (conf : Configuration) (paid charged final : Ledger) : Prop where
  configuration : x.configuration.get? = some conf
  delta_inRange : Amount.InRange (c.balance.amount + p.balanceDelta)
  delta_covered : 0 ≤ c.balance.amount + p.balanceDelta
  pays : (x.ledger.transfer sender x.contract p.pay convertMemo).Returns paid
  charges : x.FeePaid paid conf.owner p.fee charged
  issues : (charged.issue sender p.receive convertMemo).Returns final

/-- A buy is settled by the steps of `SettlesBuy`, and by no others. -/
theorem returns_settle_buy (h : p.direction = .buy) :
    (x.settle sender c p).Returns (y, b) ↔
      ∃ conf paid charged final, x.SettlesBuy sender c p conf paid charged final ∧
        y = x.settled c p.balanceDelta final x.reserve ∧
        b = (c.moved p.balanceDelta).balance := by
  simp only [settle, h, returns_bind, returns_requireConfiguration, returns_liftCurve,
    Connector.returns_withDelta, returns_liftLedger, returns_payFee, returns_pure, Prod.mk.injEq]
  constructor
  · intro hsteps
    obtain ⟨conf, hconf, _, ⟨hrange, hle, rfl⟩, paid, hpaid, _, ⟨charged, hfee, rfl⟩, final, hfinal,
      rfl, rfl⟩ := hsteps
    exact ⟨conf, paid, charged, final, ⟨hconf, hrange, hle, hpaid, hfee, hfinal⟩, rfl, rfl⟩
  · intro hsteps
    obtain ⟨conf, paid, charged, final, ⟨hconf, hrange, hle, hpaid, hfee, hfinal⟩, rfl, rfl⟩ :=
      hsteps
    exact ⟨conf, hconf, _, ⟨hrange, hle, rfl⟩, paid, hpaid, _, ⟨charged, hfee, rfl⟩, final,
      hfinal, rfl, rfl⟩

/-- The steps of a sale: the trader hands in the sold tokens, they are taken out of circulation,
the owner gets his fee, the trader the rest. -/
structure SettlesSell (x : Exchange ρ) (sender : Account) (c : Connector) (p : Plan)
    (conf : Configuration) (paid taken charged final : Ledger) (r : ρ) : Prop where
  configuration : x.configuration.get? = some conf
  delta_inRange : Amount.InRange (c.balance.amount + p.balanceDelta)
  delta_covered : 0 ≤ c.balance.amount + p.balanceDelta
  pays : (x.ledger.transfer sender x.contract p.pay convertMemo).Returns paid
  takes : TakenIn x.contract x.reserve paid p taken r
  charges : x.FeePaid taken conf.owner p.fee charged
  delivers : (charged.transfer x.contract sender p.receive convertMemo).Returns final

/-- A sale is settled by the steps of `SettlesSell`, and by no others. -/
theorem returns_settle_sell (h : p.direction = .sell) :
    (x.settle sender c p).Returns (y, b) ↔
      ∃ conf paid taken charged final r,
        x.SettlesSell sender c p conf paid taken charged final r ∧
        y = x.settled c p.balanceDelta final r ∧ b = (c.moved p.balanceDelta).balance := by
  simp only [settle, h, returns_bind, returns_requireConfiguration, returns_liftCurve,
    Connector.returns_withDelta, returns_liftLedger, returns_takeIn, returns_payFee, returns_pure,
    Prod.mk.injEq]
  constructor
  · intro hsteps
    obtain ⟨conf, hconf, _, ⟨hrange, hle, rfl⟩, paid, hpaid, _, ⟨taken, r, htaken, rfl⟩, _,
      ⟨charged, hfee, rfl⟩, final, hfinal, rfl, rfl⟩ := hsteps
    exact ⟨conf, paid, taken, charged, final, r,
      ⟨hconf, hrange, hle, hpaid, htaken, hfee, hfinal⟩, rfl, rfl⟩
  · intro hsteps
    obtain ⟨conf, paid, taken, charged, final, r, ⟨hconf, hrange, hle, hpaid, htaken, hfee, hfinal⟩,
      rfl, rfl⟩ := hsteps
    exact ⟨conf, hconf, _, ⟨hrange, hle, rfl⟩, paid, hpaid, _, ⟨taken, r, htaken, rfl⟩, _,
      ⟨charged, hfee, rfl⟩, final, hfinal, rfl, rfl⟩

/-! ## Refused payouts -/

/-- The reserve turned a claim down, or answered it with a payout that does not cover what is
needed. -/
def Refused (reserve : ρ) (l : Ledger) (contract : Account) (p : Plan) (e : ReserveError) : Prop :=
  ∃ result, Reserve.claim reserve l contract p.pay = .ok result ∧
    (result.payout = .error e ∨ ∃ payout, result.payout = .ok payout ∧
      (payout.token ≠ p.receive.token ∨ payout.amount < p.receive.amount + p.fee.amount) ∧
      e = .insufficientUnderlying p.smart payout.amount (p.receive.amount + p.fee.amount))

/-- A redemption that fails in the reserve was refused by it. -/
theorem fails_redeem {e : ReserveError} (h : (x.redeem p).Fails (.reserve e)) :
    Refused x.reserve x.ledger x.contract p e := by
  simp only [redeem, fails_bind, not_fails_liftPure, returns_liftPure, false_or] at h
  obtain ⟨result, hclaim, h⟩ := h
  refine ⟨result, hclaim, ?_⟩
  rcases hpayout : result.payout with e' | payout
  · simp only [hpayout, fails_throw, ExchangeError.reserve.injEq] at h
    exact .inl (congrArg _ h)
  · simp only [hpayout, fails_bind, not_fails_liftPure, returns_liftPure, false_or, fails_ite,
      fails_throw, not_fails_pure, and_false, or_false, not_returns_throw, exists_false,
      Amount.add_eq_ok_iff, ExchangeError.reserve.injEq] at h
    obtain ⟨_, ⟨-, rfl⟩, hshort, rfl⟩ := h
    exact .inr ⟨payout, rfl, hshort, rfl⟩

omit [Reserve ρ] in
theorem not_fails_payFee {owner : Account} {fee : Asset} {e : ReserveError} :
    ¬(x.payFee owner fee).Fails (.reserve e) := by
  simp only [payFee, fails_ite, fails_bind, fails_liftLedger, not_fails_pure, reduceCtorEq,
    and_false, exists_false, or_false, not_false_eq_true]

/-- Only the reserve, asked for a payout, makes a settlement fail with an error of a reserve. -/
theorem fails_settle {e : ReserveError} (h : (x.settle sender c p).Fails (.reserve e)) :
    p.direction = .sell ∧ p.overrideApplied = true ∧
      ∃ paid, (x.ledger.transfer sender x.contract p.pay convertMemo).Returns paid ∧
        Refused x.reserve paid x.contract p e := by
  simp only [settle, fails_bind, fails_requireConfiguration, fails_liftCurve,
    fails_liftLedger, reduceCtorEq, and_false, exists_false, false_or, returns_liftLedger] at h
  obtain ⟨conf, -, c', -, paid, hpaid, h⟩ := h
  cases hd : p.direction with
  | buy =>
    simp only [hd, fails_bind, not_fails_payFee, fails_liftLedger, reduceCtorEq, not_fails_pure,
      and_false, exists_false, or_false] at h
  | sell =>
    simp only [hd, fails_bind, not_fails_payFee, fails_liftLedger, reduceCtorEq, not_fails_pure,
      and_false, exists_false, or_false, takeIn, fails_ite] at h
    obtain ⟨hover, h⟩ := h
    exact ⟨rfl, hover, paid, hpaid, fails_redeem h⟩

/-! ## Moves on the ledger -/

omit [Reserve ρ] in
theorem FeePaid.moves {l l' : Ledger} {owner : Account} {fee : Asset}
    (h : x.FeePaid l owner fee l') : l.Moves l' := by
  rcases h with ⟨_, h⟩ | ⟨_, rfl⟩
  · exact (Ledger.Moves.refl l).transfer h
  · exact .refl l'

theorem TakenIn.moves [LawfulReserve ρ] {contract : Account} {reserve r : ρ} {l l' : Ledger}
    (h : TakenIn contract reserve l p l' r) : l.Moves l' := by
  cases h with
  | burned _ h => exact (Ledger.Moves.refl l).retire h
  | redeemed _ hclaim => exact LawfulReserve.moves_claim hclaim

section Moves

variable {conf : Configuration} {paid taken charged final : Ledger} {r : ρ}

omit [Reserve ρ] in
/-- A settled buy moves, burns and issues tokens through the ledger. -/
theorem SettlesBuy.moves (h : x.SettlesBuy sender c p conf paid charged final) :
    x.ledger.Moves final :=
  (((Ledger.Moves.refl _).transfer h.pays).trans h.charges.moves).issue h.issues

/-- So does a settled sale, its claim included. -/
theorem SettlesSell.moves [LawfulReserve ρ]
    (h : x.SettlesSell sender c p conf paid taken charged final r) : x.ledger.Moves final :=
  ((((Ledger.Moves.refl _).transfer h.pays).trans h.takes.moves).trans h.charges.moves).transfer
    h.delivers

end Moves

/-- Whatever a settlement does, it moves the connector's balance and tokens on the ledger. -/
theorem returns_settle [LawfulReserve ρ] (h : (x.settle sender c p).Returns (y, b)) :
    Amount.InRange (c.balance.amount + p.balanceDelta) ∧ 0 ≤ c.balance.amount + p.balanceDelta ∧
      ∃ final r, x.ledger.Moves final ∧ y = x.settled c p.balanceDelta final r := by
  rcases hd : p.direction with _ | _
  · obtain ⟨_, _, _, final, hs, rfl, _⟩ := (returns_settle_buy hd).1 h
    exact ⟨hs.delta_inRange, hs.delta_covered, final, x.reserve, hs.moves, rfl⟩
  · obtain ⟨_, _, _, _, final, r, hs, rfl, _⟩ := (returns_settle_sell hd).1 h
    exact ⟨hs.delta_inRange, hs.delta_covered, final, r, hs.moves, rfl⟩

/-! ## Conversions -/

@[simp] theorem returns_require {signers : Signers} {a : Account} {u : Unit} :
    (signers.require a).Returns u ↔ a ∈ signers := by
  unfold Signers.require Signers.authorize
  by_cases h : a ∈ signers
  · simp [h]
  · simp [h]

omit [Reserve ρ] in
theorem fails_require {signers : Signers} {a : Account} {e : ExchangeError} :
    (signers.require a).Fails e ↔ a ∉ signers ∧ .unauthorized (.unauthorized a) = e := by
  unfold Signers.require Signers.authorize
  by_cases h : a ∈ signers
  · simp [h]
  · simp [h]

variable {signers : Signers} {given wanted : Asset} {receipt : Receipt}

omit [Reserve ρ] in
/-- A request is heard when it fits a mode, the exchange is set up, and the trader has signed. -/
theorem returns_checkRequest {u : Unit} :
    (x.checkRequest signers sender given wanted).Returns u ↔
      (∃ mode : Mode, mode.Fits given wanted) ∧ (∃ conf, x.configuration.get? = some conf) ∧
        sender ∈ signers := by
  simp only [checkRequest, returns_bind, Mode.returns_ofRequest, returns_requireConfiguration,
    returns_require]
  constructor
  · intro h
    obtain ⟨mode, hmode, conf, hconf, hsigned⟩ := h
    exact ⟨⟨mode, hmode⟩, ⟨conf, hconf⟩, hsigned⟩
  · intro h
    obtain ⟨⟨mode, hmode⟩, ⟨conf, hconf⟩, hsigned⟩ := h
    exact ⟨mode, hmode, conf, hconf, hsigned⟩

/-- A conversion that goes through leads to `y`: a signed request, its plan, and the settlement of
the plan. -/
structure Converts (x : Exchange ρ) (signers : Signers) (sender : Account) (given wanted : Asset)
    (receipt : Receipt) (c : Connector) (y : Exchange ρ) : Prop where
  mode_fits : ∃ mode : Mode, mode.Fits given wanted
  configured : ∃ conf, x.configuration.get? = some conf
  signed : sender ∈ signers
  plans : (x.plan given wanted).Returns (receipt.plan, c)
  settles : (x.settle sender c receipt.plan).Returns (y, receipt.balanceAfter)

/-- A settlement begins with the trader's payment. -/
theorem Converts.pays (h : x.Converts signers sender given wanted receipt c y) :
    ∃ paid, (x.ledger.transfer sender x.contract receipt.plan.pay convertMemo).Returns paid := by
  rcases hd : receipt.plan.direction with _ | _
  · obtain ⟨_, paid, _, _, hs, _⟩ := (returns_settle_buy hd).1 h.settles
    exact ⟨paid, hs.pays⟩
  · obtain ⟨_, paid, _, _, _, _, hs, _⟩ := (returns_settle_sell hd).1 h.settles
    exact ⟨paid, hs.pays⟩

/-- A conversion is a plan that was settled. -/
theorem returns_conversion :
    (x.conversion sender given wanted).Returns (y, receipt) ↔
      ∃ c, (x.plan given wanted).Returns (receipt.plan, c) ∧
        (x.settle sender c receipt.plan).Returns (y, receipt.balanceAfter) := by
  simp only [conversion, returns_bind, returns_pure, Prod.mk.injEq]
  constructor
  · intro h
    obtain ⟨⟨p, c⟩, hp, ⟨z, b⟩, hz, rfl, rfl⟩ := h
    exact ⟨c, hp, hz⟩
  · intro h
    obtain ⟨c, hp, hz⟩ := h
    exact ⟨(receipt.plan, c), hp, (y, receipt.balanceAfter), hz, rfl, rfl⟩

/-- What `convert` answers when it succeeds. -/
theorem convert_eq_ok {now : Int} {z : Exchange ρ} :
    x.convert now signers sender given wanted = .ok ⟨.ok receipt, z⟩ ↔
      ∃ c y, x.Converts signers sender given wanted receipt c y ∧
        z = y.emit now (.converted (receipt.record sender)) := by
  unfold convert
  simp only [Abort.bind_eq_ok]
  constructor
  · intro h
    obtain ⟨checked, hchecked, h⟩ := h
    rcases checked with e | u
    · -- a request that fails its checks is answered with an error
      rw [Abort.pure_eq_ok] at h
      cases h
    · obtain ⟨hmode, hconf, hsigned⟩ := returns_checkRequest.1 hchecked
      simp only [Abort.bind_eq_ok] at h
      obtain ⟨converted, hconverted, h⟩ := h
      rcases converted with e | ⟨y, receipt'⟩
      · -- so is one that cannot be planned or settled
        rw [Abort.pure_eq_ok] at h
        cases h
      · rw [Abort.pure_eq_ok] at h
        cases h
        obtain ⟨c, hp, hy⟩ := returns_conversion.1 hconverted
        exact ⟨c, y, ⟨hmode, hconf, hsigned, hp, hy⟩, rfl⟩
  · intro h
    obtain ⟨c, y, ⟨hmode, hconf, hsigned, hp, hy⟩, rfl⟩ := h
    refine ⟨.ok (), returns_checkRequest.2 ⟨hmode, hconf, hsigned⟩, ?_⟩
    have hconverted := returns_conversion.2 ⟨c, hp, hy⟩
    simp only [Abort.bind_eq_ok]
    exact ⟨.ok (y, receipt), hconverted, rfl⟩

/-- A conversion that is refused changes nothing but the event log, and that only if the request
passed its checks. -/
theorem convert_eq_error {now : Int} {z : Exchange ρ} {e : ExchangeError}
    (h : x.convert now signers sender given wanted = .ok ⟨.error e, z⟩) :
    ((x.checkRequest signers sender given wanted).Fails e ∧ z = x) ∨
      ((x.checkRequest signers sender given wanted).Returns () ∧
        (x.conversion sender given wanted).Fails e ∧
        z = x.emit now (.conversionRejected sender given wanted e.message)) := by
  unfold convert at h
  simp only [Abort.bind_eq_ok] at h
  obtain ⟨checked, hchecked, h⟩ := h
  rcases checked with e | u
  · rw [Abort.pure_eq_ok] at h
    cases h
    exact .inl ⟨hchecked, rfl⟩
  · simp only [Abort.bind_eq_ok] at h
    obtain ⟨converted, hconverted, h⟩ := h
    rcases converted with e | ⟨y, receipt⟩
    · -- only a request that passed its checks is logged when it fails
      rw [Abort.pure_eq_ok] at h
      cases h
      exact .inr ⟨hchecked, hconverted, rfl⟩
    · rw [Abort.pure_eq_ok] at h
      cases h

omit [Reserve ρ] in
/-- A request that does not pass its checks has the wrong amounts, comes too early or is not
signed. -/
theorem fails_checkRequest {e : ExchangeError}
    (h : (x.checkRequest signers sender given wanted).Fails e) :
    e = .invalidRequest (.amounts given.amount wanted.amount) ∨ e = .notInitialized ∨
      e = .unauthorized (.unauthorized sender) := by
  simp only [checkRequest, fails_bind, fails_requireConfiguration, fails_require] at h
  rcases h with hmode | ⟨_, _, ⟨-, rfl⟩ | ⟨_, _, -, rfl⟩⟩
  · exact .inl (Mode.fails_ofRequest hmode)
  · exact .inr (.inl rfl)
  · exact .inr (.inr rfl)

/-- A conversion that fails with an error of a reserve has a plan that overrides the curve for a
sale, and the reserve refused what the plan needs once the sold tokens were handed in. -/
theorem convert_eq_reserve_error {now : Int} {z : Exchange ρ} {e : ReserveError}
    (h : x.convert now signers sender given wanted = .ok ⟨.error (.reserve e), z⟩)
    (hplan : (x.plan given wanted).Returns (p, c)) :
    p.direction = .sell ∧ p.overrideApplied = true ∧
      ∃ paid, (x.ledger.transfer sender x.contract p.pay convertMemo).Returns paid ∧
        Refused x.reserve paid x.contract p e := by
  rcases convert_eq_error h with ⟨hunheard, _⟩ | ⟨_, hfails, _⟩
  · rcases fails_checkRequest hunheard with h | h | h <;> cases h
  · simp only [conversion, fails_bind, not_fails_pure, and_false, exists_false, or_false] at hfails
    rcases hfails with hunplanned | ⟨⟨p', c'⟩, hplan', hsettle⟩
    · exact absurd hplan hunplanned.not_returns
    · obtain ⟨rfl, rfl⟩ := Prod.mk.inj (hplan.unique hplan')
      exact fails_settle hsettle

end Exchange
end BondingCurve
