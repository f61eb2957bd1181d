import BondingCurve.Proofs.Exchange.Authority

/-!
# The reserve has what it owes

A pool keeps all of its underlying tokens on one account. It is backed when no record is negative
and the account has, of every token, what the records in that token say together (`Pool.Backed`). A
claim takes its payout off both, one after the other, so what the account has beyond the records
stays the same (`Pool.Redeems.surplus_eq`), and a payout that is owed is never missing on the
account of a backed pool (`Pool.Claims.not_short`). In a run in which the account is nobody else's,
the pool is backed at every state, and the records and the account go down by what claims were paid
(`reserve_stays_backed`).
-/

namespace BondingCurve

open Outcome

/-! ## Refusals for missing tokens -/

namespace Ledger

variable {l l' : Ledger} {a s r : Account} {v : Asset} {memo : String} {m n : Amount}

theorem not_fails_checkToken : ¬(l.checkToken v).Fails (.insufficientBalance a m n) := by
  unfold checkToken
  rcases l.registration? v.token with _ | reg
  · simp
  · simp

theorem not_fails_checkActive : ¬(l.checkActive s).Fails (.insufficientBalance a m n) := by
  simp [checkActive]

/-- A transfer is refused for missing tokens where its sender has too few. -/
theorem lt_of_fails_transfer (h : (l.transfer s r v memo).Fails (.insufficientBalance a m n)) :
    a = s ∧ l.balanceOf s v.token < v.amount := by
  simp only [transfer, fails_bind, not_fails_checkToken, not_fails_checkActive, fails_debit,
    not_fails_lift, not_fails_pure, LedgerError.insufficientBalance.injEq, and_false, exists_false,
    or_false, false_or] at h
  obtain ⟨_, _, _, _, _, _, hlt, ha, _⟩ := h
  exact ⟨ha, hlt⟩

/-- A retirement is refused for missing tokens of the one account that it burns from. -/
theorem eq_of_fails_retire (h : (l.retire s v memo).Fails (.insufficientBalance a m n)) :
    a = s := by
  simp only [retire, fails_bind, not_fails_checkToken, not_fails_checkActive, fails_debit,
    not_fails_pure, LedgerError.insufficientBalance.injEq, and_false, exists_false, or_false,
    false_or] at h
  obtain ⟨_, _, _, _, _, ha, _⟩ := h
  exact ha

/-- Who is no payer has no less. -/
theorem Spends.le {P : Account → Prop} (h : Spends P l l') (ha : ¬P a) (t : Token) :
    l.balanceOf a t ≤ l'.balanceOf a t :=
  not_lt.1 fun hlt => ha (h.payer hlt)

end Ledger

/-! ## Backed pools -/

namespace Pool

variable {p p' : Pool} {l l' burnt : Ledger} {owner : Account} {value payout : Asset}
  {r : ReserveRecord} {t : Token}

/-- What a record holds of `t`. -/
def heldBy (t : Token) (_ : Token) (r : ReserveRecord) : ℤ :=
  if r.underlying.token = t then r.underlying.amount else 0

/-- What all records in `t` hold together. -/
def pledged (p : Pool) (t : Token) : ℤ := p.records.sum (heldBy t)

/-- No record is negative, and the account of the pool has what they say. -/
structure Backed (p : Pool) (l : Ledger) : Prop where
  nonneg : ∀ {t r}, p.record? t = some r → 0 ≤ r.underlying.amount
  covered : ∀ t, p.pledged t ≤ l.balanceOf p.account t

/-- Nobody else can take from the backing of a pool. -/
theorem Backed.mono (h : p.Backed l)
    (hle : ∀ t, l.balanceOf p.account t ≤ l'.balanceOf p.account t) : p.Backed l' :=
  ⟨h.nonneg, fun t => (h.covered t).trans (hle t)⟩

/-- The account has what a single record says. -/
theorem Backed.le_balanceOf (h : p.Backed l) (hr : p.record? t = some r) :
    r.underlying.amount ≤ l.balanceOf p.account r.underlying.token := by
  have hrows : ∀ k s, p.records.find? k = some s → 0 ≤ heldBy r.underlying.token k s := by
    intro k s hs
    unfold heldBy
    split
    · exact h.nonneg hs
    · exact le_rfl
  have hle := Table.le_sum hrows hr
  rw [heldBy, if_pos rfl] at hle
  exact hle.trans (h.covered _)

/-- A payment takes its amount off what is pledged of its token. -/
theorem pledged_pay {u : Token} {n : Amount} (hr : p.record? t = some r) :
    (p.pay t r n).pledged u = p.pledged u - if r.underlying.token = u then n else 0 := by
  rw [pledged, pay, Table.sum_insert, Table.share_of_find? hr, pledged]
  show _ + (if r.underlying.token = u then r.underlying.amount - n else 0) -
    (if r.underlying.token = u then r.underlying.amount else 0) = _
  by_cases hu : r.underlying.token = u
  · rw [if_pos hu, if_pos hu, if_pos hu]
    ring
  · rw [if_neg hu, if_neg hu, if_neg hu]
    ring

/-- What payments from the records take of `t`. -/
def drawn (p : Pool) (paid : Token → Amount) (t : Token) : ℤ :=
  p.records.sum fun u r => if r.underlying.token = t then paid u else 0

/-- Where the records go down by payments, so does what is pledged. -/
theorem pledged_of_less {paid : Token → Amount}
    (h : ∀ u, p'.record? u = (p.record? u).map (·.less (paid u))) (t : Token) :
    p'.pledged t = p.pledged t - p.drawn paid t := by
  have hpledged : p'.pledged t = p.records.sum fun u r => heldBy t u (r.less (paid u)) :=
    Table.sum_of_find?_eq h
  rw [hpledged, pledged, drawn, Table.sum_sub]
  congr 1
  funext u r
  show (if r.underlying.token = t then r.underlying.amount - paid u else 0) =
    (if r.underlying.token = t then r.underlying.amount else 0) -
      if r.underlying.token = t then paid u else 0
  by_cases ht : r.underlying.token = t
  · rw [if_pos ht, if_pos ht, if_pos ht]
  · rw [if_neg ht, if_neg ht, if_neg ht, sub_zero]

/-- What the account of a pool has beyond what the records say. -/
def surplus (p : Pool) (l : Ledger) (t : Token) : ℤ := l.balanceOf p.account t - p.pledged t

/-- A backed pool has no less than it owes. -/
theorem Backed.surplus_nonneg (h : p.Backed l) (t : Token) : 0 ≤ p.surplus l t :=
  Int.sub_nonneg.2 (h.covered t)

/-- A redemption takes its payout off the account and off the record. -/
theorem Redeems.surplus_eq (howner : owner ≠ p.account)
    (h : p.Redeems l owner value payout r burnt l' p') : p'.surplus l' t = p.surplus l t := by
  have hbalance := h.effect.balanceOf p.account t
  simp only [Pi.add_apply, Pi.sub_apply, Pi.neg_apply, Asset.on_of_ne (Ne.symm howner), neg_zero,
    zero_add, zero_sub] at hbalance
  rw [h.pool_eq]
  show l'.balanceOf p.account t - _ = _
  rw [pledged_pay h.record, hbalance, surplus, ← h.token_eq]
  by_cases ht : payout.token = t
  · subst ht
    rw [Asset.on_self, if_pos rfl]
    ring
  · rw [Asset.on_of_token_ne (Ne.symm ht), if_neg ht]
    ring

/-- A redemption leaves no record negative, since what it pays was on the record. -/
theorem Redeems.record_nonneg (h : p.Redeems l owner value payout r burnt l' p')
    (hp : ∀ {u s}, p.record? u = some s → 0 ≤ s.underlying.amount) {u : Token} {s : ReserveRecord}
    (hs : p'.record? u = some s) : 0 ≤ s.underlying.amount := by
  rw [h.pool_eq, record?_pay] at hs
  split at hs
  · cases hs
    exact Int.sub_nonneg.2 h.payout_le
  · exact hp hs

/-- Working out what is owed asks nothing of the ledger. -/
theorem not_fails_owed {e : LedgerError} : ¬(p.owed value).Fails (.ledger e) := by
  unfold owed
  rcases p.record? value.token with _ | r
  · simp
  · simp

/-- What is owed is not missing on the account of a backed pool. -/
theorem Claims.not_short {c : ClaimResult Pool} {m n : Amount} (howner : owner ≠ p.account)
    (hp : p.Backed l) (h : p.Claims l owner value c) :
    c.payout ≠ .error (.ledger (.insufficientBalance p.account m n)) := by
  intro hpayout
  cases h with
  | refused refuses =>
    cases hpayout
    exact not_fails_owed refuses
  | unburned _ refuses =>
    cases hpayout
    exact howner (Ledger.eq_of_fails_retire refuses).symm
  | unpaid owes burns _ refuses =>
    cases hpayout
    obtain ⟨_, hr, _, hle⟩ := returns_owed.1 owes
    -- burning has taken nothing from the account, and the record covers the payout
    have hcovered := (hp.mono ((Ledger.retire_spends burns).le (Ne.symm howner))).le_balanceOf hr
    have hlt := (Ledger.lt_of_fails_transfer refuses).2
    exact absurd (hle.trans hcovered) (not_le.2 hlt)
  | paid => cases hpayout
  | worthless => cases hpayout

end Pool

/-- Payments from a record add up. -/
theorem ReserveRecord.less_less (r : ReserveRecord) (m n : Amount) :
    (r.less m).less n = r.less (m + n) := by
  unfold less
  dsimp only [Asset.withAmount]
  rw [sub_sub]

/-! ## What a run takes from the reserve -/

namespace Exchange

variable {x y z : Exchange Pool} {signers : Signers} {sender : Account} {given wanted : Asset}
  {receipt : Receipt} {c : Connector} {p : Plan}

/-- The claim that settling `p` for `sender` makes, behind the trader's payment. -/
def claim? (x : Exchange Pool) (sender : Account) (p : Plan) : Option (ClaimResult Pool) :=
  match (x.ledger.transfer sender x.contract p.pay convertMemo).run with
  | .ok (.ok paid) => (x.reserve.claim paid x.contract p.pay).toOption
  | .ok (.error _) | .error _ => none

/-- What settling `p` for `sender` is paid for tokens `t` by the reserve. -/
def payout (x : Exchange Pool) (sender : Account) (p : Plan) (t : Token) : Amount :=
  if p.IsRedeemed ∧ p.pay.token = t then
    match x.claim? sender p with
    | some ⟨.ok payout, _, _⟩ => payout.amount
    | some ⟨.error _, _, _⟩ | none => 0
  else 0

/-- What the reserve pays for tokens `t` in a transition. Only a committed conversion is paid. -/
def Transition.paidFor (τ : Transition Pool) (t : Token) : Amount :=
  match τ.action, τ.receipt? with
  | .convert _ _ sender _ _, some receipt => τ.before.payout sender receipt.plan t
  | _, _ => 0

/-- What the reserve pays for tokens `t` in a run. -/
def paidOut (ts : List (Transition Pool)) (t : Token) : Amount := (ts.map (·.paidFor t)).sum

/-- What operations on the ledger put on the account of the reserve in a transition. -/
def Transition.sentFor (τ : Transition Pool) (t : Token) : Amount :=
  match τ.action with
  | .ledger _ => τ.after.ledger.balanceOf τ.before.reserve.account t -
      τ.before.ledger.balanceOf τ.before.reserve.account t
  | _ => 0

/-- What operations on the ledger put on the account of the reserve in a run. -/
def sentTo (ts : List (Transition Pool)) (t : Token) : Amount := (ts.map (·.sentFor t)).sum

/-- From `x` to `y` the records go down by `paid`, none of them below zero, and the account goes down
by what the records do and up by `sent`. -/
structure Draws (x y : Exchange Pool) (paid sent : Token → Amount) : Prop where
  account : y.reserve.account = x.reserve.account
  records : ∀ t, y.reserve.record? t = (x.reserve.record? t).map (·.less (paid t))
  nonneg : (∀ {t r}, x.reserve.record? t = some r → 0 ≤ r.underlying.amount) →
    ∀ {t r}, y.reserve.record? t = some r → 0 ≤ r.underlying.amount
  surplus : ∀ t, y.reserve.surplus y.ledger t = x.reserve.surplus x.ledger t + sent t

/-- Where the pool is untouched, its account has what was sent. -/
theorem draws_of_sent {sent : Token → Amount} (hreserve : y.reserve = x.reserve)
    (hsent : ∀ t, y.ledger.balanceOf x.reserve.account t =
      x.ledger.balanceOf x.reserve.account t + sent t) : x.Draws y 0 sent := by
  refine ⟨congrArg _ hreserve, ?_, ?_, ?_⟩
  · intro t
    have hless : (fun r : ReserveRecord => r.less ((0 : Token → Amount) t)) = id :=
      funext ReserveRecord.less_zero
    rw [hreserve, hless, Option.map_id]
    rfl
  · intro hnonneg
    rw [hreserve]
    exact hnonneg
  · intro t
    rw [hreserve, Pool.surplus, hsent, Pool.surplus]
    ring

/-- Where the pool and its account are untouched, nothing is drawn. -/
theorem draws_of_balanceOf (hreserve : y.reserve = x.reserve)
    (hbalance : ∀ t, y.ledger.balanceOf x.reserve.account t =
      x.ledger.balanceOf x.reserve.account t) : x.Draws y 0 0 :=
  draws_of_sent hreserve fun t => (hbalance t).trans (add_zero _).symm

/-- What is drawn and what is sent add up. -/
theorem Draws.trans {paid paid' sent sent' : Token → Amount} (h : x.Draws y paid sent)
    (h' : y.Draws z paid' sent') : x.Draws z (paid + paid') (sent + sent') := by
  refine ⟨h'.account.trans h.account, ?_, fun hnonneg => h'.nonneg (h.nonneg hnonneg), ?_⟩
  · intro t
    rw [h'.records, h.records, Option.map_map]
    congr 1
    funext r
    exact r.less_less (paid t) (paid' t)
  · intro t
    rw [h'.surplus, h.surplus, Pi.add_apply, Int.add_assoc]

/-- A reserve that was backed still is, where nothing was taken from its account by hand. -/
theorem Draws.backed {paid sent : Token → Amount} (h : x.Draws y paid sent)
    (hsent : ∀ t, 0 ≤ sent t) (hbacked : x.reserve.Backed x.ledger) : y.reserve.Backed y.ledger := by
  refine ⟨h.nonneg hbacked.nonneg, ?_⟩
  intro t
  have hbefore := hbacked.surplus_nonneg t
  have hafter := h.surplus t
  rw [Pool.surplus] at hafter
  linarith [hsent t]

/-! ## Conversions -/

/-- A redemption is paid what its claim answers. -/
theorem payout_of_claim {t : Token} {paid : Ledger} {result : ClaimResult Pool} {a : Asset}
    (hredeemed : p.IsRedeemed)
    (hpays : (x.ledger.transfer sender x.contract p.pay convertMemo).Returns paid)
    (hclaim : x.reserve.claim paid x.contract p.pay = .ok result)
    (hpayout : result.payout = .ok a) :
    x.payout sender p t = if p.pay.token = t then a.amount else 0 := by
  have hclaimed : x.claim? sender p = some result := by
    rw [claim?, hpays]
    show (x.reserve.claim paid x.contract p.pay).toOption = _
    rw [hclaim]
    rfl
  obtain ⟨payout, l, r⟩ := result
  cases hpayout
  rw [payout, hclaimed]
  simp only [hredeemed, true_and]

/-- What is not redeemed is paid nothing by the reserve. -/
theorem payout_of_not_redeemed (h : ¬p.IsRedeemed) : x.payout sender p = 0 := by
  funext t
  rw [payout, if_neg fun ht => h ht.1]
  rfl

/-- Only the claim of a settlement takes from the account of the reserve, and off the records. -/
theorem Converts.draws (hcontract : x.contract ≠ x.reserve.account)
    (howner : ∀ conf ∈ x.configuration.get?, conf.owner ≠ x.reserve.account)
    (hsender : sender ≠ x.reserve.account)
    (h : x.Converts signers sender given wanted receipt c y) :
    x.Draws y (x.payout sender receipt.plan) 0 := by
  cases hd : receipt.plan.direction with
  | buy =>
    obtain ⟨conf, paid, charged, final, hs, rfl, -⟩ := (returns_settle_buy hd).1 h.settles
    have hbuy : ¬receipt.plan.IsRedeemed := fun hredeemed => nomatch hd.symm.trans hredeemed.1
    rw [payout_of_not_redeemed hbuy]
    refine draws_of_balanceOf rfl ?_
    intro t
    have hpaid := Ledger.balanceOf_of_transfer (Ne.symm hsender) (Ne.symm hcontract) hs.pays t
    have hcharged := hs.charges.balanceOf_of_ne (Ne.symm (howner conf hs.configuration))
      (Ne.symm hcontract) t
    exact (Ledger.balanceOf_of_issue (Ne.symm hsender) hs.issues t).trans (hcharged.trans hpaid)
  | sell =>
    obtain ⟨conf, paid, taken, charged, final, pool, hs, rfl, -⟩ :=
      (returns_settle_sell hd).1 h.settles
    have hpaid := Ledger.balanceOf_of_transfer (Ne.symm hsender) (Ne.symm hcontract) hs.pays
    -- behind the claim or the burn, the account has no part in the fee and in the proceeds
    have hfinal (t : Token) : final.balanceOf x.reserve.account t =
        taken.balanceOf x.reserve.account t := by
      have hcharged := hs.charges.balanceOf_of_ne (Ne.symm (howner conf hs.configuration))
        (Ne.symm hcontract) t
      exact (Ledger.balanceOf_of_transfer (Ne.symm hcontract) (Ne.symm hsender) hs.delivers t).trans
        hcharged
    have htakes := hs.takes
    cases htakes with
    | burned hno hburns =>
      have hburned : ¬receipt.plan.IsRedeemed := fun hredeemed => nomatch hno.symm.trans hredeemed.2
      rw [payout_of_not_redeemed hburned]
      refine draws_of_balanceOf rfl ?_
      intro t
      have hburnt := Ledger.balanceOf_of_retire (Ne.symm hcontract) hburns t
      exact (hfinal t).trans (hburnt.trans (hpaid t))
    | @redeemed result a hyes hclaim hpayout =>
      obtain ⟨r, burnt, hredeems⟩ := (Pool.claim_eq_ok.1 hclaim).redeems hpayout
      have haccount : result.reserve.account = x.reserve.account := by
        rw [hredeems.pool_eq]
        rfl
      refine ⟨haccount, ?_, fun hnonneg => hredeems.record_nonneg hnonneg, ?_⟩
      · intro t
        show result.reserve.record? t = _
        rw [payout_of_claim ⟨hd, hyes⟩ hs.pays hclaim hpayout, hredeems.pool_eq, Pool.record?_pay]
        by_cases ht : t = receipt.plan.pay.token
        · rw [if_pos ht, if_pos ht.symm, ht, hredeems.record]
          rfl
        · rw [if_neg ht, if_neg (Ne.symm ht)]
          simp only [ReserveRecord.less_zero, Option.map_id']
      · intro t
        have hsurplus := hredeems.surplus_eq hcontract (t := t)
        show final.balanceOf result.reserve.account t - result.reserve.pledged t = _
        rw [haccount, hfinal]
        rw [Pool.surplus, haccount, Pool.surplus, hpaid] at hsurplus
        exact hsurplus.trans (add_zero _).symm

/-! ## Refused conversions -/

section Plans

variable {ρ : Type} {x : Exchange ρ} {e : ReserveError}

theorem not_fails_route : ¬(x.route given wanted).Fails (.reserve e) := by
  intro h
  simp only [route, fails_bind, fails_ite, fails_requireConfiguration, fails_throw,
    returns_pure, not_returns_throw, reduceCtorEq, false_or, false_and, exists_false, and_false,
    or_false, exists_eq_left', not_fails_pure] at h
  obtain ⟨conf, -, -, h⟩ := h
  -- a connector that is missing, or one for another precision
  rcases h with ⟨-, h⟩ | ⟨-, -, h⟩
  · rcases hc : x.connector? wanted.token with _ | found
    · simp [hc] at h
    · simp [hc] at h
  · rcases hc : x.connector? given.token with _ | found
    · simp [hc] at h
    · simp [hc] at h

/-- A plan asks the reserve for its rate only. -/
theorem not_fails_plan [Reserve ρ] : ¬(x.plan given wanted).Fails (.reserve e) := by
  intro h
  have hmode : ¬(Mode.ofRequest given wanted).Fails (.reserve e) :=
    fun h => nomatch Mode.fails_ofRequest h
  simp only [plan, fails_bind, hmode, not_fails_route, fails_liftLedger, reduceCtorEq, and_false,
    exists_false, false_or] at h
  obtain ⟨mode, -, ⟨direction, c⟩, -, supply, -, h⟩ := h
  cases direction <;> cases mode <;>
    simp only [planBuy, planSell, planBuyExact, planSellExact, fails_bind, fails_ite,
      fails_liftCurve, not_fails_liftPure, fails_throw, reduceCtorEq, and_false, exists_false,
      not_fails_pure, or_false] at h

end Plans

/-- No conversion is refused because the account of a backed reserve is short of a payout. -/
theorem convert_not_short {now : Int} {m n : Amount} (hcontract : x.contract ≠ x.reserve.account)
    (hsender : sender ≠ x.reserve.account) (hbacked : x.reserve.Backed x.ledger) :
    x.convert now signers sender given wanted ≠
      .ok ⟨.error (.reserve (.ledger (.insufficientBalance x.reserve.account m n))), z⟩ := by
  intro h
  rcases convert_eq_error h with ⟨hunheard, _⟩ | ⟨_, hfails, _⟩
  · rcases fails_checkRequest hunheard with h | h | h <;> cases h
  · simp only [conversion, fails_bind, not_fails_plan, not_fails_pure, and_false, exists_false,
      or_false, false_or] at hfails
    obtain ⟨⟨p, c⟩, _, hsettle⟩ := hfails
    obtain ⟨_, _, paid, hpays, result, hclaim, hrefused⟩ := fails_settle hsettle
    have hpaid := hbacked.mono ((Ledger.transfer_spends hpays).le (Ne.symm hsender))
    rcases hrefused with hpayout | ⟨_, _, _, hshort⟩
    · exact (Pool.claim_eq_ok.1 hclaim).not_short hcontract hpaid hpayout
    · cases hshort

/-! ## Runs -/

/-- The account of the reserve takes part in a transition as the reserve only: it is neither the
contract nor the owner, sends no conversion, loses nothing by an operation on the ledger that is no
request, and nobody writes the records by hand. -/
structure Transition.SparesReserve (τ : Transition Pool) : Prop where
  contract : τ.before.contract ≠ τ.before.reserve.account
  owner : ∀ conf ∈ τ.before.configuration.get?, conf.owner ≠ τ.before.reserve.account
  sender : ∀ sender ∈ τ.action.sender?, sender ≠ τ.before.reserve.account
  undebited : τ.action.IsCall → ∀ t, τ.before.ledger.balanceOf τ.before.reserve.account t ≤
    τ.after.ledger.balanceOf τ.before.reserve.account t
  unreplaced : ∀ r, τ.action ≠ .reserve r

variable {a : Action Pool}

/-- Nothing is taken from the account by hand. -/
theorem Transition.SparesReserve.sentFor_nonneg {τ : Transition Pool} (h : τ.SparesReserve)
    (t : Token) : 0 ≤ τ.sentFor t := by
  obtain ⟨before, action, after⟩ := τ
  cases action with
  | ledger c => exact Int.sub_nonneg.2 (h.undebited trivial t)
  | init | connect | setCharge | setOwner | convert | reserve | setTime | advanceTime => exact le_rfl

theorem draws_of_sameBooks (h : x.SameBooks y) : x.Draws y 0 0 := by
  refine draws_of_balanceOf h.reserve ?_
  intro t
  rw [h.ledger]

/-- A transition takes from the reserve what it is paid for. -/
theorem draws_of_act (h : x.act a = .ok y) (hspares : (Transition.mk x a y).SparesReserve) :
    x.Draws y (Transition.mk x a y).paidFor (Transition.mk x a y).sentFor := by
  have hstep := step_of_act h
  cases a with
  | init now signers owner connected =>
    cases hstep with
    | idle hsame => exact draws_of_sameBooks hsame
  | setCharge now signers rate fixed target =>
    cases hstep with
    | idle hsame => exact draws_of_sameBooks hsame
  | setOwner now signers owner =>
    cases hstep with
    | idle hsame => exact draws_of_sameBooks hsame
  | setTime time =>
    cases hstep with
    | idle hsame => exact draws_of_sameBooks hsame
  | advanceTime millis =>
    cases hstep with
    | idle hsame => exact draws_of_sameBooks hsame
  | reserve r => exact absurd rfl (hspares.unreplaced r)
  | connect now signers smart balance weight =>
    cases hstep with
    | idle hsame => exact draws_of_sameBooks hsame
    | @connects _ _ _ _ _ conf l payload hconnects =>
      -- the owner pays the contract for the connector
      have howner := hspares.owner conf hconnects.configuration
      exact draws_of_balanceOf rfl
        (Ledger.balanceOf_of_transfer (Ne.symm howner) (Ne.symm hspares.contract) hconnects.deposits)
  | ledger c =>
    have hreserve : y.reserve = x.reserve := by
      cases hstep with
      | idle hsame => exact hsame.reserve
      | calls _ => rfl
    refine draws_of_sent hreserve ?_
    intro t
    exact (add_sub_cancel _ _).symm
  | convert now signers sender given wanted =>
    obtain ⟨⟨answer, z⟩, hreply, rfl⟩ := Abort.map_eq_ok.1 h
    rcases answer with e | receipt
    · have hnone : (Transition.mk x (.convert now signers sender given wanted) z).paidFor = 0 := by
        funext t
        simp only [Transition.paidFor, Transition.receipt?, hreply]
        rfl
      rw [hnone]
      rcases convert_eq_error hreply with ⟨_, rfl⟩ | ⟨_, _, rfl⟩
      · exact draws_of_sameBooks (.refl z)
      · exact draws_of_sameBooks (SameBooks.refl x).emit
    · have hpaid : (Transition.mk x (.convert now signers sender given wanted) z).paidFor =
          x.payout sender receipt.plan := by
        funext t
        simp only [Transition.paidFor, receipt?_of_convert hreply]
      obtain ⟨c, z, hconverts, rfl⟩ := convert_eq_ok.1 hreply
      rw [hpaid]
      have hdraws :=
        hconverts.draws hspares.contract hspares.owner (hspares.sender sender rfl)
      exact ⟨hdraws.account, hdraws.records, hdraws.nonneg, hdraws.surplus⟩

/-- Over a run, payouts and what is sent add up. -/
theorem trace_draws {as : List (Action Pool)} :
    ∀ {x : Exchange Pool} {r : List (Transition Pool) × Exchange Pool}, x.trace as = .ok r →
      (∀ τ ∈ r.1, τ.SparesReserve) → x.Draws r.2 (paidOut r.1) (sentTo r.1) := by
  induction as with
  | nil =>
    intro x r hr _
    rw [Exchange.trace, Except.ok.injEq] at hr
    subst hr
    exact draws_of_sameBooks (.refl x)
  | cons a as ih =>
    intro x r hr hspares
    obtain ⟨y, hy, hr⟩ := Abort.bind_eq_ok.1 hr
    obtain ⟨⟨rest, z⟩, hrest, hr⟩ := Abort.bind_eq_ok.1 hr
    rw [Abort.pure_eq_ok] at hr
    subst hr
    have hfirst := draws_of_act hy (hspares _ List.mem_cons_self)
    exact hfirst.trans (ih hrest fun τ hτ => hspares τ (List.mem_cons_of_mem _ hτ))

/-- The reserve is backed around every transition, and keeps its account. -/
theorem trace_backed {as : List (Action Pool)} :
    ∀ {x : Exchange Pool} {r : List (Transition Pool) × Exchange Pool}, x.trace as = .ok r →
      (∀ τ ∈ r.1, τ.SparesReserve) → x.reserve.Backed x.ledger →
      ∀ τ ∈ r.1, τ.before.reserve.account = x.reserve.account ∧
        τ.before.reserve.Backed τ.before.ledger ∧ τ.after.reserve.Backed τ.after.ledger := by
  induction as with
  | nil =>
    intro x r hr _ _ τ hτ
    rw [Exchange.trace, Except.ok.injEq] at hr
    subst hr
    cases hτ
  | cons a as ih =>
    intro x r hr hspares hbacked τ hτ
    obtain ⟨y, hy, hr⟩ := Abort.bind_eq_ok.1 hr
    obtain ⟨⟨rest, z⟩, hrest, hr⟩ := Abort.bind_eq_ok.1 hr
    rw [Abort.pure_eq_ok] at hr
    subst hr
    have hspared := hspares _ List.mem_cons_self
    have hfirst := draws_of_act hy hspared
    have hafter := hfirst.backed hspared.sentFor_nonneg hbacked
    rcases List.mem_cons.1 hτ with rfl | hτ
    · exact ⟨rfl, hbacked, hafter⟩
    · obtain ⟨haccount, hstates⟩ := ih hrest
        (fun τ hτ => hspares τ (List.mem_cons_of_mem _ hτ)) hafter τ hτ
      exact ⟨haccount.trans hfirst.account, hstates⟩

/-- Take a run in which the account of the reserve is nobody else's, from an exchange with a backed
reserve. The reserve is backed at every state of it; each record has gone down by what the claims of
committed conversions were paid; the account has gone down by the same payments together, but for
what was sent to it; and no conversion was refused because the account was short. -/
theorem reserve_stays_backed {as : List (Action Pool)} {ts : List (Transition Pool)}
    (hbacked : x.reserve.Backed x.ledger) (htrace : x.trace as = .ok (ts, y))
    (hspares : ∀ τ ∈ ts, τ.SparesReserve) :
    (∀ τ ∈ ts, τ.after.reserve.Backed τ.after.ledger) ∧ y.reserve.Backed y.ledger ∧
      (∀ t, y.reserve.record? t = (x.reserve.record? t).map (·.less (paidOut ts t))) ∧
      (∀ t, y.ledger.balanceOf x.reserve.account t =
        x.ledger.balanceOf x.reserve.account t + sentTo ts t - x.reserve.drawn (paidOut ts) t) ∧
      ∀ τ ∈ ts, ∀ {now : Int} {signers : Signers} {sender : Account} {given wanted : Asset},
        τ.action = .convert now signers sender given wanted → ∀ z m n,
        τ.before.convert now signers sender given wanted ≠ .ok
          ⟨.error (.reserve (.ledger (.insufficientBalance x.reserve.account m n))), z⟩ := by
  have hdraws := trace_draws htrace hspares
  have hstates := trace_backed htrace hspares hbacked
  have hsent : ∀ t, 0 ≤ sentTo ts t := by
    intro t
    apply List.sum_nonneg
    intro n hn
    obtain ⟨τ, hτ, rfl⟩ := List.mem_map.1 hn
    exact (hspares τ hτ).sentFor_nonneg t
  refine ⟨fun τ hτ => (hstates τ hτ).2.2, hdraws.backed hsent hbacked, hdraws.records, ?_, ?_⟩
  · intro t
    have hsurplus := hdraws.surplus t
    rw [Pool.surplus, Pool.surplus, hdraws.account, Pool.pledged_of_less hdraws.records]
      at hsurplus
    linarith
  · intro τ hτ now signers sender given wanted haction z m n
    obtain ⟨haccount, hbefore, _⟩ := hstates τ hτ
    have hτs := hspares τ hτ
    have hsender : sender ≠ τ.before.reserve.account :=
      hτs.sender sender (by rw [haction]; rfl)
    rw [← haccount]
    exact convert_not_short hτs.contract hsender hbefore

end Exchange

/-! ## A sale to a backed reserve -/

/-- The reserve of the backed market has ten thousand units behind its one record. -/
theorem Sample.pool_backed {l : Ledger} (hl : l.Consistent)
    (hheld : l.balanceOf Pool.defaultAccount connected = 10000) : pool.Backed l := by
  constructor
  · intro t r hr
    rw [Pool.record?, pool, Pool.insert, Table.find?_insert] at hr
    split at hr
    · cases hr
      decide
    · cases hr
  · intro t
    show (if connected = t then (10000 : ℤ) else 0) + 0 ≤ l.balanceOf Pool.defaultAccount t
    by_cases ht : connected = t
    · rw [if_pos ht, ← ht, hheld]
      decide
    · rw [if_neg ht]
      exact hl.balance_nonneg _ t

namespace Exchange

/-- Alice sells a hundred units, for which the reserve pays two hundred from its account. -/
theorem sale_draws_on_reserve :
    ∃ (x y : Exchange Pool) (τ : Transition Pool), x.reserve.Backed x.ledger ∧
      τ.SparesReserve ∧ paidOut [τ] Sample.smart = 200 ∧ y.reserve.Backed y.ledger ∧
      y.reserve.record? Sample.smart = (x.reserve.record? Sample.smart).map (·.less 200) ∧
      y.ledger.balanceOf x.reserve.account Sample.connected =
        x.ledger.balanceOf x.reserve.account Sample.connected - 200 := by
  have hyields : Abort.Yields (inMemory.trace Sample.backedMarket) fun r =>
      r.2.reserve = Sample.pool ∧
      r.2.ledger.balanceOf Pool.defaultAccount Sample.connected = 10000 ∧
      r.2.contract ≠ r.2.reserve.account ∧ Sample.alice ≠ r.2.reserve.account ∧
      (∀ conf ∈ r.2.configuration.get?, conf.owner ≠ r.2.reserve.account) ∧
      Abort.Yields (r.2.act (.convert 0 [Sample.alice] Sample.alice ⟨100, Sample.smart⟩
        ⟨0, Sample.connected⟩)) fun y =>
          paidOut [⟨r.2, .convert 0 [Sample.alice] Sample.alice ⟨100, Sample.smart⟩
            ⟨0, Sample.connected⟩, y⟩] Sample.smart = 200 ∧
          r.2.reserve.drawn (paidOut [⟨r.2, .convert 0 [Sample.alice] Sample.alice
            ⟨100, Sample.smart⟩ ⟨0, Sample.connected⟩, y⟩]) Sample.connected = 200 := by
    decide +kernel
  obtain ⟨⟨_, x⟩, hr, hpool, hheld, hcontract, hsender, howner, y, hact, hpaid, hdrawn⟩ := hyields
  have hreach : x.Reachable := Sample.reachable_trace (by decide) hr
  have hbacked : x.reserve.Backed x.ledger := by
    rw [hpool]
    exact Sample.pool_backed hreach.wellFormed.ledger hheld
  have htrace : x.trace [.convert 0 [Sample.alice] Sample.alice ⟨100, Sample.smart⟩
      ⟨0, Sample.connected⟩] = .ok ([⟨x, .convert 0 [Sample.alice] Sample.alice
        ⟨100, Sample.smart⟩ ⟨0, Sample.connected⟩, y⟩], y) := by
    rw [trace, hact]
    rfl
  have hspares : ∀ τ ∈ [(⟨x, .convert 0 [Sample.alice] Sample.alice ⟨100, Sample.smart⟩
      ⟨0, Sample.connected⟩, y⟩ : Transition Pool)], τ.SparesReserve := by
    intro τ hτ
    obtain rfl := List.mem_singleton.1 hτ
    refine ⟨hcontract, howner, ?_, False.elim, ?_⟩
    · intro sender hs
      cases hs
      exact hsender
    · intro r hr
      cases hr
  obtain ⟨_, hafter, hrecords, hbalance, _⟩ := reserve_stays_backed hbacked htrace hspares
  refine ⟨x, y, _, hbacked, hspares _ List.mem_cons_self, hpaid, hafter, ?_, ?_⟩
  · rw [hrecords, hpaid]
  · have hsent : sentTo [⟨x, .convert 0 [Sample.alice] Sample.alice ⟨100, Sample.smart⟩
        ⟨0, Sample.connected⟩, y⟩] Sample.connected = 0 := rfl
    rw [hbalance, hsent, hdrawn, add_zero]

end Exchange
end BondingCurve
