import BondingCurve.Reserve.Basic

/-!
# Reserve pools

A pool keeps one record for a smart token: what lies behind it and at which rate it is redeemed.
All of it lies on the pool's account. A claim burns the tokens, pays out of that account, and
takes the payout off the record.
-/

namespace BondingCurve

/-- What lies behind a derivative token, and at which rate it is paid out. -/
structure ReserveRecord where
  derivative : Token
  underlying : Asset
  /-- The price of a whole derivative token in whole underlying tokens. -/
  rate : Decimal
deriving DecidableEq, Repr

/-- The record of a deposit that backs `amount` units of a derivative in full. There is none
for no units, or where the rate does not fit. -/
def ReserveRecord.ofDeposit? (derivative : Token) (amount : Amount) (underlying : Asset) :
    Except Abort (Option ReserveRecord) := do
  if amount ≤ 0 then return none
  let issued ← Decimal.ofUnits amount derivative.precision
  return (underlying.wholeTokens.div issued).toOption.map fun rate =>
    { derivative, underlying, rate }

/-- The record `r` after `claimed` units of what lies behind it are gone. -/
def ReserveRecord.less (r : ReserveRecord) (claimed : Amount) : ReserveRecord :=
  { r with underlying := r.underlying.withAmount (r.underlying.amount - claimed) }

/-- Records by derivative token, and the account on which all that they say lies. -/
structure Pool where
  account : Account
  records : Table Token ReserveRecord
deriving DecidableEq, Repr

namespace Pool

/-- The account that holds the tokens of a pool unless another one is named. -/
def defaultAccount : Account := ⟨"gxc.reserve"⟩

/-- A pool without records. -/
def empty (account : Account) : Pool := ⟨account, .empty⟩

/-- The pool with `r` as the record of its token. -/
def insert (p : Pool) (r : ReserveRecord) : Pool :=
  { p with records := p.records.insert r.derivative r }

/-- The record of exactly that token, its precision included. -/
def record? (p : Pool) (t : Token) : Option ReserveRecord := p.records.find? t

def claimMemo : String := "claim reserve"

/-- The record that a claim of `value` is paid from, and the units it is worth. -/
def owed (p : Pool) (value : Asset) : Outcome ReserveError (ReserveRecord × Amount) := do
  if value.amount ≤ 0 then throw (.invalidQuantity value.amount)
  match p.record? value.token with
  | none => throw (.notFound value.token)
  | some r =>
    let units : Outcome CurveError Amount := do
      let perUnit ← Rate.rawRate r.rate value.token.precision r.underlying.token.precision
      return (← Conversion.truncated (← orOverflow (value.units.mul perUnit))).amount
    let claimed ← units.adapt .rate
    if claimed > r.underlying.amount then
      throw (.insufficientUnderlying value.token r.underlying.amount claimed)
    return (r, claimed)

/-- The pool after `claimed` units were paid from the record `r` of `t`. -/
def pay (p : Pool) (t : Token) (r : ReserveRecord) (claimed : Amount) : Pool :=
  { p with records := p.records.insert t (r.less claimed) }

/-- Burn `value`, then pay for it. A payout that fails does not bring the tokens back. -/
def claim (p : Pool) (l : Ledger) (owner : Account) (value : Asset) :
    Except Abort (ClaimResult Pool) := do
  match ← (p.owed value).run with
  | .error e => return ⟨.error e, l, p⟩
  | .ok (r, claimed) =>
    let payout := r.underlying.withAmount claimed
    match ← (l.retire owner value claimMemo).run with
    | .error e => return ⟨.error (.ledger e), l, p⟩
    | .ok burnt =>
      if payout.isPositive then
        match ← (burnt.transfer p.account owner payout claimMemo).run with
        | .error e => return ⟨.error (.ledger e), burnt, p⟩
        | .ok paid => return ⟨.ok payout, paid, p.pay value.token r claimed⟩
      else return ⟨.ok payout, burnt, p.pay value.token r claimed⟩

end Pool

instance : Reserve Pool where
  hasReserve p t := p.records.contains t
  rate? p t := (p.record? t).map (·.rate)
  claim := Pool.claim

end BondingCurve
