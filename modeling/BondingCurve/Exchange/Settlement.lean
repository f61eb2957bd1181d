import BondingCurve.Exchange.Plan

/-!
# Settlement

`Exchange.convert` settles a plan: the connector moves by its delta, the trader pays, bought
tokens are minted or sold ones burned or redeemed, the owner gets the fee and the trader the
rest. If any of it fails, the exchange stays as it was, apart from the event that tells of the
refusal.
-/

namespace BondingCurve

/-- What the event log says of a settled plan. -/
def Receipt.record (r : Receipt) (sender : Account) : ConversionRecord where
  sender
  smart := r.plan.smart
  direction := r.plan.direction
  mode := r.plan.mode
  paid := r.plan.pay
  received := r.plan.receive
  fee := r.plan.fee
  ratio := r.plan.ratio
  overrideApplied := r.plan.overrideApplied
  balanceAfter := r.balanceAfter

namespace Exchange

variable {ρ : Type} [Reserve ρ]

def convertMemo : String := "convert"

omit [Reserve ρ] in
/-- A fee of nothing is not paid. -/
def payFee (x : Exchange ρ) (owner : Account) (fee : Asset) :
    Outcome ExchangeError (Exchange ρ) := do
  if fee.isPositive then
    return { x with ledger := ← x.ledger.transfer x.contract owner fee x.settings.feeMemo }
  else return x

/-- Redeem sold tokens through the reserve. The payout must be in the token that the trader
receives, and cover what he and the owner get. -/
def redeem (x : Exchange ρ) (plan : Plan) : Outcome ExchangeError (Exchange ρ) := do
  let claimed ← Reserve.claim x.reserve x.ledger x.contract plan.pay
  match claimed.payout with
  | .error e => throw (.reserve e)
  | .ok payout =>
    let needed ← Amount.add plan.receive.amount plan.fee.amount
    if payout.token ≠ plan.receive.token ∨ payout.amount < needed then
      throw (.reserve (.insufficientUnderlying plan.smart payout.amount needed))
    return { x with ledger := claimed.ledger, reserve := claimed.reserve }

/-- Take sold tokens out of circulation, by redeeming or by burning them. -/
def takeIn (x : Exchange ρ) (plan : Plan) : Outcome ExchangeError (Exchange ρ) := do
  if plan.overrideApplied then x.redeem plan
  else return { x with ledger := ← x.ledger.retire x.contract plan.pay convertMemo }

/-- Move all that the plan says. Gives the connector's balance behind it. -/
def settle (x : Exchange ρ) (sender : Account) (c : Connector) (plan : Plan) :
    Outcome ExchangeError (Exchange ρ × Asset) := do
  let owner := (← x.requireConfiguration).owner
  let c ← c.withDelta plan.balanceDelta
  let ledger ← x.ledger.transfer sender x.contract plan.pay convertMemo
  let x := { x with connectors := x.connectors.insert c.smart.key c, ledger }
  match plan.direction with
  | .buy =>
    let x ← x.payFee owner plan.fee
    let ledger ← x.ledger.issue sender plan.receive convertMemo
    return ({ x with ledger }, c.balance)
  | .sell =>
    let x ← x.takeIn plan
    let x ← x.payFee owner plan.fee
    let ledger ← x.ledger.transfer x.contract sender plan.receive convertMemo
    return ({ x with ledger }, c.balance)

/-- Plan a request and settle it. -/
def conversion (x : Exchange ρ) (sender : Account) (given wanted : Asset) :
    Outcome ExchangeError (Exchange ρ × Receipt) := do
  let (plan, c) ← x.plan given wanted
  let (x, balanceAfter) ← x.settle sender c plan
  return (x, ⟨plan, balanceAfter⟩)

omit [Reserve ρ] in
/-- What a request must satisfy before its refusal is worth an event. -/
def checkRequest (x : Exchange ρ) (signers : Signers) (sender : Account) (given wanted : Asset) :
    Outcome ExchangeError Unit := do
  let _ ← Mode.ofRequest given wanted
  let _ ← x.requireConfiguration
  signers.require sender

/-- Convert `given` into `wanted` for `sender`; one of the two amounts is zero. -/
def convert (x : Exchange ρ) (now : Int) (signers : Signers) (sender : Account)
    (given wanted : Asset) : Except Abort (Reply ρ Receipt) := do
  match ← (x.checkRequest signers sender given wanted).run with
  | .error e => return ⟨.error e, x⟩
  | .ok () =>
    match ← (x.conversion sender given wanted).run with
    | .ok (y, receipt) =>
      return ⟨.ok receipt, y.emit now (.converted (receipt.record sender))⟩
    | .error e =>
      return ⟨.error e, x.emit now (.conversionRejected sender given wanted e.message)⟩

end Exchange
end BondingCurve
