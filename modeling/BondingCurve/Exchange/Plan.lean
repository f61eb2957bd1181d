import BondingCurve.Exchange.Basic

/-!
# Plans

A plan says all that a conversion will move before anything is moved. `Exchange.plan` finds the
connector of a request, evaluates its curve, lets a better administered rate replace the
outcome, and splits off the fee. It reads the exchange and changes nothing.
-/

namespace BondingCurve

structure Plan where
  direction : Direction
  mode : Mode
  smart : Token
  /-- Taken from the trader. -/
  pay : Asset
  /-- The part of a market input that a cut-off output did not use; the trader keeps it. -/
  refund : Asset
  /-- Connected tokens for the owner. -/
  fee : Asset
  /-- Delivered to the trader. -/
  receive : Asset
  /-- What the connector's balance moves by. -/
  balanceDelta : Amount
  /-- The outcome of the curve, whether it was replaced or not. -/
  curve : Conversion
  /-- The realized share of the outcome that was used. -/
  ratio : Decimal
  overrideApplied : Bool
deriving DecidableEq, Repr

/-- A settled plan. -/
structure Receipt where
  plan : Plan
  /-- The connector's balance behind the conversion. -/
  balanceAfter : Asset
deriving DecidableEq, Repr

/-- The side of a request with a positive amount sets the mode. The other side has none. -/
def Mode.ofRequest (given wanted : Asset) : Outcome ExchangeError Mode :=
  if given.amount > 0 ∧ wanted.amount = 0 then pure .market
  else if given.amount = 0 ∧ wanted.amount > 0 then pure .exact
  else throw (.invalidRequest (.amounts given.amount wanted.amount))

namespace Exchange

variable {ρ : Type} [Reserve ρ]

/-! ## Routes -/

omit [Reserve ρ] in
/-- A request that pays connected tokens buys, any other one must want them and sells. The
connector is looked up without the precision, which has to match all the same. -/
def route (x : Exchange ρ) (given wanted : Asset) :
    Outcome ExchangeError (Direction × Connector) := do
  let c ← x.requireConfiguration
  if given.token = wanted.token then throw (.invalidRequest (.intoItself given.token))
  let (direction, smart) ←
    if c.isConnected given.token then pure (Direction.buy, wanted.token)
    else if c.isConnected wanted.token then pure (Direction.sell, given.token)
    else throw (.symbolMismatch c.connected wanted.token)
  match x.connector? smart with
  | none => throw (.connectorNotFound smart)
  | some connector =>
    if connector.smart ≠ smart then throw (.symbolMismatch connector.smart smart)
    return (direction, connector)

/-! ## Outcomes -/

/-- The administered rate between smallest units, if the reserve quotes one. -/
def administeredRate (x : Exchange ρ) (c : Connector) : Outcome CurveError (Option Decimal) :=
  if Reserve.hasReserve x.reserve c.smart then
    match Reserve.rate? x.reserve c.smart with
    | none => pure none
    | some rate => return some (← Rate.rawRate rate c.smart.precision c.balance.token.precision)
  else pure none

/-- The outcome of the curve or the better one of the reserve, and whether it is the latter. -/
def chooseOutcome (x : Exchange ρ) (c : Connector) (direction : Direction) (mode : Mode)
    (given : Amount) (curve : Conversion) : Outcome CurveError (Conversion × Bool) := do
  match ← x.administeredRate c with
  | none => return (curve, false)
  | some rate =>
    match ← Rate.selectOverride direction mode given curve rate with
    | none => return (curve, false)
    | some better => return (better, true)

/-- The curve's outcome for `given` and the one to use. -/
def evaluate (x : Exchange ρ) (c : Connector) (direction : Direction) (mode : Mode)
    (supply given : Amount) : Outcome CurveError (Conversion × Conversion × Bool) := do
  let curve ← c.convert direction mode supply given
  return (curve, ← x.chooseOutcome c direction mode given curve)

/-! ## Plans by direction and mode -/

/-- The fee comes off the input, the rest goes through the curve. Of an input that bought no
whole unit more, the trader keeps the unused share, and of the fee the same share. -/
def planBuy (x : Exchange ρ) (c : Connector) (supply : Amount) (given : Asset) :
    Outcome ExchangeError Plan := do
  let charged ← (x.effectivePolicy c.smart).charge given.amount .nonRequired
  if charged.net ≤ 0 then throw (.insufficientAfterFee (given.withAmount charged.net))
  let (curve, chosen, overrideApplied) ← x.evaluate c .buy .market supply charged.net
  if chosen.amount ≤ 0 then throw (.insufficientAfterFee (given.withAmount charged.net))
  let unused ← chosen.unusedShare charged.net
  let overcharged ← if unused > 0 then chosen.unusedShare charged.fee else pure 0
  let refund := unused + overcharged
  return {
    direction := .buy, mode := .market, smart := c.smart
    pay := given.withAmount (given.amount - refund)
    refund := given.withAmount refund
    fee := given.withAmount (charged.fee - overcharged)
    receive := ⟨chosen.amount, c.smart⟩
    balanceDelta := charged.net - unused
    curve, ratio := chosen.ratio, overrideApplied }

/-- The whole input goes through the curve, the fee comes off the output. -/
def planSell (x : Exchange ρ) (c : Connector) (supply : Amount) (given wanted : Asset) :
    Outcome ExchangeError Plan := do
  let (curve, chosen, overrideApplied) ← x.evaluate c .sell .market supply given.amount
  let charged ← (x.effectivePolicy c.smart).charge chosen.amount .nonRequired
  if charged.net ≤ 0 then throw (.insufficientAfterFee (wanted.withAmount charged.net))
  let refund ← chosen.unusedShare given.amount
  return {
    direction := .sell, mode := .market, smart := c.smart
    pay := given.withAmount (given.amount - refund)
    refund := given.withAmount refund
    fee := wanted.withAmount charged.fee
    receive := wanted.withAmount charged.net
    balanceDelta := -curve.amount
    curve, ratio := chosen.ratio, overrideApplied }

/-- The fee comes on top of the input that the curve asks for. -/
def planBuyExact (x : Exchange ρ) (c : Connector) (supply : Amount) (given wanted : Asset) :
    Outcome ExchangeError Plan := do
  let (curve, chosen, overrideApplied) ← x.evaluate c .buy .exact supply wanted.amount
  let charged ← (x.effectivePolicy c.smart).charge chosen.amount .required
  return {
    direction := .buy, mode := .exact, smart := c.smart
    pay := given.withAmount charged.gross
    refund := given.withAmount 0
    fee := given.withAmount charged.fee
    receive := wanted
    balanceDelta := chosen.amount
    curve, ratio := chosen.ratio, overrideApplied }

/-- The fee comes on top of the output, and the curve says what both together cost. -/
def planSellExact (x : Exchange ρ) (c : Connector) (supply : Amount) (given wanted : Asset) :
    Outcome ExchangeError Plan := do
  let charged ← (x.effectivePolicy c.smart).charge wanted.amount .required
  let (curve, chosen, overrideApplied) ← x.evaluate c .sell .exact supply charged.gross
  if chosen.amount > supply then throw (.curve (.exceedsSupply chosen.amount supply))
  return {
    direction := .sell, mode := .exact, smart := c.smart
    pay := given.withAmount chosen.amount
    refund := given.withAmount 0
    fee := wanted.withAmount charged.fee
    receive := wanted
    balanceDelta := -charged.gross
    curve, ratio := chosen.ratio, overrideApplied }

/-! ## Plans of requests -/

/-- The plan of a request and the connector it is for. -/
def plan (x : Exchange ρ) (given wanted : Asset) : Outcome ExchangeError (Plan × Connector) := do
  let mode ← Mode.ofRequest given wanted
  let (direction, c) ← x.route given wanted
  let supply := (← x.ledger.supply c.smart).amount
  let plan ← match direction, mode with
    | .buy, .market => x.planBuy c supply given
    | .sell, .market => x.planSell c supply given wanted
    | .buy, .exact => x.planBuyExact c supply given wanted
    | .sell, .exact => x.planSellExact c supply given wanted
  return (plan, c)

/-- What a conversion would do. -/
def quote (x : Exchange ρ) (given wanted : Asset) : Outcome ExchangeError Plan :=
  return (← x.plan given wanted).1

end Exchange
end BondingCurve
