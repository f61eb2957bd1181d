import BondingCurve.Conversion
import BondingCurve.Decimal.Power

/-!
# The bonding curve

A connector holds the share `weight` of the market value of a smart token in connected tokens,
so a unit of the smart token costs `balance / (supply * weight)`. Integrating that price gives
the four conversions:

* `buy`: `supply * ((1 + paid / balance) ^ weight - 1)` smart tokens for `paid`;
* `sell`: `balance * (1 - (1 - sold / supply) ^ (1 / weight))` connected tokens for `sold`;
* `buyExact`: what `wanted` smart tokens cost, the inverse of `buy`;
* `sellExact`: what `wanted` connected tokens cost, the inverse of `sell`.

They are evaluated in decimals. A fault in a power or in the last product is
`CurveError.overflow`; a fault anywhere else aborts.
-/

namespace BondingCurve
namespace Curve

/-- All three amounts of an evaluation must be positive. -/
def checkState (balance supply amount : Amount) : Outcome CurveError Unit := do
  if balance ≤ 0 then throw (.emptyBalance balance)
  if supply ≤ 0 then throw (.emptySupply supply)
  if amount ≤ 0 then throw (.nonPositiveAmount amount)

/-- `base ^ exponent`; nothing raised to anything is nothing. -/
def power (base exponent : Decimal) : Outcome CurveError Decimal :=
  if base.isZero then pure .zero else orOverflow (base.pow exponent)

/-- `1 + part / whole` -/
def onePlus (part whole : Amount) : Except Abort Decimal := do
  Decimal.one.addOrAbort (← (Decimal.ofInt part).divOrAbort (.ofInt whole))

/-- `1 - part / whole` -/
def oneMinus (part whole : Amount) : Except Abort Decimal := do
  Decimal.one.subOrAbort (← (Decimal.ofInt part).divOrAbort (.ofInt whole))

/-- The connected tokens `paid` for smart tokens. -/
def buy (balance supply : Amount) (weight : Decimal) (paid : Amount) :
    Outcome CurveError Conversion := do
  checkState balance supply paid
  let growth ← power (← onePlus paid balance) weight
  let gain ← growth.subOrAbort .one
  Conversion.truncated (← orOverflow ((Decimal.ofInt supply).mul gain))

/-- The smart tokens `sold` for connected tokens. -/
def sell (balance supply : Amount) (weight : Decimal) (sold : Amount) :
    Outcome CurveError Conversion := do
  checkState balance supply sold
  if sold > supply then throw (.exceedsSupply sold supply)
  let rest ← oneMinus sold supply
  let shrunk ← power rest (← Decimal.one.divOrAbort weight)
  let loss ← Decimal.one.subOrAbort shrunk
  Conversion.truncated (← orOverflow ((Decimal.ofInt balance).mul loss))

/-- The connected tokens it takes to buy `wanted` smart tokens. -/
def buyExact (balance supply : Amount) (weight : Decimal) (wanted : Amount) :
    Outcome CurveError Conversion := do
  checkState balance supply wanted
  let grown ← onePlus wanted supply
  let growth ← power grown (← Decimal.one.divOrAbort weight)
  let gain ← growth.subOrAbort .one
  Conversion.roundedUp (← orOverflow ((Decimal.ofInt balance).mul gain))

/-- The smart tokens it takes to be paid `wanted` connected tokens. -/
def sellExact (balance supply : Amount) (weight : Decimal) (wanted : Amount) :
    Outcome CurveError Conversion := do
  checkState balance supply wanted
  if wanted ≥ balance then throw (.reserveExhausted wanted balance)
  let shrunk ← power (← oneMinus wanted balance) weight
  let loss ← Decimal.one.subOrAbort shrunk
  Conversion.roundedUp (← orOverflow ((Decimal.ofInt supply).mul loss))

/-- The price of the next smart unit in connected units, `balance / (supply * weight)`. -/
def spotPrice? (balance supply : Amount) (weight : Decimal) : Option Decimal := do
  let below ← ((Decimal.ofInt supply).mul weight).toOption
  if below.isZero then none else ((Decimal.ofInt balance).div below).toOption

end Curve
end BondingCurve
