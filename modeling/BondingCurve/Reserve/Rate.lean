import BondingCurve.Conversion

/-!
# Administered rates

A reserve quotes a price in connected tokens for a smart token. Quoted rates count whole tokens;
`rawRate` counts smallest units. A rate that is strictly better for the trader than the curve
replaces the outcome of the curve (`selectOverride`), a tie stays with the curve.
-/

namespace BondingCurve
namespace Rate

/-- A rate between whole tokens as a rate between smallest units. -/
def rawRate (rate : Decimal) (smartPrecision connectedPrecision : Nat) :
    Outcome CurveError Decimal := do
  let shift : Int := (connectedPrecision : Int) - smartPrecision
  match Amount.ofInt? (Decimal.powTen shift.natAbs) with
  | none => throw .overflow
  | some factor =>
    orOverflow (if 0 ≤ shift then rate.mul (.ofInt factor) else rate.div (.ofInt factor))

/-- What one smart unit costs, if there is any. -/
def impliedPrice? (connected smart : Amount) : Except Abort (Option Decimal) :=
  if smart ≤ 0 then .ok none
  else return some (← (Decimal.ofInt connected).divOrAbort (.ofInt smart))

/-- Whether a trader does strictly better at `rate` than at the price of the curve. Where the
curve has no price, a buyer gets nothing from it and a seller has nothing to give. -/
def isBetter (direction : Direction) (curvePrice : Option Decimal) (rate : Decimal) : Bool :=
  if rate ≤ .zero then false
  else match direction, curvePrice with
    | .buy, none => true
    | .buy, some price => rate < price
    | .sell, none => false
    | .sell, some price => rate > price

/-- The price that the curve's outcome for `given` implies. -/
def curvePrice? (direction : Direction) (mode : Mode) (given : Amount) (curve : Conversion) :
    Except Abort (Option Decimal) :=
  match direction, mode with
  | .buy, .market => impliedPrice? given curve.amount
  | .sell, .market => impliedPrice? curve.amount given
  | .buy, .exact => impliedPrice? curve.amount given
  | .sell, .exact => impliedPrice? given curve.amount

/-- The outcome for `given` at a flat rate. -/
def convert (direction : Direction) (mode : Mode) (given : Amount) (rate : Decimal) :
    Outcome CurveError Conversion := do
  if given ≤ 0 then throw (.nonPositiveAmount given)
  if rate ≤ .zero then throw (.invalidRate rate)
  let given := Decimal.ofInt given
  match direction, mode with
  | .buy, .market => Conversion.truncated (← orOverflow (given.div rate))
  | .sell, .market => Conversion.truncated (← orOverflow (given.mul rate))
  | .buy, .exact => Conversion.roundedUp (← orOverflow (given.mul rate))
  | .sell, .exact => Conversion.roundedUp (← orOverflow (given.div rate))

/-- The outcome at `rate`, if that is strictly better for the trader than the curve's. -/
def selectOverride (direction : Direction) (mode : Mode) (given : Amount) (curve : Conversion)
    (rate : Decimal) : Outcome CurveError (Option Conversion) := do
  if isBetter direction (← curvePrice? direction mode given curve) rate then
    return some (← convert direction mode given rate)
  else return none

end Rate
end BondingCurve
