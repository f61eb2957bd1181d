import BondingCurve.Curve
import BondingCurve.Token

/-!
# Connectors

A connector joins a smart token to the connected token: it says how many connected tokens the
curve of that smart token has behind it, and with which weight. Its balance only ever moves by
whole deltas (`Connector.withDelta`).
-/

namespace BondingCurve

/-- The share of a smart token's market value that its connector holds. -/
structure Weight where
  value : Decimal
deriving DecidableEq, Repr

/-- Positive, and one at most. -/
def Weight.IsValid (d : Decimal) : Prop := Decimal.zero < d ∧ d ≤ Decimal.one

instance (d : Decimal) : Decidable (Weight.IsValid d) := inferInstanceAs (Decidable (_ ∧ _))

/-- A decimal as a weight, if it is valid as one. -/
def Weight.ofDecimal? (d : Decimal) : Option Weight := if IsValid d then some ⟨d⟩ else none

def Weight.toText (w : Weight) : String := w.value.toText

/-- A smart token, the connected tokens behind it and its weight on the curve. -/
structure Connector where
  smart : Token
  balance : Asset
  weight : Weight
deriving DecidableEq, Repr

namespace Connector

/-- What `amount` converts to at a supply of `supply`. -/
def convert (c : Connector) (direction : Direction) (mode : Mode) (supply amount : Amount) :
    Outcome CurveError Conversion :=
  let evaluate := match direction, mode with
    | .buy, .market => Curve.buy
    | .sell, .market => Curve.sell
    | .buy, .exact => Curve.buyExact
    | .sell, .exact => Curve.sellExact
  evaluate c.balance.amount supply c.weight.value amount

/-- The price of one unit of the smart token on the curve, if it has one. -/
def spotPrice? (c : Connector) (supply : Amount) : Option Decimal :=
  Curve.spotPrice? c.balance.amount supply c.weight.value

/-- The connector after its balance has moved. A balance is never overdrawn. -/
def withDelta (c : Connector) (delta : Amount) : Outcome CurveError Connector :=
  match c.balance.amount.add? delta with
  | none => throw .overflow
  | some next =>
    if next < 0 then do throw (.reserveExhausted (← Amount.neg delta) c.balance.amount)
    else pure { c with balance := c.balance.withAmount next }

end Connector
end BondingCurve
