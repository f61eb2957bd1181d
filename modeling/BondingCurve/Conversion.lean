import BondingCurve.Decimal.Text

/-!
# Conversions

A conversion has a `Direction`, into the smart token or out of it, and a `Mode`, which says whose
amount is given. A curve gives a real number of units and a ledger moves whole ones. A
`Conversion` keeps both, and `ratio` says how much of the one the other realizes: a market
conversion is cut down to whole units (`truncated`), the input of an exact one is rounded up
(`roundedUp`), so either way the pool never hands out more than its curve says. What a cut-off
output did not use of an input is `unusedShare`.
-/

namespace BondingCurve

inductive Direction where
  /-- Connected tokens for smart tokens. -/
  | buy
  /-- Smart tokens for connected tokens. -/
  | sell
deriving DecidableEq, Repr

inductive Mode where
  /-- The input is given. -/
  | market
  /-- The output is given. -/
  | exact
deriving DecidableEq, Repr

/-- Why a curve gives no conversion. -/
inductive CurveError where
  | emptyBalance (balance : Amount)
  | emptySupply (supply : Amount)
  | nonPositiveAmount (amount : Amount)
  | exceedsSupply (amount supply : Amount)
  | reserveExhausted (amount balance : Amount)
  | invalidRate (rate : Decimal)
  | overflow
deriving DecidableEq, Repr

def CurveError.message : CurveError → String
  | emptyBalance n => "Connector balance must be positive, got " ++ toString n
  | emptySupply n => "Smart token supply must be positive, got " ++ toString n
  | nonPositiveAmount n => "Conversion amount must be positive, got " ++ toString n
  | exceedsSupply amount supply =>
    "Cannot sell " ++ toString amount ++ " against a supply of " ++ toString supply
  | reserveExhausted amount balance =>
    "Cannot withdraw " ++ toString amount ++ " from a connector balance of " ++ toString balance
  | invalidRate rate => "Administered rate must be positive, got " ++ rate.toText
  | overflow => "Arithmetic overflow in curve evaluation"

/-- The decimal, or `CurveError.overflow` for a fault of any kind. -/
def orOverflow (r : Except Decimal.Fault Decimal) : Outcome CurveError Decimal :=
  match r with
  | .ok d => pure d
  | .error _ => throw .overflow

/-- The integer outcome of one evaluation of a curve. -/
structure Conversion where
  /-- Units delivered by a market conversion, required by an exact one. -/
  amount : Amount
  /-- The result before it was made whole. -/
  theoretical : Decimal
  /-- The realized share of the result, between zero and one. -/
  ratio : Decimal
deriving DecidableEq, Repr

namespace Conversion

/-- `part / whole`, one at most, and one when there is no whole. -/
def realizedRatio (part whole : Decimal) : Except Abort Decimal :=
  if whole.isZero then .ok .one else return (← part.divOrAbort whole).min .one

/-- A whole decimal as an amount. -/
def toUnits (d : Decimal) : Outcome CurveError Amount :=
  match d.toAmount? with
  | some n => pure n
  | none => throw .overflow

/-- The outcome of a market conversion. A negative result counts as zero. -/
def truncated (result : Decimal) : Outcome CurveError Conversion := do
  let theoretical := result.max .zero
  let amount ← toUnits theoretical.floor
  return { amount, theoretical, ratio := ← realizedRatio (.ofInt amount) theoretical }

/-- The outcome of an exact conversion. A negative result counts as zero. -/
def roundedUp (result : Decimal) : Outcome CurveError Conversion := do
  let theoretical := result.max .zero
  let amount ← toUnits theoretical.ceil
  return { amount, theoretical, ratio := ← realizedRatio theoretical (.ofInt amount) }

/-- The part of `input` behind the share of the result that was cut off, rounded down. -/
def unusedShare (c : Conversion) (input : Amount) : Except Abort Amount := do
  let lost ← Decimal.subOrAbort .one c.ratio
  let unused ← (Decimal.ofInt input).mulOrAbort lost
  return max (unused.floor.toAmount?.getD 0) 0

end Conversion

end BondingCurve
