/-!
# Aborts

Some arithmetic has no answer: a division by zero, a sum that leaves the amount range. Where
the rules do not turn such a case into an error of the domain, it ends the whole computation,
and no later state exists. `Abort` lists the causes; a computation that may end this way
returns `Except Abort`, and an error of the domain is a value inside it (`Outcome`).
-/

namespace BondingCurve

/-- Why a computation ends without any answer. -/
inductive Abort where
  /-- A sum of amounts leaves the amount range. -/
  | amountSum
  /-- The negation of an amount leaves the amount range. -/
  | amountNegation
  | decimalSum
  | decimalDifference
  | decimalProduct
  | decimalQuotient
  | zeroDivisor
  /-- A decimal is asked for with more decimals than it can carry. -/
  | scaleTooLarge (scale : Nat)
deriving DecidableEq, Repr

namespace Abort

def message : Abort → String
  | amountSum => "attempt to add with overflow"
  | amountNegation => "attempt to negate with overflow"
  | decimalSum => "Addition overflowed"
  | decimalDifference => "Subtraction overflowed"
  | decimalProduct => "Multiplication overflowed"
  | decimalQuotient => "Division overflowed"
  | zeroDivisor => "Division by zero"
  | scaleTooLarge scale =>
    "Scale exceeds the maximum precision allowed: " ++ toString scale ++ " > 28"

end Abort

/-- A computation that gives an `α`, fails with an error of the domain, or aborts. -/
abbrev Outcome (ε α : Type) := ExceptT ε (Except Abort) α

end BondingCurve
