import BondingCurve.Decimal.Arithmetic

/-!
# Fees

Fees are paid in the connected token: out of what a buyer pays, or out of what a seller is
paid. A policy has a rate in thousandths and a fixed part. A policy with neither is exempt; any
other one takes at least one unit, so that no conversion is too small to be charged.
-/

namespace BondingCurve

/-- A share in thousandths. -/
structure PerMille where
  value : Nat
deriving DecidableEq, Repr

namespace PerMille

/-- The whole. -/
def greatest : Nat := 1000

/-- A number of thousandths, if it is no more than the whole. -/
def ofNat? (n : Nat) : Option PerMille := if n ≤ greatest then some ⟨n⟩ else none

def zero : PerMille := ⟨0⟩

def isZero (r : PerMille) : Bool := r.value == 0

/-- The share as a decimal with three places. -/
def fraction (r : PerMille) : Decimal := { coefficient := r.value, scale := 3 }

/-- A share as it is written, with the per mille sign. -/
def toText (r : PerMille) : String := toString r.value ++ "‰"

end PerMille

/-- A share of the value and a fixed number of units. -/
structure FeePolicy where
  rate : PerMille
  /-- Units on top of the rate. A negative number counts as none. -/
  fixed : Amount
deriving DecidableEq, Repr

namespace FeePolicy

/-- The policy that charges nothing. -/
def exempt : FeePolicy := ⟨.zero, 0⟩

/-- A policy is exempt when it names neither a rate nor a fixed part. A negative fixed part is one.
-/
def isExempt (p : FeePolicy) : Bool := p.rate.isZero && p.fixed == 0

/-- The least that a policy charges unless it is exempt. -/
def leastFee : Amount := 1

/-- The fee on `value`: the rate's share rounded down and the fixed part, one unit at least. -/
def feeOn (p : FeePolicy) (value : Amount) : Except Abort Amount := do
  if p.isExempt ∨ value ≤ 0 then return 0
  let share ← (Decimal.ofInt value).mulOrAbort p.rate.fraction
  let share := share.floor.toAmount?.getD Amount.greatest
  return max (share.addSaturating (max p.fixed 0)) leastFee

/-- A token's own policy, else the default one, else none. -/
def resolve (own default : Option FeePolicy) : FeePolicy := (own <|> default).getD exempt

end FeePolicy

/-- Who bears a fee. -/
inductive ChargeMode where
  /-- It is taken out of the value. -/
  | nonRequired
  /-- It comes on top of a value that must arrive whole. -/
  | required
deriving DecidableEq, Repr

/-- A value split by a fee. -/
structure Charge where
  /-- The value with its fee. -/
  gross : Amount
  fee : Amount
  /-- The value without its fee. -/
  net : Amount
deriving DecidableEq, Repr

/-- Split `value` by a policy. What is left of a small value may be zero or less. -/
def FeePolicy.charge (p : FeePolicy) (value : Amount) (mode : ChargeMode) :
    Except Abort Charge := do
  let fee ← p.feeOn value
  return match mode with
    | .nonRequired => ⟨value, fee, value - fee⟩
    | .required => ⟨value.addSaturating fee, fee, value⟩

end BondingCurve
