import BondingCurve.Decimal.Text

/-!
# Binary fractions

A number with 53 significant bits, `mantissa * 2 ^ exponent`, with an exponent from -1074 to 971:
a positive double, or zero. The operations here are exact ones followed by `round`, which goes
to the nearest such number, a tie to the even mantissa.

`shortest` is the way back to decimals: of the numbers with the fewest digits that round to the
given one, the nearest, and the upper one of two that are equally near.
-/

namespace BondingCurve

structure Binary where
  mantissa : Nat
  exponent : Int
deriving DecidableEq, Repr

namespace Binary

open Decimal (powTen powTwo)

def zero : Binary := ⟨0, 0⟩

def leastExponent : Int := -1074

def greatestExponent : Int := 971

/-- `num / den * 2 ^ -e`, rounded half to even. -/
def quotientAt (num den : Nat) (e : Int) : Nat :=
  Decimal.divHalfEven (num * powTwo (-e).toNat) (den * powTwo e.toNat)

/-- The exponent at which `num / den` has 53 bits in front of the point, or the least one. -/
def exponentOf (num den : Nat) : Int :=
  let e : Int := num.log2 - den.log2 - 52
  -- the quotient of the leading bits may be under one
  let e := if num * powTwo (-e).toNat < den * powTwo e.toNat * powTwo 52 then e - 1 else e
  max e leastExponent

/-- The number nearest to `num / den`, if it is in range. -/
def round (num den : Nat) : Option Binary :=
  if num = 0 then some zero
  else
    let e := exponentOf num den
    let m := quotientAt num den e
    let r : Binary := if m = powTwo 53 then ⟨powTwo 52, e + 1⟩ else ⟨m, e⟩
    if r.mantissa = 0 then some zero
    else if r.exponent > greatestExponent then none
    else some r

/-- Numerator and denominator. -/
def fraction (a : Binary) : Nat × Nat :=
  (a.mantissa * powTwo a.exponent.toNat, powTwo (-a.exponent).toNat)

def mul (a b : Binary) : Option Binary :=
  let (an, ad) := a.fraction
  let (bn, bd) := b.fraction
  round (an * bn) (ad * bd)

/-- The quotient by a number that is not zero. -/
def div (a b : Binary) : Option Binary :=
  let (an, ad) := a.fraction
  let (bn, bd) := b.fraction
  round (an * bd) (ad * bn)

/-! ## Scientific notation -/

/-- `a * 10 ^ e` the way readers of floating point do it without big numbers: one product or
quotient by a rounded power of ten, after as many quotients by `10 ^ 308` as it takes to get
there. Every quotient brings `e` closer, and the third one has nothing left to divide. -/
def scaleByTen (a : Binary) (e : Int) : (quotients : Nat) → Option Binary
  | 0 => some zero
  | quotients + 1 => do
    if e.natAbs ≤ 308 then
      let power ← round (powTen e.natAbs) 1
      if 0 ≤ e then a.mul power else a.div power
    else if a.mantissa = 0 then some zero
    else if 0 ≤ e then none
    else (← a.div (← round (powTen 308) 1)).scaleByTen (e + 308) quotients

/-- `significand * 10 ^ e`, if it is in range. -/
def ofScientific? (significand : Nat) (e : Int) : Option Binary := do
  (← round significand 1).scaleByTen e 4

/-! ## Shortest decimal -/

/-- The exponent `p` for which `num / den` lies between `10 ^ p` and `10 ^ (p + 1)`. The search
starts at a place that is too high by one at most. -/
def tenExponent (num den : Nat) : Int :=
  let below (p : Int) : Bool := num * powTen (-p).toNat < den * powTen p.toNat
  let guess : Int := ((num.log2 : Int) + 1 - den.log2) * 30103 / 100000 + 1
  if !below guess then guess else if !below (guess - 1) then guess - 1 else guess - 2

/-- The two numbers of the form `d * 10 ^ p` next to `num / den` as values of `d`, the lower one
first, and whether the upper one is nearer. The middle between them counts as nearer to it. -/
def neighbours (num den : Nat) (p : Int) : Nat × Nat × Bool :=
  let n := num * powTen (-p).toNat
  let d := den * powTen p.toNat
  (n / d, n / d + 1, 2 * (n % d) ≥ d)

/-- `d * 10 ^ p` rounds to `a`. -/
def isNear (a : Binary) (d : Nat) (p : Int) : Bool :=
  round (d * powTen p.toNat) (powTen (-p).toNat) == some a

/-- The nearest decimal with `count` digits that rounds to `a`, if there is one. -/
def candidate? (a : Binary) (count : Nat) : Option (Nat × Int) :=
  let (num, den) := a.fraction
  let p := tenExponent num den + 1 - count
  let (low, high, upper) := neighbours num den p
  match a.isNear low p, a.isNear high p with
  | true, true => some (if upper then high else low, p)
  | true, false => some (low, p)
  | false, true => some (high, p)
  | false, false => none

/-- Digits and power of ten of the shortest decimal that rounds to `a`. Seventeen digits always
do. Where the upper neighbour is a power of ten, its last digit is a zero too many. -/
def shortest (a : Binary) : Nat × Int :=
  let (d, p) := ((List.range' 1 17).findSome? a.candidate?).getD (0, 0)
  if d % 10 = 0 then (d / 10, p + 1) else (d, p)

/-- The shortest decimal in positional notation. -/
def toChars (a : Binary) : List Char :=
  if a.mantissa = 0 then ['0']
  else
    let (d, p) := a.shortest
    if 0 ≤ p then Nat.toDigits 10 d ++ List.replicate p.toNat '0'
    else Decimal.toChars { coefficient := d, scale := (-p).toNat }

end Binary
end BondingCurve
