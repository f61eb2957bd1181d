import BondingCurve.Decimal.Wide

/-!
# Powers

`Decimal.pow` raises a base that is not negative to any decimal exponent. A whole exponent is
repeated squaring (`powNat`), in narrow arithmetic below 1024 and in wide arithmetic from there
on. Any other exponent goes through `exp (e * ln base)`, both computed by their series.

The series stop at a negligible term or after a fixed number of terms, so every function here
ends without a search.
-/

namespace BondingCurve
namespace Decimal

/-! ## Whole exponents -/

/-- The binary digits of `n`, lowest first. -/
def bits (n : Nat) : List Bool := (List.range (Wide.bitLength n)).map n.testBit

/-- Repeated squaring over the binary digits `bs` of an exponent. `power` is the base raised to
the place value of the digit before the first of `bs`. -/
def squareUp {α : Type} (mul : α → α → Except Fault α) :
    (bs : List Bool) → (product power : α) → Except Fault α
  | [], product, _ => .ok product
  | b :: bs, product, power => do
    let power ← mul power power
    let product ← if b then mul product power else .ok product
    squareUp mul bs product power

/-- `base ^ n`; the lowest digit of `n` needs no squaring. -/
def powBits {α : Type} (mul : α → α → Except Fault α) (one base : α) (n : Nat) :
    Except Fault α :=
  match bits n with
  | [] => .ok one
  | b :: bs => do
    let product ← if b then mul one base else .ok one
    squareUp mul bs product base

/-- `base` raised to a natural number. -/
def powNat (base : Decimal) (n : Nat) : Except Fault Decimal :=
  if n = 0 then .ok one
  else if base.coefficient = 0 then .ok zero
  else if base.coefficient = powTen base.scale then .ok one
  else if n = 1 then .ok base
  else if n = 2 then base.mul base
  else if n ≥ 1024 then do
    let w ← powBits Wide.mul Wide.one (Wide.ofDecimal base) n
    return (← w.narrow).normalize
  else return (← powBits mul one base n).normalize

/-! ## Exponential -/

/-- The base of the natural logarithm. -/
def e : Decimal := { coefficient := 27182818284590452353602874714, scale := 28 }

def eInverse : Decimal := { coefficient := 3678794411714423215955237702, scale := 28 }

def lnTen : Decimal := { coefficient := 2302585092994045684017991454, scale := 27 }

/-- The exponential series at `r`: `terms` more of them, of which the first has the factorial
of `i` below it. `term` is the last one that `sum` holds. -/
def expSeries (r : Wide) : (terms i : Nat) → (term sum : Wide) → Except Fault Wide
  | 0, _, _, sum => .ok sum
  | terms + 1, i, term, sum => do
    let term ← r.mul (term.divSmall i)
    let sum ← sum.add term
    if term.isNegligible then return sum else expSeries r terms (i + 1) term sum

/-- The exponential of a number that is not negative: its whole part as a power of `e`, the
rest by the series. Without a whole part the result keeps its trailing zeros. -/
def expNonneg (x : Decimal) : Except Fault Decimal :=
  if x.coefficient = 0 then .ok one
  else do
    let whole := x.floor
    let rest := Wide.ofDecimal (← x.sub whole)
    let series ←
      if rest.coefficient = 0 then .ok Wide.one
      else expSeries rest 98 2 rest (← Wide.one.add rest)
    if whole.coefficient = 0 then series.narrow
    else if whole.magnitude ≥ powTwo 64 then throw .overflow
    else
      let w ← powBits Wide.mul Wide.one (Wide.ofDecimal e) whole.magnitude
      return (← (← w.mul series).narrow).normalize

def exp (x : Decimal) : Except Fault Decimal := do
  if x.coefficient < 0 then one.div (← expNonneg (-x)) else expNonneg x

/-! ## Logarithm -/

/-- Apply `step` while `p` holds, `rounds` times at most, and count. -/
def countWhile {α : Type} (p : α → Bool) (step : α → Except Fault α) :
    (rounds : Nat) → (x : α) → (count : Nat) → Except Fault (α × Nat)
  | 0, x, count => .ok (x, count)
  | rounds + 1, x, count => do
    if p x then countWhile p step rounds (← step x) (count + 1) else return (x, count)

/-- The series of the inverse hyperbolic tangent: `terms` more of them, of which the first is
over `2 * n + 1`. `power` is the odd power of the argument in the last one, `square` the square
of the argument. -/
def artanhSeries (square : Wide) : (terms n : Nat) → (power sum : Wide) → Except Fault Wide
  | 0, _, _, sum => .ok sum
  | terms + 1, n, power, sum => do
    let power ← power.mul square
    let term := power.divSmall (2 * n + 1)
    let sum ← sum.add term
    if term.isNegligible then return sum else artanhSeries square terms (n + 1) power sum

/-- The logarithm of `x`, which is close to one, by `2 * artanh ((x - 1) / (x + 1))`. -/
def lnNearOne (x : Decimal) : Except Fault Decimal := do
  let above ← (Wide.ofDecimal x).add ⟨-1, 0⟩
  let below ← (Wide.ofDecimal x).add Wide.one
  let z := Wide.ofDecimal (← (← above.narrow).div (← below.narrow))
  let sum ← artanhSeries (← z.mul z) 99 1 z z
  (← Wide.mul ⟨2, 0⟩ sum).narrow

/-- The natural logarithm of a positive number. It is brought between one and ten by a power of
ten, from there under one by powers of `e`, and the rest is the series. A number has 28
decimals and 29 digits at most, which bounds the counts. -/
def ln (a : Decimal) : Except Fault Decimal :=
  let ten := ofInt 10
  if a.SameValue one then .ok zero
  else do
    let (x, up) ← countWhile (· < one) (·.mul ten) 64 a 0
    let (x, down) ← countWhile (ten ≤ ·) (·.div ten) 64 x 0
    let tens : Int := down - up
    let lnTens ← (ofInt tens).mul lnTen
    if x.SameValue one then return lnTens.normalize
    let (x, shrinks) ← countWhile (one ≤ ·) (·.mul eInverse) 64 x 0
    let (x, grows) ← countWhile (· ≤ eInverse) (·.mul e) 64 x 0
    let count := ofInt (shrinks - grows)
    -- the powers can land on one itself, and then nothing is left for the series
    if x.SameValue one then return count
    return (← (← lnTens.add count).add (← lnNearOne x)).normalize

/-! ## Any exponent -/

/-- `base ^ exponent` for a base that is not negative. -/
def pow (base exponent : Decimal) : Except Fault Decimal :=
  if exponent.coefficient = 0 then .ok one
  else if base.coefficient = 0 then .ok zero
  else if base.SameValue one then .ok one
  else if exponent.SameValue one then .ok base
  else
    let exponent := exponent.normalize
    if exponent.scale = 0 then
      if exponent.magnitude ≥ powTwo 32 then .error .overflow
      else if exponent.coefficient < 0 then do one.div (← powNat base exponent.magnitude)
      else powNat base exponent.magnitude
    else do exp (← (← ln base).mul exponent)

end Decimal
end BondingCurve
