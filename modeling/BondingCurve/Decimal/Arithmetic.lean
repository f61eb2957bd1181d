import BondingCurve.Decimal.Basic

/-!
# Decimal arithmetic

Sums and products are computed exactly and then brought back under the coefficient bound by
dropping decimals, rounded half to even (`fit`). A quotient is computed by long division up to
nine digits at a time (`longDivision`) until it is exact, as long as a coefficient can be, or
carries 28 decimals.

Each operation has two forms. The bare one names its fault; `addOrAbort` and its companions
are for places where a fault ends the computation.
-/

namespace BondingCurve
namespace Decimal

/-- Why an operation has no result. -/
inductive Fault where
  /-- The result does not fit into a coefficient. -/
  | overflow
  | zeroDivisor
deriving DecidableEq, Repr

/-! ## Rounding -/

/-- `n / d` rounded to the nearest integer, a half to the even neighbour. -/
def divHalfEven (n d : Nat) : Nat :=
  let q := n / d
  let r := n % d
  if 2 * r > d ∨ (2 * r = d ∧ q % 2 = 1) then q + 1 else q

/-- The coefficient `v` with `scale` decimals, after dropping `least` decimals or as many more
as it takes to get under the bound. -/
def fit (v scale least : Nat) : Except Fault (Nat × Nat) :=
  match (List.range' least (scale + 1 - least)).find? (fun k => v / powTen k < bound) with
  | none => .error .overflow
  | some k =>
    let q := divHalfEven v (powTen k)
    if q < bound then .ok (q, scale - k)
    -- rounding up reached the bound itself: one decimal less
    else if scale = k then .error .overflow
    else .ok (bound / 10 + 1, scale - k - 1)

/-- `fit` for a signed coefficient. -/
def fitSigned (v : Int) (scale least : Nat) : Except Fault Decimal := do
  let (q, s) ← fit v.natAbs scale least
  return { coefficient := v.sign * q, scale := s }

/-! ## Sum and product -/

/-- A zero operand gives the other one back, scale and all. -/
def add (a b : Decimal) : Except Fault Decimal :=
  if a.coefficient = 0 then .ok b
  else if b.coefficient = 0 then .ok a
  else
    let s := Nat.max a.scale b.scale
    fitSigned (a.coefficient * powTen (s - a.scale) + b.coefficient * powTen (s - b.scale)) s 0

def sub (a b : Decimal) : Except Fault Decimal := a.add (-b)

/-- One more than the largest coefficient that counts as short. -/
def shortBound : Nat := powTwo 32

/-- A product of two short coefficients so far behind the point that no digit of it is kept
is zero without decimals. -/
def mul (a b : Decimal) : Except Fault Decimal :=
  if a.coefficient = 0 ∨ b.coefficient = 0 then .ok zero
  else
    let s := a.scale + b.scale
    if a.magnitude < shortBound ∧ b.magnitude < shortBound ∧ s > 47 then .ok zero
    else fitSigned (a.coefficient * b.coefficient) s (s - maxScale)

/-! ## Quotient -/

/-- A quotient under construction: its digits so far, how many of them stand behind the point
(fewer than none while whole digits are missing), and whether a remainder was ever left. -/
structure Quotient where
  digits : Nat
  scale : Int
  inexact : Bool
deriving DecidableEq, Repr

/-- A quotient that reached the bound loses its last digit, rounded half to even. `sticky` says
that a remainder stands behind that digit. -/
def Quotient.squeeze (q : Quotient) (sticky : Bool) : Except Fault Quotient :=
  if q.scale ≤ 0 then .error .overflow
  else
    let n := q.digits / 10
    let r := q.digits % 10
    let up := r > 5 ∨ (r = 5 ∧ (sticky ∨ q.digits / 10 % 2 = 1))
    .ok { q with digits := if up then n + 1 else n, scale := q.scale - 1 }

/-- How many digits, nine at most, the quotient can still take. -/
def Quotient.room (q : Quotient) : Nat :=
  let most := Nat.min 9 (maxScale - q.scale).toNat
  ((List.range (most + 1)).reverse.find? (fun p => q.digits * powTen p < bound)).getD 0

/-- Round the quotient by the remainder `r` of a division by `d`. -/
def Quotient.round (q : Quotient) (r d : Nat) : Except Fault Quotient :=
  if 2 * r > d ∨ (2 * r = d ∧ q.digits % 2 = 1) then
    let q := { q with digits := q.digits + 1 }
    if q.digits = bound then q.squeeze true else .ok q
  else .ok q

/-- A round of long division ends it or leaves a quotient and a remainder to go on from. -/
inductive Quotient.Round where
  | done (q : Quotient)
  | next (q : Quotient) (r : Nat)
deriving DecidableEq, Repr

/-- Append the next `p` digits of a division by `d`. -/
def Quotient.append (q : Quotient) (r d p : Nat) : Except Fault Quotient.Round :=
  let shifted := q.digits * powTen p
  if shifted ≥ bound then .error .overflow
  else
    let q := { q with digits := shifted + r * powTen p / d, scale := q.scale + p }
    let r := r * powTen p % d
    if q.digits ≥ bound then return .done (← q.squeeze (r ≠ 0)) else .ok (.next q r)

/-- One round: without a remainder only whole digits may be missing, with one the quotient
takes as many digits as there is room for, and is rounded when there is none. -/
def Quotient.advance (q : Quotient) (r d : Nat) : Except Fault Quotient.Round :=
  if r = 0 then
    if 0 ≤ q.scale then .ok (.done q) else q.append r d (Nat.min 9 (-q.scale).toNat)
  else
    let q : Quotient := { q with inexact := true }
    let p := q.room
    if p < 9 ∧ q.scale < maxScale ∧ q.scale + p < 0 then .error .overflow
    else if p = 0 then return .done (← q.round r d)
    else q.append r d p

/-- Continue the division by `d` from the quotient `q` and the remainder `r`. Each round that is
not the last adds at least one decimal, so one round more than the decimals left is enough. -/
def longDivision (d : Nat) : (rounds : Nat) → (q : Quotient) → (r : Nat) → Except Fault Quotient
  | 0, _, _ => .error .overflow
  | rounds + 1, q, r => do
    match ← q.advance r d with
    | .done q => return q
    | .next q r => longDivision d rounds q r

/-- `n` trailing zeros removed, if the digits end in that many. The test for a power of two
goes first: digits that end in `n` zeros are a multiple of `2 ^ n`, and of `2 ^ 32` only when
the quotient is long. -/
def Quotient.dropZeros (modulus n : Nat) (q : Quotient) : Quotient :=
  if q.digits % modulus = 0 ∧ (n : Int) ≤ q.scale ∧ q.digits % powTen n = 0 then
    { q with digits := q.digits / powTen n, scale := q.scale - n }
  else q

/-- Remove trailing zeros in runs of eight, four, two and one. An odd run length may leave some. -/
def Quotient.trim (q : Quotient) : Quotient :=
  [(shortBound, 8), (shortBound, 8), (shortBound, 8), (16, 4), (4, 2), (2, 1)].foldl
    (fun q (modulus, n) => q.dropZeros modulus n) q

/-- An exact quotient keeps the difference of the scales, or as many decimals as it needs. -/
def div (a b : Decimal) : Except Fault Decimal :=
  if b.coefficient = 0 then .error .zeroDivisor
  else if a.coefficient = 0 then .ok zero
  else do
    let scale : Int := a.scale - b.scale
    let start : Quotient := ⟨a.magnitude / b.magnitude, scale, false⟩
    let q ← longDivision b.magnitude ((maxScale - scale).toNat + 1) start
      (a.magnitude % b.magnitude)
    let q := if q.inexact then q.trim else q
    return {
      coefficient := a.coefficient.sign * b.coefficient.sign * q.digits
      scale := q.scale.toNat }

/-! ## Where a fault ends the computation -/

def addOrAbort (a b : Decimal) : Except Abort Decimal :=
  (a.add b).mapError fun _ => .decimalSum

def subOrAbort (a b : Decimal) : Except Abort Decimal :=
  (a.sub b).mapError fun _ => .decimalDifference

def mulOrAbort (a b : Decimal) : Except Abort Decimal :=
  (a.mul b).mapError fun _ => .decimalProduct

def divOrAbort (a b : Decimal) : Except Abort Decimal :=
  (a.div b).mapError fun
    | .overflow => .decimalQuotient
    | .zeroDivisor => .zeroDivisor

end Decimal
end BondingCurve
