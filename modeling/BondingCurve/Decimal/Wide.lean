import BondingCurve.Decimal.Arithmetic

/-!
# Wide decimals

Intermediate results of powers and of the exponential and logarithm series carry coefficients
of up to 192 bits and, as a rule, up to 57 decimals. Their rounding differs from that of
`Decimal`: a value that has to be shortened loses its digits in chunks of up to nine, and only
the last chunk decides whether the rest is rounded up (`Wide.shrink`).
-/

namespace BondingCurve

structure Wide where
  coefficient : Int
  scale : Nat
deriving DecidableEq, Repr

namespace Wide

open Decimal (Fault powTen powTwo)

/-- One more than the largest coefficient. -/
def bound : Nat := powTwo 192

/-- The most decimals that a rounded value keeps. -/
def maxScale : Nat := 57

/-- How many binary digits `n` has. -/
def bitLength (n : Nat) : Nat := if n = 0 then 0 else n.log2 + 1

def ofDecimal (d : Decimal) : Wide := ⟨d.coefficient, d.scale⟩

def one : Wide := ⟨1, 0⟩

def magnitude (w : Wide) : Nat := w.coefficient.natAbs

/-! ## Shortening -/

/-- A value on its way to fewer digits: what is left, its decimals, and the chunk of digits
that was cut off last. -/
structure Shortened where
  digits : Nat
  scale : Nat
  last : Nat
deriving DecidableEq, Repr

/-- Cut `excess` digits off, nine at a time, and then single ones until the rest is under
`limit`. Each cut takes at least one decimal, so `scale + 1` cuts are enough. -/
def cut (limit : Nat) : (cuts : Nat) → (v : Shortened) → (excess : Nat) → Except Fault Shortened
  | 0, _, _ => .error .overflow
  | cuts + 1, v, excess =>
    if excess = 0 then .ok v
    else
      let k := Nat.min excess 9
      let v : Shortened := ⟨v.digits / powTen k, v.scale - k, v.digits % powTen k⟩
      if v.digits ≥ limit ∧ excess = k then
        if v.scale = 0 then .error .overflow else cut limit cuts v 1
      else cut limit cuts v (excess - k)

/-- How many digits to cut off `v`, which has `scale` decimals, for a coefficient of at most
`bits` bits and `top` decimals. An estimate from the bit length, corrected by `cut`. -/
def excess (v scale bits top : Nat) : Nat :=
  let long := if v ≥ powTwo bits then (bitLength v - bits) * 77 / 256 + 1 else 0
  if scale > top + long then scale - top else long

/-- Shorten `v` to at most `bits` bits and `top` decimals. -/
def shrink (v scale bits top : Nat) : Except Fault (Nat × Nat) :=
  if v < powTwo bits ∧ scale ≤ Decimal.maxScale then .ok (v, scale)
  else
    let t := excess v scale bits top
    if t = 0 then .ok (v, scale)
    else if t > scale then .error .overflow
    else do
      let r ← cut (powTwo bits) (scale + 1) ⟨v, scale, 0⟩ t
      -- the rest goes up unless the last chunk is zero, or is one and the rest is even
      if r.last > 1 ∨ (r.last = 1 ∧ r.digits % 2 = 1) then
        if r.digits + 1 < powTwo bits then return (r.digits + 1, r.scale)
        else if r.scale = 0 then throw .overflow
        else return ((r.digits + 1) / 10, r.scale - 1)
      else return (r.digits, r.scale)

/-- Back to a coefficient of 96 bits. -/
def narrow (w : Wide) : Except Fault Decimal := do
  let (v, s) ← shrink w.magnitude w.scale 96 Decimal.maxScale
  return { coefficient := w.coefficient.sign * v, scale := s }

/-! ## Arithmetic -/

/-- Drop `excess` decimals in chunks of up to nine, each rounded half to even. -/
def roundChunks : (chunks : Nat) → (v excess : Nat) → Nat
  | 0, v, _ => v
  | chunks + 1, v, excess =>
    if excess = 0 then v
    else
      let k := Nat.min 9 excess
      roundChunks chunks (Decimal.divHalfEven v (powTen k)) (excess - k)

def mul (a b : Wide) : Except Fault Wide :=
  let c := a.coefficient * b.coefficient
  let s := a.scale + b.scale
  if c = 0 then .ok ⟨0, 0⟩
  else if c.natAbs < bound then
    let excess := s - maxScale
    .ok ⟨c.sign * roundChunks excess c.natAbs excess, s - excess⟩
  else do
    let (v, s) ← shrink c.natAbs s 192 maxScale
    return ⟨c.sign * v, s⟩

def add (a b : Wide) : Except Fault Wide :=
  if a.coefficient = 0 then .ok b
  else if b.coefficient = 0 then .ok a
  else
    let s := Nat.max a.scale b.scale
    let x := a.coefficient * powTen (s - a.scale)
    let y := b.coefficient * powTen (s - b.scale)
    let v := (x + y).natAbs
    if x.natAbs ≥ bound ∨ y.natAbs ≥ bound then .error .overflow
    else if v < bound then .ok ⟨x + y, s⟩
    else if s = 0 then .error .overflow
    -- a carry out of the last bit costs one decimal, a half goes up
    else .ok ⟨(x + y).sign * (v / 10 + if v % 10 ≥ 5 then 1 else 0 : Nat), s - 1⟩

/-- Digits of a division by `d`, appended up to nine at a time while a remainder is left and
the coefficient and the scale have room for them. -/
def appendDigits (d : Nat) : (rounds : Nat) → (v r scale : Nat) → Nat × Nat × Nat
  | 0, v, r, scale => (v, r, scale)
  | rounds + 1, v, r, scale =>
    let k := Nat.min 9 ((192 - bitLength v) * 77 / 256)
    if r = 0 ∨ k = 0 ∨ scale + k > maxScale then (v, r, scale)
    else appendDigits d rounds (v * powTen k + r * powTen k / d) (r * powTen k % d) (scale + k)

/-- The quotient by a small number, rounded half to even. -/
def divSmall (a : Wide) (d : Nat) : Wide :=
  if a.coefficient = 0 ∨ d = 1 then a
  else
    let (v, r, s) := appendDigits d maxScale (a.magnitude / d) (a.magnitude % d) a.scale
    let up := r > d / 2 ∨ (r = d / 2 ∧ r > 0 ∧ v % 2 = 1)
    ⟨a.coefficient.sign * (v + if up then 1 else 0 : Nat), s⟩

/-- Too small to change a sum of the series any more. -/
def isNegligible (a : Wide) : Bool :=
  let v := a.magnitude
  v == 0 ||
    (v < Decimal.bound &&
      a.scale ≥ (if v < powTwo 32 then 38 else if v < powTwo 64 then 48 else maxScale))

end Wide
end BondingCurve
