import BondingCurve.Amount

/-!
# Decimals

A decimal is an integer coefficient over a power of ten. The scale is part of the value:
`0.50` and `0.5` are the same number and different decimals, and every operation says which
scale its result has. A decimal is `Valid` when its coefficient has at most 96 bits and it has
at most 28 decimals; the operations on decimals keep that.

A zero may stand for a negative number that has no digit left in its decimals. It is written with
a minus sign (`negativeZero`) and is a zero like any other in arithmetic and order. Only reading
in scientific notation makes one.

Order compares numbers, not scales, and `max` and `min` keep their first argument on a tie.
-/

namespace BondingCurve

/-- A coefficient over a power of ten. -/
structure Decimal where
  coefficient : Int
  /-- How many of the coefficient's digits stand behind the point. -/
  scale : Nat
  /-- Whether a zero coefficient is what is left of a negative number. -/
  negativeZero : Bool := false
deriving DecidableEq, Repr

namespace Decimal

/-- The factor that moves a point by `n` places. -/
def powTen (n : Nat) : Nat := Nat.pow 10 n

theorem powTen_pos (n : Nat) : 0 < powTen n := Nat.pow_pos (by decide)

theorem powTen_add (m n : Nat) : powTen (m + n) = powTen m * powTen n := Nat.pow_add ..

/-- One more than the largest number of `n` bits. -/
def powTwo (n : Nat) : Nat := Nat.pow 2 n

/-- One more than the largest coefficient. -/
def bound : Nat := powTwo 96

/-- The most decimals a value may carry. -/
def maxScale : Nat := 28

/-- A decimal that fits its format, and is a negative zero only if it is a zero. -/
structure Valid (d : Decimal) : Prop where
  coefficient_lt : d.coefficient.natAbs < bound
  scale_le : d.scale ≤ maxScale
  coefficient_eq_zero : d.negativeZero = true → d.coefficient = 0

/-- A whole number, with no decimals. -/
def ofInt (n : Int) : Decimal := { coefficient := n, scale := 0 }

def zero : Decimal := ofInt 0
def one : Decimal := ofInt 1

/-- `n` units of the last of `scale` decimals, if that many are possible. -/
def ofUnits? (n : Int) (scale : Nat) : Option Decimal :=
  if scale ≤ maxScale then some { coefficient := n, scale } else none

/-- `ofUnits?` where too large a scale is a fault of the caller. -/
def ofUnits (n : Int) (scale : Nat) : Except Abort Decimal :=
  match ofUnits? n scale with
  | some d => .ok d
  | none => .error (.scaleTooLarge scale)

/-- Zero at any scale and with any sign. -/
def isZero (d : Decimal) : Bool := d.coefficient == 0

/-- The coefficient without its sign. -/
def magnitude (d : Decimal) : Nat := d.coefficient.natAbs

instance : Neg Decimal := ⟨fun d => { d with coefficient := -d.coefficient }⟩

/-! ## Order -/

instance : LT Decimal :=
  ⟨fun a b => a.coefficient * powTen b.scale < b.coefficient * powTen a.scale⟩

instance : LE Decimal :=
  ⟨fun a b => a.coefficient * powTen b.scale ≤ b.coefficient * powTen a.scale⟩

instance (a b : Decimal) : Decidable (a < b) := Int.decLt _ _

instance (a b : Decimal) : Decidable (a ≤ b) := Int.decLe _ _

/-- Equal as numbers, whatever the scales. -/
def SameValue (a b : Decimal) : Prop :=
  a.coefficient * powTen b.scale = b.coefficient * powTen a.scale

instance (a b : Decimal) : Decidable (SameValue a b) := Int.instDecidableEq _ _

/-- The larger one, `a` when they are equal as numbers. -/
def max (a b : Decimal) : Decimal := if a < b then b else a

/-- The smaller one, `a` when they are equal as numbers. -/
def min (a b : Decimal) : Decimal := if b < a then b else a

/-- Decimals are compared at a common scale. -/
theorem lt_def {a b : Decimal} :
    a < b ↔ a.coefficient * powTen b.scale < b.coefficient * powTen a.scale := Iff.rfl

theorem le_def {a b : Decimal} :
    a ≤ b ↔ a.coefficient * powTen b.scale ≤ b.coefficient * powTen a.scale := Iff.rfl

theorem not_lt {a b : Decimal} : ¬a < b ↔ b ≤ a := Int.not_lt

theorem not_le {a b : Decimal} : ¬a ≤ b ↔ b < a := Int.not_le

/-! ## Whole numbers -/

/-- The largest whole number that is not above `d`. -/
def floor (d : Decimal) : Decimal := ofInt (d.coefficient / powTen d.scale)

/-- The smallest whole number that is not below `d`. -/
def ceil (d : Decimal) : Decimal := ofInt (-(-d.coefficient / powTen d.scale))

/-- The whole part, decimals cut off, if it is an amount. -/
def toAmount? (d : Decimal) : Option Amount :=
  Amount.ofInt? (d.coefficient.tdiv (powTen d.scale))

/-- `d` without the trailing zeros behind its point. -/
def normalize (d : Decimal) : Decimal := strip d.coefficient d.scale
where
  strip (c : Int) : Nat → Decimal
    | 0 => { coefficient := c, scale := 0 }
    | s + 1 =>
      if c % 10 = 0 then strip (c / 10) s else { coefficient := c, scale := s + 1 }

end Decimal

end BondingCurve
