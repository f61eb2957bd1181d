import BondingCurve.Abort

/-!
# Amounts

An amount counts the smallest units of a token. It is an integer between `Amount.least` and
`Amount.greatest`; that range is a predicate, `Amount.InRange`, and not part of the type, so
sums over many accounts and deltas are plain integer arithmetic. Where an operation can leave
the range, it says so: `add` and `neg` abort, `add?` has no value, `addSaturating` stops at
the end of the range.
-/

namespace BondingCurve

/-- A count of smallest units. -/
abbrev Amount := Int

namespace Amount

/-- The least integer of 64 bits. -/
def least : Amount := -9223372036854775808
/-- The greatest integer of 64 bits. -/
def greatest : Amount := 9223372036854775807

/-- An integer that an amount can be. -/
def InRange (n : Amount) : Prop := least ≤ n ∧ n ≤ greatest

instance (n : Amount) : Decidable (InRange n) := inferInstanceAs (Decidable (_ ∧ _))

/-- The integer `n` as an amount, if it is one. -/
def ofInt? (n : Int) : Option Amount := if InRange n then some n else none

/-- The sum, if it is an amount. -/
def add? (a b : Amount) : Option Amount := ofInt? (a + b)

/-- A sum that aborts when it leaves the range. -/
def add (a b : Amount) : Except Abort Amount :=
  if InRange (a + b) then .ok (a + b) else .error .amountSum

/-- A negation that aborts where the result leaves the range, which only the least amount's does. -/
def neg (a : Amount) : Except Abort Amount :=
  if InRange (-a) then .ok (-a) else .error .amountNegation

/-- The sum, or the end of the range that it passes. -/
def addSaturating (a b : Amount) : Amount := max least (min greatest (a + b))

/-- A sum returns exactly when it stays in the range. -/
theorem add_eq_ok_iff {a b c : Amount} : add a b = .ok c ↔ InRange (a + b) ∧ c = a + b := by
  unfold add
  split <;> simp_all [eq_comm]

/-- A negation returns exactly when its result stays in the range. -/
theorem neg_eq_ok_iff {a c : Amount} : neg a = .ok c ↔ InRange (-a) ∧ c = -a := by
  unfold neg
  split <;> simp_all [eq_comm]

/-- A checked sum has a value exactly when it stays in the range. -/
theorem add?_eq_some_iff {a b c : Amount} : add? a b = some c ↔ InRange (a + b) ∧ c = a + b := by
  unfold add? ofInt?
  split <;> simp_all [eq_comm]

end Amount

end BondingCurve
