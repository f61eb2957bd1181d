/-!
# JSON values

A value as its text writes it. Numbers keep their digits, because whether a number is an
integer, and how far it is off as a binary fraction, depends on how it is written. A string may
hold escapes that denote no text, half of a surrogate pair without the other; such a string is
well formed and can be skipped, but it cannot be read, so it is `none` here.
-/

namespace BondingCurve
namespace Json

/-- A number literal. No fraction digits means no point, `-0` is not the integer zero. -/
structure Number where
  negative : Bool
  whole : Nat
  /-- The digits behind the point. -/
  fraction : List Nat
  exponent : Option Int
deriving DecidableEq, Repr

/-- What a string literal says, if it says anything. -/
abbrev Text := Option String

end Json

/-- A value in JSON. Members keep their order, and a name may come twice. -/
inductive Json where
  | null
  | bool (b : Bool)
  | number (n : Json.Number)
  | string (s : Json.Text)
  | array (items : List Json)
  | object (members : List (Json.Text × Json))
deriving Repr, Inhabited

namespace Json

/-- An integer as it is written, without a fraction and an exponent. -/
def Number.ofInt (n : Int) : Number := ⟨n < 0, n.natAbs, [], none⟩

/-- The integer that is written, if one is. -/
def Number.toInt? (n : Number) : Option Int :=
  if n.fraction.isEmpty ∧ n.exponent.isNone then
    if n.negative then if n.whole = 0 then none else some (-n.whole) else some n.whole
  else none

/-- An integer is found again in its number. -/
theorem Number.toInt?_ofInt (n : Int) : (ofInt n).toInt? = some n := by
  rcases Int.lt_or_le n 0 with h | h
  · have hneg : (ofInt n).negative = true := decide_eq_true h
    have hzero : (ofInt n).whole ≠ 0 := by show n.natAbs ≠ 0; omega
    rw [toInt?, if_pos ⟨rfl, rfl⟩, if_pos hneg, if_neg hzero]
    exact congrArg some (show -(n.natAbs : Int) = n by omega)
  · have hneg : ¬(ofInt n).negative = true := by
      show ¬decide (n < 0) = true
      exact fun hn => absurd (of_decide_eq_true hn) (Int.not_lt.2 h)
    rw [toInt?, if_pos ⟨rfl, rfl⟩, if_neg hneg]
    exact congrArg some (show (n.natAbs : Int) = n by omega)

/-- An integer as a value. -/
def int (n : Int) : Json := .number (.ofInt n)

/-- A text as a value. -/
def text (s : String) : Json := .string (some s)

/-- An object from its members in order. -/
def record (members : List (String × Json)) : Json :=
  .object (members.map fun (name, value) => (some name, value))

/-- The value, or null. -/
def orNull : Option Json → Json
  | some j => j
  | none => .null

mutual

/-- How many arrays and objects are open at the deepest place. -/
def depth : Json → Nat
  | .array items => depthItems items + 1
  | .object members => depthMembers members + 1
  | _ => 0

def depthItems : List Json → Nat
  | [] => 0
  | j :: items => max j.depth (depthItems items)

def depthMembers : List (Text × Json) → Nat
  | [] => 0
  | (_, j) :: members => max j.depth (depthMembers members)

end

mutual

/-- Whether every string and every number inside, names of members too, passes a test. -/
def all (string : Text → Bool) (number : Number → Bool) : Json → Bool
  | .null => true
  | .bool _ => true
  | .number n => number n
  | .string s => string s
  | .array items => allItems string number items
  | .object members => allMembers string number members

def allItems (string : Text → Bool) (number : Number → Bool) : List Json → Bool
  | [] => true
  | j :: items => j.all string number && allItems string number items

def allMembers (string : Text → Bool) (number : Number → Bool) : List (Text × Json) → Bool
  | [] => true
  | (name, j) :: members =>
    string name && j.all string number && allMembers string number members

end

end Json
end BondingCurve
