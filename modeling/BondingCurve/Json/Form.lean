import BondingCurve.Decimal.Binary
import BondingCurve.Json.Value

/-!
# JSON forms

A type with a `JsonForm` can be written as JSON and read back. This module has the forms of
plain values and what records need.

* A record is an object with its fields by name, in any order, once each; other members are
  skipped. An array with the fields in order is read as well. A field that is missing from an
  object is an error unless its type has a value for that (`JsonForm.missing`), as an option has.
* An integer is one that is written as an integer and lies in the range of its field.
* A decimal is written as its text, and read from a text, an integer, or a binary fraction, which
  counts as its shortest decimal.

What is skipped only has to be well formed; what is read must denote something.
-/

namespace BondingCurve

class JsonForm (α : Type) where
  encode : α → Json
  decode : Json → Option α
  /-- What a missing field of this type stands for. -/
  missing : Option α := none

namespace JsonForm

/-! ## Plain values -/

instance : JsonForm Bool where
  encode := .bool
  decode
    | .bool b => some b
    | _ => none

instance : JsonForm String where
  encode := .text
  decode
    | .string s => s
    | _ => none

/-- An integer between two bounds. -/
def decodeInt (least greatest : Int) : Json → Option Int
  | .number n => do
    let i ← n.toInt?
    if least ≤ i ∧ i ≤ greatest then some i else none
  | _ => none

instance : JsonForm Amount where
  encode := .int
  decode := decodeInt Amount.least Amount.greatest

/-- A natural number below `bound`. -/
def decodeNat (bound : Nat) (j : Json) : Option Nat := (decodeInt 0 (bound - 1) j).map (·.toNat)

instance {α : Type} [JsonForm α] : JsonForm (Option α) where
  encode
    | some v => encode v
    | none => .null
  decode
    | .null => some none
    | j => (decode j).map some
  missing := some none

end JsonForm

/-! ## Numbers as binary fractions -/

namespace Json

/-- One more than the largest significand. -/
def significandBound : Nat := Decimal.powTwo 64

/-- Digits behind the significand `n` as long as they fit, and the digits that do not. -/
def accumulate (n : Nat) : List Nat → Nat × List Nat
  | [] => (n, [])
  | d :: ds => if n * 10 + d < significandBound then accumulate (n * 10 + d) ds else (n, d :: ds)

/-- The number as a binary fraction without its sign, if it is in range. Of the digits only as
many count as a 64-bit significand holds. -/
def Number.toBinary? (n : Number) : Option Binary :=
  let whole := (Nat.toDigits 10 n.whole).map fun c => c.toNat - '0'.toNat
  let (significand, dropped) := accumulate 0 whole
  let (significand, rest) := accumulate significand n.fraction
  let behind : Int := n.fraction.length - rest.length
  Binary.ofScientific? significand (dropped.length - behind + n.exponent.getD 0)

/-- The integer, if it is written as one and has 64 bits. -/
def Number.toInt64? (n : Number) : Option Int := do
  let i ← n.toInt?
  if Amount.least ≤ i ∧ i < significandBound then some i else none

def Number.toDecimal? (n : Number) : Option Decimal :=
  match n.toInt64? with
  | some i => some (.ofInt i)
  | none => do
    let chars := (← n.toBinary?).toChars
    Decimal.ofPositional? (if n.negative then '-' :: chars else chars)

/-- Whether the number is an integer of 64 bits or a binary fraction in range. -/
def Number.isRepresentable (n : Number) : Bool := n.toInt64?.isSome || n.toBinary?.isSome

end Json

namespace JsonForm

instance : JsonForm Decimal where
  encode d := .text d.toText
  decode
    | .string s => s.bind Decimal.ofText?
    | .number n => n.toDecimal?
    | _ => none

/-! ## Records -/

/-- The values of the members called `name`. -/
def valuesOf (name : String) (members : List (Json.Text × Json)) : List Json :=
  (members.filter fun m => m.1 = some name).map (·.2)

/-- The values of some names, each given once at most. All names must denote a text. -/
def fieldsOfMembers (names : List String) (members : List (Json.Text × Json)) :
    Option (List (Option Json)) :=
  if members.all (·.1.isSome) then
    names.mapM fun name =>
      match valuesOf name members with
      | [] => some none
      | [j] => some (some j)
      | _ => none
  else none

/-- The fields of a record, in the order of their names. -/
def fields (names : List String) : Json → Option (List (Option Json))
  | .object members => fieldsOfMembers names members
  | .array items => if items.length = names.length then some (items.map some) else none
  | _ => none

/-- The fields of a record that has a value for each of them: an array may end early. -/
def optionalFields (names : List String) : Json → Option (List (Option Json))
  | .object members => fieldsOfMembers names members
  | .array items =>
    if items.length ≤ names.length then
      some (items.map some ++ List.replicate (names.length - items.length) none)
    else none
  | _ => none

/-- The value of a field. -/
def field {α : Type} [JsonForm α] : Option Json → Option α
  | some j => decode j
  | none => missing

/-- The value of a field, or `default` where it is missing. -/
def fieldOr {α : Type} [JsonForm α] (default : α) : Option Json → Option α
  | some j => decode j
  | none => some default

/-- A value named by a constant: its name, or an object with the name and nothing behind it. -/
def decodeName {α : Type} (ofName? : String → Option α) : Json → Option α
  | .string s => s.bind ofName?
  | .object [(name, .null)] => name.bind ofName?
  | _ => none

end JsonForm
end BondingCurve
