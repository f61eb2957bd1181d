import BondingCurve.Json.Value

/-!
# Reading JSON

Two machines, one after the other, each taking one step for one item of its input:

* `Lexer` turns characters into lexemes. Its mode says whether it is between lexemes, inside a
  word (a number or a name), or inside a string.
* `Builder` turns lexemes into a value. Its stack holds the arrays and objects that are open,
  and `Expect` says which lexeme may come next.

So reading is two folds, needs no bound on the nesting, and stops at the first step that fails.
-/

namespace BondingCurve
namespace Json

/-! ## Strings -/

/-- The character with the number `n`, if it is one: surrogates are none. -/
def charOfNat? (n : Nat) : Option Char := if n.isValidChar then some (.ofNat n) else none

/-- The text of a list of character numbers, in which two surrogates that belong together stand
for one character. -/
def textOfUnits? : List Nat → Option (List Char)
  | [] => some []
  | high :: low :: units =>
    if 0xD800 ≤ high ∧ high < 0xDC00 ∧ 0xDC00 ≤ low ∧ low < 0xE000 then do
      let c ← charOfNat? (0x10000 + (high - 0xD800) * 0x400 + (low - 0xDC00))
      return c :: (← textOfUnits? units)
    else return (← charOfNat? high) :: (← textOfUnits? (low :: units))
  | [unit] => return [← charOfNat? unit]

/-- The value of a hexadecimal digit. -/
def hexDigit? (c : Char) : Option Nat :=
  if '0' ≤ c ∧ c ≤ '9' then some (c.toNat - '0'.toNat)
  else if 'a' ≤ c ∧ c ≤ 'f' then some (c.toNat - 'a'.toNat + 10)
  else if 'A' ≤ c ∧ c ≤ 'F' then some (c.toNat - 'A'.toNat + 10)
  else none

/-- What stands for a character behind a backslash. -/
def unescape? : Char → Option Char
  | '"' => some '"'
  | '\\' => some '\\'
  | '/' => some '/'
  | 'b' => some '\x08'
  | 'f' => some '\x0c'
  | 'n' => some '\n'
  | 'r' => some '\x0d'
  | 't' => some '\t'
  | _ => none

/-! ## Numbers -/

/-- The value of a decimal digit. -/
def digit? (c : Char) : Option Nat :=
  if '0' ≤ c ∧ c ≤ '9' then some (c.toNat - '0'.toNat) else none

/-- At least one digit. -/
def digits? (cs : List Char) : Option (List Nat) :=
  if cs.isEmpty then none else cs.mapM digit?

/-- The number that a row of digits stands for, read from the left. -/
def natOfDigits (ds : List Nat) : Nat := ds.foldl (fun n d => n * 10 + d) 0

/-- An integer, with a sign or without. -/
def signed? : List Char → Option Int
  | '+' :: cs => (digits? cs).map fun ds => (natOfDigits ds : Int)
  | '-' :: cs => (digits? cs).map fun ds => -(natOfDigits ds : Int)
  | cs => (digits? cs).map fun ds => (natOfDigits ds : Int)

/-- The digits behind a point, if there is one. -/
def fraction? : List Char → Option (List Nat)
  | [] => some []
  | _ :: cs => digits? cs

/-- The integer behind the mark of an exponent, if there is one. -/
def exponent? : List Char → Option (Option Int)
  | [] => some none
  | _ :: cs => (signed? cs).map some

/-- What begins an exponent. -/
def isMark (c : Char) : Bool := c == 'e' || c == 'E'

/-- A number literal behind its sign: no leading zeros, digits on both sides of a point. -/
def unsignedNumber? (negative : Bool) (cs : List Char) : Option Number := do
  let mantissa := cs.takeWhile (!isMark ·)
  let whole ← digits? (mantissa.takeWhile (· ≠ '.'))
  if whole.head? = some 0 ∧ whole.length > 1 then none
  let fraction ← fraction? (mantissa.dropWhile (· ≠ '.'))
  let exponent ← exponent? (cs.dropWhile (!isMark ·))
  return ⟨negative, natOfDigits whole, fraction, exponent⟩

/-- A number, if all of the text is one. -/
def number? : List Char → Option Number
  | '-' :: cs => unsignedNumber? true cs
  | cs => unsignedNumber? false cs

/-! ## Lexemes -/

/-- A word, a text in quotes, or punctuation. -/
inductive Lexeme where
  | beginArray
  | endArray
  | beginObject
  | endObject
  | colon
  | comma
  /-- A number, `true`, `false` or `null`. -/
  | word (j : Json)
  | string (s : Text)
deriving Repr

/-- What a bare word says: a literal or a number. -/
def word? (cs : List Char) : Option Json :=
  if cs = ['n', 'u', 'l', 'l'] then some .null
  else if cs = ['t', 'r', 'u', 'e'] then some (.bool true)
  else if cs = ['f', 'a', 'l', 's', 'e'] then some (.bool false)
  else (number? cs).map .number

/-- The characters that are lexemes by themselves. -/
def punctuation? : Char → Option Lexeme
  | '[' => some .beginArray
  | ']' => some .endArray
  | '\x7b' => some .beginObject
  | '\x7d' => some .endObject
  | ':' => some .colon
  | ',' => some .comma
  | _ => none

def isBlank (c : Char) : Bool := c == ' ' || c == '\n' || c == '\t' || c == '\x0d'

namespace Lexer

inductive Mode where
  | between
  /-- Inside a word, its characters last first. -/
  | word (chars : List Char)
  /-- Inside a string, its character numbers last first. -/
  | string (units : List Nat)
  /-- Behind a backslash in a string. -/
  | escape (units : List Nat)
  /-- Behind `\u`, with `left` more digits of the number to come. -/
  | hex (units : List Nat) (left value : Nat)
deriving Repr

structure State where
  mode : Mode
  /-- The lexemes so far, last first. -/
  lexemes : List Lexeme
deriving Repr

def start : State := ⟨.between, []⟩

/-- A character between lexemes, or the one that ends a word. -/
def stepBetween (lexemes : List Lexeme) (c : Char) : Option State :=
  if isBlank c then some ⟨.between, lexemes⟩
  else if c = '"' then some ⟨.string [], lexemes⟩
  else match punctuation? c with
    | some l => some ⟨.between, l :: lexemes⟩
    | none => some ⟨.word [c], lexemes⟩

/-- What cannot stand in a bare word. -/
def endsWord (c : Char) : Bool := isBlank c || c == '"' || (punctuation? c).isSome

def step (s : State) (c : Char) : Option State :=
  match s.mode with
  | .between => stepBetween s.lexemes c
  | .word chars =>
    if endsWord c then do
      let j ← word? chars.reverse
      stepBetween (.word j :: s.lexemes) c
    else some ⟨.word (c :: chars), s.lexemes⟩
  | .string units =>
    if c = '"' then
      some ⟨.between, .string ((textOfUnits? units.reverse).map .ofList) :: s.lexemes⟩
    else if c = '\\' then some ⟨.escape units, s.lexemes⟩
    else if c < ' ' then none
    else some ⟨.string (c.toNat :: units), s.lexemes⟩
  | .escape units =>
    if c = 'u' then some ⟨.hex units 4 0, s.lexemes⟩
    else (unescape? c).map fun c => ⟨.string (c.toNat :: units), s.lexemes⟩
  | .hex units left value => do
    let value := value * 16 + (← hexDigit? c)
    if left ≤ 1 then some ⟨.string (value :: units), s.lexemes⟩
    else some ⟨.hex units (left - 1) value, s.lexemes⟩

/-- The lexemes, if the text does not end inside one. -/
def finish (s : State) : Option (List Lexeme) :=
  match s.mode with
  | .between => some s.lexemes.reverse
  | .word chars => (word? chars.reverse).map fun j => (Lexeme.word j :: s.lexemes).reverse
  | _ => none

def run (cs : List Char) : Option (List Lexeme) := do (← cs.foldlM step start) |> finish

end Lexer

/-! ## Values -/

namespace Builder

/-- An array or an object that is still open, its contents last first. -/
inductive Frame where
  | array (items : List Json)
  /-- `name` waits for its value. -/
  | object (members : List (Text × Json)) (name : Text)
deriving Repr

/-- What may come next. -/
inductive Expect where
  | value
  | valueOrEnd
  | name (members : List (Text × Json))
  | nameOrEnd
  | colon
  | commaOrEnd
  /-- Nothing: the value is complete. -/
  | nothing (j : Json)
deriving Repr

structure State where
  stack : List Frame
  expect : Expect
deriving Repr

def start : State := ⟨[], .value⟩

/-- A complete value, put where the innermost open frame wants it. -/
def complete (stack : List Frame) (j : Json) : State :=
  match stack with
  | [] => ⟨[], .nothing j⟩
  | .array items :: stack => ⟨.array (j :: items) :: stack, .commaOrEnd⟩
  | .object members name :: stack => ⟨.object ((name, j) :: members) name :: stack, .commaOrEnd⟩

/-- A lexeme where a value begins. -/
def beginValue (stack : List Frame) : Lexeme → Option State
  | .beginArray => some ⟨.array [] :: stack, .valueOrEnd⟩
  | .beginObject => some ⟨stack, .nameOrEnd⟩
  | .word j => some (complete stack j)
  | .string s => some (complete stack (.string s))
  | _ => none

def step (s : State) (l : Lexeme) : Option State :=
  match s.expect, l with
  | .value, l => beginValue s.stack l
  | .valueOrEnd, .endArray => some (complete s.stack.tail (.array []))
  | .valueOrEnd, l => beginValue s.stack l
  | .nameOrEnd, .endObject => some (complete s.stack (.object []))
  | .nameOrEnd, .string name => some ⟨.object [] name :: s.stack, .colon⟩
  | .name members, .string name => some ⟨.object members name :: s.stack, .colon⟩
  | .colon, .colon => some ⟨s.stack, .value⟩
  | .commaOrEnd, l =>
    match s.stack, l with
    | .array items :: stack, .comma => some ⟨.array items :: stack, .value⟩
    | .array items :: stack, .endArray => some (complete stack (.array items.reverse))
    | .object members _ :: stack, .comma => some ⟨stack, .name members⟩
    | .object members _ :: stack, .endObject =>
      some (complete stack (.object members.reverse))
    | _, _ => none
  | _, _ => none

def finish (s : State) : Option Json :=
  match s.expect with
  | .nothing j => some j
  | _ => none

def run (ls : List Lexeme) : Option Json := do (← ls.foldlM step start) |> finish

end Builder

/-- The value that a whole text writes. -/
def ofText? (s : String) : Option Json := do
  Builder.run (← Lexer.run s.toList)

end Json
end BondingCurve
