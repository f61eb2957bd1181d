import BondingCurve.Json.Value

/-!
# Writing JSON

The shortest text of a value: no blanks, and escapes only for quotes, backslashes and control
characters. A string that says nothing is written as one surrogate without its pair.
-/

namespace BondingCurve
namespace Json

/-- The letter that stands for a control character behind a backslash, if there is one. -/
def controlLetter? : Char → Option Char
  | '\x08' => some 'b'
  | '\t' => some 't'
  | '\n' => some 'n'
  | '\x0c' => some 'f'
  | '\x0d' => some 'r'
  | _ => none

/-- A character inside quotes. Only quotes, backslashes and control characters are escaped. -/
def escapeChar (c : Char) : List Char :=
  if c = '"' then ['\\', '"']
  else if c = '\\' then ['\\', '\\']
  else match controlLetter? c with
    | some letter => ['\\', letter]
    | none =>
      if c < ' ' then
        ['\\', 'u', '0', '0', Nat.digitChar (c.toNat / 16), Nat.digitChar (c.toNat % 16)]
      else [c]

/-- A text in quotes. Text that is no text in Unicode is written as a lone surrogate. -/
def textChars : Text → List Char
  | some s => '"' :: s.toList.flatMap escapeChar ++ ['"']
  | none => ['"', '\\', 'u', 'd', '8', '0', '0', '"']

/-- The digits behind the point, and the point if there are any. -/
def fractionChars : List Nat → List Char
  | [] => []
  | d :: ds => '.' :: Nat.digitChar d :: ds.map Nat.digitChar

/-- An exponent behind its mark, if there is one. -/
def exponentChars : Option Int → List Char
  | none => []
  | some e => 'e' :: (toString e).toList

/-- A number part by part, in the digits that it has. -/
def numberChars (n : Number) : List Char :=
  (if n.negative then ['-'] else []) ++
    (Nat.toDigits 10 n.whole ++ fractionChars n.fraction ++ exponentChars n.exponent)

mutual

/-- A value without any white space. -/
def toChars : Json → List Char
  | .null => ['n', 'u', 'l', 'l']
  | .bool true => ['t', 'r', 'u', 'e']
  | .bool false => ['f', 'a', 'l', 's', 'e']
  | .number n => numberChars n
  | .string s => textChars s
  | .array [] => ['[', ']']
  | .array (j :: items) => '[' :: j.toChars ++ itemsChars items ++ [']']
  | .object [] => ['\x7b', '\x7d']
  | .object ((name, j) :: members) =>
    '\x7b' :: textChars name ++ ':' :: j.toChars ++ membersChars members ++ ['\x7d']

/-- The items behind the first one, each behind a comma. -/
def itemsChars : List Json → List Char
  | [] => []
  | j :: items => ',' :: j.toChars ++ itemsChars items

/-- The members behind the first one, each behind a comma. -/
def membersChars : List (Text × Json) → List Char
  | [] => []
  | (name, j) :: members => ',' :: textChars name ++ ':' :: j.toChars ++ membersChars members

end

/-- A value as text. -/
def toText (j : Json) : String := String.ofList j.toChars

end Json
end BondingCurve
