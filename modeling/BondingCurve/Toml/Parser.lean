import BondingCurve.Json.Reader

/-!
# Parsers over characters

A parser takes characters off the front of a list, or fails. Failure is always local: a caller
may try something else from the same place.
-/

namespace BondingCurve
namespace Toml

/-- A parser takes from the front of the text, or fails. -/
abbrev Parser := StateT (List Char) Option

namespace Parser

variable {α : Type}

def peek? : Parser (Option Char) := return (← get).head?

/-- The next character, if it satisfies `p`. -/
def satisfy (p : Char → Bool) : Parser Char := do
  match ← get with
  | c :: cs => if p c then do set cs; return c else failure
  | [] => failure

def char (c : Char) : Parser Unit := discard (satisfy (· == c))

/-- Just the text `s`. -/
def literal (s : String) : Parser Unit := s.toList.forM char

/-- All characters from here that satisfy `p`. -/
def takeWhile (p : Char → Bool) : Parser (List Char) := do
  let cs ← get
  set (cs.dropWhile p)
  return cs.takeWhile p

/-- At least one character that satisfies `p`, and all that follow. -/
def takeWhile1 (p : Char → Bool) : Parser (List Char) := do
  let cs ← takeWhile p
  if cs.isEmpty then failure else return cs

/-- Exactly `n` characters that satisfy `p`. -/
def exactly (n : Nat) (p : Char → Bool) : Parser (List Char) := do
  let cs := (← get).take n
  if cs.length = n ∧ cs.all p then do modify (·.drop n); return cs else failure

/-- `p` as often as it succeeds, `rounds` times at most. -/
def upTo (p : Parser α) : (rounds : Nat) → Parser (List α)
  | 0 => return []
  | rounds + 1 => do
    match ← optional p with
    | none => return []
    | some v => return v :: (← upTo p rounds)

/-- `p` as often as it succeeds. A `p` that takes no character would not get further, so there
are no more rounds than characters. -/
def many (p : Parser α) : Parser (List α) := do upTo p (← get).length

def ended : Parser Unit := do if (← get).isEmpty then return () else failure

end Parser

open Toml.Parser

/-! ## Blanks, line ends and comments -/

def isBlank (c : Char) : Bool := c == ' ' || c == '\t'

def blanks : Parser Unit := discard (takeWhile isBlank)

/-- The end of a line, in either of its forms. -/
def newline : Parser Unit := char '\n' <|> (do char '\x0d'; char '\n')

/-- A character that may stand in a comment or a literal string: no control character but the
tabulator. -/
def isPrintable (c : Char) : Bool := c == '\t' || (c ≥ ' ' && c ≠ '\x7f')

/-- A comment, up to the end of its line. -/
def comment : Parser Unit := do
  char '#'
  discard (takeWhile isPrintable)

/-- What may follow the content of a line. -/
def lineEnd : Parser Unit := do
  blanks
  discard (optional comment)
  newline <|> ended

/-- Anything that may stand between the items of an array. -/
def gap : Parser Unit :=
  discard (many (discard (takeWhile1 isBlank) <|> newline <|> comment))

/-! ## Strings -/

def isDigit (c : Char) : Bool := '0' ≤ c && c ≤ '9'

def isHexDigit (c : Char) : Bool := (Json.hexDigit? c).isSome

/-- The value of digits to a base up to sixteen. -/
def natOf (base : Nat) (cs : List Char) : Nat :=
  cs.foldl (fun n c => n * base + (Json.hexDigit? c).getD 0) 0

/-- A character by its number, which has `n` hexadecimal digits. -/
def unicode (n : Nat) : Parser Char := do
  let cs ← exactly n isHexDigit
  (Json.charOfNat? (natOf 16 cs) : Option Char)

/-- A character behind a backslash. -/
def escape : Parser Char := do
  char '\\'
  match ← satisfy fun _ => true with
  | 'b' => return '\x08'
  | 't' => return '\t'
  | 'n' => return '\n'
  | 'f' => return '\x0c'
  | 'r' => return '\x0d'
  | '"' => return '"'
  | '\\' => return '\\'
  | 'u' => unicode 4
  | 'U' => unicode 8
  | _ => failure

def isBasic (c : Char) : Bool := isPrintable c && c ≠ '"' && c ≠ '\\'

def isLiteral (c : Char) : Bool := isPrintable c && c ≠ '\''

/-- A text in double quotes, with its escapes. -/
def basicString : Parser (List Char) := do
  char '"'
  let cs ← many (satisfy isBasic <|> escape)
  char '"'
  return cs

/-- A text in single quotes, which has no escapes. -/
def literalString : Parser (List Char) := do
  char '\''
  let cs ← takeWhile isLiteral
  char '\''
  return cs

/-- One or two quotes, which do not end a string of several lines. -/
def innerQuotes (quote : Char) : Parser (List Char) := do
  let cs ← takeWhile1 (· == quote)
  if cs.length < 3 then return cs else failure

/-- The end of a string of several lines. Up to two quotes in front of it belong to the text. -/
def endQuotes (quote : Char) : Parser (List Char) := do
  let cs ← takeWhile (· == quote)
  if 3 ≤ cs.length ∧ cs.length ≤ 5 then return cs.drop 3 else failure

/-- A string of several lines from its pieces. A line end at its start does not count. -/
def multiline (quote : Char) (piece : Parser (List Char)) : Parser (List Char) := do
  (List.replicate 3 quote).forM char
  discard (optional newline)
  let pieces ← many (piece <|> innerQuotes quote)
  return pieces.flatten ++ (← endQuotes quote)

def lineBreak : Parser (List Char) := do newline; return ['\n']

/-- A backslash at the end of a line takes the line end and all blanks behind it away. -/
def lineContinuation : Parser (List Char) := do
  char '\\'
  blanks
  newline
  discard (many (discard (takeWhile1 isBlank) <|> newline))
  return []

def multilineBasic : Parser (List Char) :=
  multiline '"'
    (takeWhile1 isBasic <|> lineContinuation <|> (do return [← escape]) <|> lineBreak)

def multilineLiteral : Parser (List Char) := multiline '\'' (takeWhile1 isLiteral <|> lineBreak)

/-- A text in any of its four forms. -/
def string : Parser String := do
  return .ofList (← multilineBasic <|> basicString <|> multilineLiteral <|> literalString)

end Toml
end BondingCurve
