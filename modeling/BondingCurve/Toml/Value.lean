import BondingCurve.Amount
import BondingCurve.Decimal.Binary
import BondingCurve.Toml.Parser

/-!
# TOML values

Strings and integers are kept, because settings are made of them. A value of any other kind is
checked and forgotten: what matters of it is that the document is well formed, and that it is
neither a string nor an integer.
-/

namespace BondingCurve
namespace Toml

inductive Value where
  | string (s : String)
  | integer (n : Int)
  | other
deriving DecidableEq, Repr

open Toml.Parser

/-! ## Numbers -/

/-- Digits of a kind, with single underscores between them. -/
def digits (p : Char → Bool) : Parser (List Char) := do
  let first ← takeWhile1 p
  let groups ← many (do char '_'; takeWhile1 p)
  return first ++ groups.flatten

/-- An optional sign; whether it is a minus. -/
def sign : Parser Bool := do
  match ← peek? with
  | some '-' => char '-'; return true
  | some '+' => char '+'; return false
  | _ => return false

/-- A decimal integer without its sign. A leading zero stands alone. -/
def wholeDigits : Parser (List Char) := do
  match ← peek? with
  | some '0' => char '0'; return ['0']
  | _ => digits isDigit

/-- An integer of 64 bits. -/
def integer : Parser Int := do
  let based (mark : Char) (base : Nat) (p : Char → Bool) : Parser Int := do
    char '0'
    char mark
    return natOf base (← digits p)
  let decimal : Parser Int := do
    let negative ← sign
    let n : Int := natOf 10 (← wholeDigits)
    return if negative then -n else n
  let n ← based 'x' 16 isHexDigit <|> based 'o' 8 (fun c => '0' ≤ c && c ≤ '7') <|>
    based 'b' 2 (fun c => c == '0' || c == '1') <|> decimal
  if Amount.InRange n then return n else failure

/-- Whether `n * 10 ^ e` is beyond the range of binary fractions. The number of digits decides
unless it is close to that. -/
def isInfinite (n : Nat) (e : Int) : Bool :=
  let size : Int := (Nat.toDigits 10 n).length + e
  if n = 0 ∨ size < 300 then false
  else if size > 320 then true
  else (Binary.round (n * Decimal.powTen e.toNat) (Decimal.powTen (-e).toNat)).isNone

/-- The part of a float behind the point. -/
def floatFraction : Parser (List Char) := do
  char '.'
  digits isDigit

def floatExponent : Parser Int := do
  discard (satisfy fun c => c == 'e' || c == 'E')
  let negative ← sign
  let n : Int := natOf 10 (← digits isDigit)
  return if negative then -n else n

/-- A float has a fraction or an exponent. A positive one must be in range. -/
def float : Parser Unit := do
  let negative ← sign
  if (← optional (literal "inf" <|> literal "nan")).isSome then return ()
  let whole ← wholeDigits
  let fraction ← optional floatFraction
  let exponent ← optional floatExponent
  if fraction.isNone ∧ exponent.isNone then failure
  let fraction := fraction.getD []
  if !negative && isInfinite (natOf 10 (whole ++ fraction)) (exponent.getD 0 - fraction.length) then
    failure

/-! ## Dates and times -/

/-- Two digits from `least` to `greatest`. -/
def twoDigits (least greatest : Nat) : Parser Nat := do
  let n := natOf 10 (← exactly 2 isDigit)
  if least ≤ n ∧ n ≤ greatest then return n else failure

def daysInMonth (year month : Nat) : Nat :=
  if month = 2 then
    if year % 4 = 0 ∧ (year % 100 ≠ 0 ∨ year % 400 = 0) then 29 else 28
  else if month ∈ [4, 6, 9, 11] then 30
  else 31

def date : Parser Unit := do
  let year := natOf 10 (← exactly 4 isDigit)
  char '-'
  let month ← twoDigits 1 12
  char '-'
  discard (twoDigits 1 (daysInMonth year month))

/-- Seconds may be sixty, and have a fraction. -/
def time : Parser Unit := do
  discard (twoDigits 0 23)
  char ':'
  discard (twoDigits 0 59)
  char ':'
  discard (twoDigits 0 60)
  discard (optional (do char '.'; takeWhile1 isDigit))

def offset : Parser Unit :=
  discard (satisfy fun c => c == 'Z' || c == 'z') <|> do
    discard (satisfy fun c => c == '+' || c == '-')
    discard (twoDigits 0 23)
    char ':'
    discard (twoDigits 0 59)

/-- A date, a time, or both, and then perhaps with an offset. -/
def dateTime : Parser Unit := do
  let timeOfDate : Parser Unit := do
    discard (satisfy fun c => c == 'T' || c == 't' || c == ' ')
    time
    discard (optional offset)
  (do date; discard (optional timeOfDate)) <|> time

/-! ## Scalars -/

def scalar : Parser Value := do
  match ← peek? with
  | some '"' | some '\'' => return .string (← string)
  | some 't' => literal "true"; return .other
  | some 'f' => literal "false"; return .other
  | _ => (do dateTime <|> float; return .other) <|> (do return .integer (← integer))

end Toml
end BondingCurve
