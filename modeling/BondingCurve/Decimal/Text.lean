import BondingCurve.Decimal.Arithmetic

/-!
# Decimals as text

A decimal is written with all its decimals, so its text gives back coefficient and scale
(`toText`); only a zero with a minus sign comes back without it. Reading (`ofText?`) takes more
than what is written:

* digits around at most one point, a sign in front, and underscores after the first digit;
* more decimals than fit: the next digit rounds the value, a half away from zero, and what else
  follows has to be digits and underscores but does not count (`Reading.finish`);
* failing that, a mantissa of this form with an exponent (`ofScientific?`). A negative exponent
  may round the mantissa a second time.
-/

namespace BondingCurve
namespace Decimal

/-! ## Writing -/

def toChars (d : Decimal) : List Char :=
  let digits := (Nat.toDigits 10 d.magnitude).leftpad (d.scale + 1) '0'
  let whole := digits.take (digits.length - d.scale)
  let rest := digits.drop (digits.length - d.scale)
  let sign := if d.coefficient < 0 ∨ d.negativeZero then ['-'] else []
  sign ++ whole ++ (if d.scale = 0 then [] else '.' :: rest)

def toText (d : Decimal) : String := String.ofList d.toChars

/-! ## Digits -/

/-- The value of a decimal digit. -/
def digit? (c : Char) : Option Nat :=
  if '0' ≤ c ∧ c ≤ '9' then some (c.toNat - '0'.toNat) else none

/-- The value of a text of digits, at least one. -/
def natOfDigits? : List Char → Option Nat
  | [] => none
  | cs => cs.foldlM (fun n c => (digit? c).map (n * 10 + ·)) 0

/-! ## Positional notation -/

/-- What a reader has seen of a number: its digits, how many of them stand behind the point,
whether there was a point, and whether there was a digit. -/
structure Reading where
  digits : Nat
  scale : Nat
  point : Bool
  any : Bool
deriving DecidableEq, Repr

def Reading.start : Reading := ⟨0, 0, false, false⟩

/-- One more digit, if the coefficient can take it. -/
def Reading.push? (r : Reading) (n : Nat) : Option Reading :=
  if r.digits * 10 + n < bound then
    some { r with
      digits := r.digits * 10 + n, scale := if r.point then r.scale + 1 else 0, any := true }
  else none

/-- Without its last digit the coefficient is so short that one more digit fits into 64 bits, with
some room to spare. -/
def Reading.isShort (r : Reading) : Bool := r.digits / 10 < (powTwo 64 - 1) / 10 - 255

/-- Round the digits so far by the digit `n` behind them. A carry into the bound costs one
decimal. -/
def Reading.roundBy (r : Reading) (n : Nat) : Option (Nat × Nat) :=
  if n < 5 then some (r.digits, r.scale)
  else if r.digits + 1 < bound then some (r.digits + 1, r.scale)
  else if r.scale = 0 then none
  else some ((r.digits + 1 + 4) / 10, r.scale - 1)

/-- The digit of `cs` that rounds the digits in front of it, zero if there is none. Underscores
are skipped, but behind a short coefficient one counts as a zero. -/
def Reading.roundingDigit (r : Reading) (cs : List Char) : Nat :=
  let place := if r.isShort then cs.head? else cs.find? (· != '_')
  (place.bind digit?).getD 0

/-- The value when no digit of the remaining characters `cs` fits into the coefficient. -/
def Reading.finish (r : Reading) (cs : List Char) : Option (Nat × Nat) :=
  if cs.all fun c => c == '_' || (digit? c).isSome then r.roundBy (r.roundingDigit cs) else none

/-- Digits and scale of a number without its sign. -/
def readUnsigned (r : Reading) : List Char → Option (Nat × Nat)
  | [] => if r.any then some (r.digits, r.scale) else none
  | c :: cs =>
    if r.any ∧ r.point ∧ r.scale ≥ maxScale then r.finish (c :: cs)
    else if c = '.' then
      if r.point then none else readUnsigned { r with point := true } cs
    else if c = '_' then if r.any then readUnsigned r cs else none
    else do
      let n ← digit? c
      match r.push? n with
      | some r => readUnsigned r cs
      | none => if r.point then r.finish (c :: cs) else none

def ofPositional? (cs : List Char) : Option Decimal :=
  let unsigned (sign : Int) (cs : List Char) : Option Decimal :=
    (readUnsigned .start cs).map fun (n, s) => { coefficient := sign * n, scale := s }
  match cs with
  | '-' :: cs => unsigned (-1) cs
  | '+' :: cs => unsigned 1 cs
  | cs => unsigned 1 cs

/-! ## Scientific notation -/

/-- The digits of an exponent. They may have a plus sign, also behind a minus sign. -/
def exponentDigits? : List Char → Option Nat
  | '+' :: cs => natOfDigits? cs
  | cs => natOfDigits? cs

/-- A value without its last `k` decimals, a half rounded away from zero. A negative number of
which nothing is left keeps its sign. -/
def dropDecimals (d : Decimal) (k : Nat) : Decimal :=
  let q := (2 * d.magnitude + powTen k) / (2 * powTen k)
  { coefficient := d.coefficient.sign * q
    scale := d.scale - k
    negativeZero := d.negativeZero || (d.coefficient < 0 && q == 0) }

/-- A value moved `n` decimal places to the left. Trailing zeros stay, and decimals that would be
one too many are dropped first. -/
def shiftLeft? (d : Decimal) (n : Nat) : Option Decimal :=
  if n > maxScale then none
  else
    let d := d.dropDecimals (d.scale + n - maxScale)
    some { d with scale := d.scale + n }

/-- A value moved `n` decimal places to the right. Where the point leaves the digits, the zeros
that fill the gap are multiplied in, nineteen at a time, and the result is normalized. -/
def shiftRight? (d : Decimal) (n : Nat) : Option Decimal :=
  if n ≤ d.scale then some { d with scale := d.scale - n }
  else if n > maxScale then none
  else do
    let first := Nat.min n 19
    let d ← (d.mul (ofInt (powTen first))).toOption
    let d ← if n = first then some d else (d.mul (ofInt (powTen (n - first)))).toOption
    some d.normalize

/-- A mantissa in positional notation, `e` or `E`, and an exponent. -/
def ofScientific? (cs : List Char) : Option Decimal := do
  let isMark (c : Char) : Bool := c == 'e' || c == 'E'
  let mantissa ← ofPositional? (cs.takeWhile (!isMark ·))
  match cs.dropWhile (!isMark ·) with
  | [] => none
  | _ :: '-' :: cs => mantissa.shiftLeft? (← exponentDigits? cs)
  | _ :: cs => mantissa.shiftRight? (← exponentDigits? cs)

def ofChars? (cs : List Char) : Option Decimal :=
  ofPositional? cs <|> ofScientific? cs

def ofText? (s : String) : Option Decimal := ofChars? s.toList

end Decimal
end BondingCurve
