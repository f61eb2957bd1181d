import BondingCurve.Decimal.Text

/-!
# Accounts, tokens and assets

A `Symbol` is a ticker code with a number of decimals. A `Token` is a symbol together with the
account whose contract issues it: equal tickers of different contracts are different tokens.
Where a token is looked up, its precision does not count, so a request with a wrong precision
finds the token and can be told so; `TokenKey` is what remains.

An `Asset` is an amount of one token. All orders here compare the fields one after the other,
text by code points.
-/

namespace BondingCurve

/-- An account is its name, and no two accounts share one. -/
structure Account where
  name : String
deriving DecidableEq, Repr

instance : Ord Account := ⟨compareOn Account.name⟩

instance : Std.TransOrd Account := inferInstanceAs (Std.TransCmp (compareOn Account.name))

instance : Std.LawfulEqOrd Account where
  eq_of_compare {a b} h := by
    have : a.name = b.name := Std.LawfulEqOrd.eq_of_compare h
    cases a; cases b; simp_all

/-! ## Symbols and tokens -/

/-- A ticker code and the number of decimals that an amount is shown with. -/
structure Symbol where
  code : String
  precision : Nat
deriving DecidableEq, Repr

/-- The most decimals a token may have: a power of ten beyond it is no amount. -/
def Symbol.maxPrecision : Nat := 18

/-- A symbol has a code, and no more than `maxPrecision` decimals. -/
def Symbol.IsValid (s : Symbol) : Prop := s.code ≠ "" ∧ s.precision ≤ maxPrecision

instance (s : Symbol) : Decidable s.IsValid := inferInstanceAs (Decidable (_ ∧ _))

/-- A symbol as it is written, decimals first. -/
def Symbol.toText (s : Symbol) : String := toString s.precision ++ "," ++ s.code

instance : Ord Symbol := ⟨compareLex (compareOn Symbol.code) (compareOn Symbol.precision)⟩

instance : Std.TransOrd Symbol :=
  inferInstanceAs (Std.TransCmp (compareLex (compareOn Symbol.code) (compareOn Symbol.precision)))

instance : Std.LawfulEqOrd Symbol where
  eq_of_compare {a b} h := by
    obtain ⟨hc, hp⟩ := compareLex_eq_eq.1 h
    have hc : a.code = b.code := Std.LawfulEqOrd.eq_of_compare hc
    have hp : a.precision = b.precision := Std.LawfulEqOrd.eq_of_compare hp
    cases a; cases b; simp_all

/-- A symbol qualified by the account that issues it. -/
structure Token where
  symbol : Symbol
  contract : Account
deriving DecidableEq, Repr

namespace Token

def code (t : Token) : String := t.symbol.code

def precision (t : Token) : Nat := t.symbol.precision

/-- A token is valid if its symbol is and some account issues it. -/
def IsValid (t : Token) : Prop := t.symbol.IsValid ∧ t.contract.name ≠ ""

instance (t : Token) : Decidable t.IsValid := inferInstanceAs (Decidable (_ ∧ _))

/-- A token as it is written, with its issuer. -/
def toText (t : Token) : String := t.symbol.toText ++ "@" ++ t.contract.name

instance : Ord Token := ⟨compareLex (compareOn Token.symbol) (compareOn Token.contract)⟩

instance : Std.TransOrd Token :=
  inferInstanceAs (Std.TransCmp (compareLex (compareOn Token.symbol) (compareOn Token.contract)))

instance : Std.LawfulEqOrd Token where
  eq_of_compare {a b} h := by
    obtain ⟨hs, hc⟩ := compareLex_eq_eq.1 h
    have hs : a.symbol = b.symbol := Std.LawfulEqOrd.eq_of_compare hs
    have hc : a.contract = b.contract := Std.LawfulEqOrd.eq_of_compare hc
    cases a; cases b; simp_all

end Token

/-- What a token is looked up by: its contract and its code, without the precision. -/
structure TokenKey where
  contract : Account
  code : String
deriving DecidableEq, Repr

instance : Ord TokenKey := ⟨compareLex (compareOn TokenKey.contract) (compareOn TokenKey.code)⟩

instance : Std.TransOrd TokenKey :=
  inferInstanceAs
    (Std.TransCmp (compareLex (compareOn TokenKey.contract) (compareOn TokenKey.code)))

instance : Std.LawfulEqOrd TokenKey where
  eq_of_compare {a b} h := by
    obtain ⟨hs, hc⟩ := compareLex_eq_eq.1 h
    have hs : a.contract = b.contract := Std.LawfulEqOrd.eq_of_compare hs
    have hc : a.code = b.code := Std.LawfulEqOrd.eq_of_compare hc
    cases a; cases b; simp_all

/-- The part of a token that it is looked up by. -/
def Token.key (t : Token) : TokenKey := ⟨t.contract, t.code⟩

/-! ## Assets -/

/-- An amount of one token, in smallest units. -/
structure Asset where
  amount : Amount
  token : Token
deriving DecidableEq, Repr

namespace Asset

def zero (t : Token) : Asset := ⟨0, t⟩

def isZero (a : Asset) : Bool := a.amount == 0

/-- Something of the token, and not a debt. -/
def isPositive (a : Asset) : Bool := 0 < a.amount

@[simp] theorem isPositive_iff {a : Asset} : a.isPositive = true ↔ 0 < a.amount :=
  decide_eq_true_iff

/-- Another amount of the same token. -/
def withAmount (a : Asset) (n : Amount) : Asset := { a with amount := n }

/-- The amount in smallest units. -/
def units (a : Asset) : Decimal := .ofInt a.amount

/-- The amount in whole tokens, or the units of a token too fine for that. -/
def wholeTokens (a : Asset) : Decimal :=
  (Decimal.ofUnits? a.amount a.token.precision).getD a.units

/-- An asset in whole tokens with its ticker and issuer. -/
def toText (a : Asset) : String :=
  a.wholeTokens.toText ++ " " ++ a.token.code ++ "@" ++ a.token.contract.name

end Asset

end BondingCurve
