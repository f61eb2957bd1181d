import BondingCurve.Table
import BondingCurve.Token

/-!
# The token ledger

The ledger registers tokens, holds the balances of accounts, and writes a journal. A token is
registered under its contract and code, so a request with the wrong precision is told what the
ledger has; a balance belongs to the exact token.

Every operation gives the ledger after it, or an error and no ledger: what failed has changed
nothing. Balances that run over the amount range abort.
-/

namespace BondingCurve

/-- Why the ledger refuses an operation. -/
inductive LedgerError where
  | unknownToken (token : Token)
  | tokenExists (token : Token)
  | symbolMismatch (expected actual : Token)
  | invalidQuantity (amount : Amount)
  | insufficientBalance (owner : Account) (available requested : Amount)
  | frozen (account : Account)
  | maxSupplyExceeded (token : Token) (requested maxSupply : Amount)
deriving DecidableEq, Repr

/-- The text of a refusal, with the amounts or the accounts it is about. -/
def LedgerError.message : LedgerError → String
  | unknownToken t => "Unknown token " ++ t.toText
  | tokenExists t => "Token " ++ t.toText ++ " already exists"
  | symbolMismatch expected actual =>
    "Symbol mismatch: ledger has " ++ expected.toText ++ ", request used " ++ actual.toText
  | invalidQuantity n => "Quantity must be positive, got " ++ toString n
  | insufficientBalance owner available requested =>
    "Insufficient balance for " ++ owner.name ++ ": available " ++ toString available ++
      ", requested " ++ toString requested
  | frozen account => "Account " ++ account.name ++ " is frozen"
  | maxSupplyExceeded t requested maxSupply =>
    "Issuing " ++ toString requested ++ " of " ++ t.toText ++ " would exceed max supply " ++
      toString maxSupply

/-- A token as the ledger knows it. -/
structure Registration where
  token : Token
  supply : Amount
  maxSupply : Amount
deriving DecidableEq, Repr

/-- Whose balance of what. -/
structure Holding where
  owner : Account
  token : Token
deriving DecidableEq, Repr

instance : Ord Holding := ⟨compareLex (compareOn Holding.owner) (compareOn Holding.token)⟩

instance : Std.TransOrd Holding :=
  inferInstanceAs (Std.TransCmp (compareLex (compareOn Holding.owner) (compareOn Holding.token)))

instance : Std.LawfulEqOrd Holding where
  eq_of_compare {a b} h := by
    obtain ⟨ho, ht⟩ := compareLex_eq_eq.1 h
    have ho : a.owner = b.owner := Std.LawfulEqOrd.eq_of_compare ho
    have ht : a.token = b.token := Std.LawfulEqOrd.eq_of_compare ht
    cases a; cases b; simp_all

namespace Ledger

/-- What the journal says of a successful operation. -/
inductive Entry where
  | transfer (sender receiver : Account) (value : Asset) (memo : String)
  | issue (receiver : Account) (value : Asset) (memo : String)
  | retire (sender : Account) (value : Asset) (memo : String)
deriving DecidableEq, Repr

end Ledger

/-- Registered tokens, balances, frozen accounts, and the journal of what was done. -/
structure Ledger where
  tokens : Table TokenKey Registration
  balances : Table Holding Amount
  frozen : List Account
  /-- Oldest entry first. -/
  journal : List Ledger.Entry
deriving DecidableEq, Repr

namespace Ledger

/-- The ledger without tokens, which nobody has used. -/
def empty : Ledger := ⟨.empty, .empty, [], []⟩

/-! ## Queries -/

/-- The registration under a token's contract and code, whatever its precision. -/
def registration? (l : Ledger) (t : Token) : Option Registration := l.tokens.find? t.key

/-- A frozen account neither sends nor receives. -/
def isFrozen (l : Ledger) (a : Account) : Bool := l.frozen.contains a

/-- The balance of the exact token, zero where there is none. -/
def balanceOf (l : Ledger) (owner : Account) (t : Token) : Amount :=
  (l.balances.find? ⟨owner, t⟩).getD 0

/-- How much of a token exists. The answer names the token as it is registered. -/
def supply (l : Ledger) (t : Token) : Outcome LedgerError Asset :=
  match l.registration? t with
  | some r => pure ⟨r.supply, r.token⟩
  | none => throw (.unknownToken t)

/-- The balances of a token in the order of their owners. -/
def balancesOf (l : Ledger) (t : Token) : List Amount :=
  (l.balances.rows.filter fun r => r.1.token = t).map (·.2)

/-- The sum of all balances of a token. -/
def totalHeld (l : Ledger) (t : Token) : Except Abort Amount :=
  (l.balancesOf t).foldlM Amount.add 0

/-! ## Checks -/

/-- A value can be moved if it is positive and its token is registered with that precision. -/
def checkToken (l : Ledger) (value : Asset) : Outcome LedgerError Registration := do
  if value.amount ≤ 0 then throw (.invalidQuantity value.amount)
  match l.registration? value.token with
  | none => throw (.unknownToken value.token)
  | some r =>
    if r.token ≠ value.token then throw (.symbolMismatch r.token value.token)
    return r

/-- A frozen account is refused. -/
def checkActive (l : Ledger) (a : Account) : Outcome LedgerError Unit :=
  if l.isFrozen a then throw (.frozen a) else pure ()

/-! ## Single balances -/

/-- Take `value` from an account that has it. -/
def debit (l : Ledger) (owner : Account) (value : Asset) : Outcome LedgerError Ledger :=
  let available := l.balanceOf owner value.token
  if available < value.amount then
    throw (.insufficientBalance owner available value.amount)
  else
    pure { l with
      balances := l.balances.insert ⟨owner, value.token⟩ (available - value.amount) }

/-- Add `value` to an account. A balance that leaves the amount range aborts. -/
def credit (l : Ledger) (owner : Account) (value : Asset) : Except Abort Ledger := do
  let sum ← Amount.add (l.balanceOf owner value.token) value.amount
  return { l with balances := l.balances.insert ⟨owner, value.token⟩ sum }

/-- Write another supply into a registration. -/
def setSupply (l : Ledger) (r : Registration) (supply : Amount) : Ledger :=
  { l with tokens := l.tokens.insert r.token.key { r with supply } }

/-- Write an entry behind the others. -/
def record (l : Ledger) (e : Entry) : Ledger := { l with journal := l.journal ++ [e] }

/-! ## Operations -/

/-- Register a token, of which nothing exists yet, under a key that no other token has. -/
def createToken (l : Ledger) (t : Token) (maxSupply : Amount) : Outcome LedgerError Ledger := do
  if maxSupply ≤ 0 then throw (.invalidQuantity maxSupply)
  if l.tokens.contains t.key then throw (.tokenExists t)
  return { l with tokens := l.tokens.insert t.key ⟨t, 0, maxSupply⟩ }

/-- Freeze an account. It changes nothing to do so twice. -/
def freeze (l : Ledger) (a : Account) : Ledger :=
  if l.isFrozen a then l else { l with frozen := a :: l.frozen }

/-- Let an account send and receive again. -/
def unfreeze (l : Ledger) (a : Account) : Ledger :=
  { l with frozen := l.frozen.filter (· ≠ a) }

/-- Move `value` from one account to another, or to itself. Both must be active. -/
def transfer (l : Ledger) (sender receiver : Account) (value : Asset) (memo : String) :
    Outcome LedgerError Ledger := do
  let _ ← l.checkToken value
  l.checkActive sender
  l.checkActive receiver
  let l ← l.debit sender value
  let l ← l.credit receiver value
  return l.record (.transfer sender receiver value memo)

/-- Mint `value`. The cap is compared with a sum that stops at the end of the amount range. -/
def issue (l : Ledger) (receiver : Account) (value : Asset) (memo : String) :
    Outcome LedgerError Ledger := do
  let r ← l.checkToken value
  if r.supply.addSaturating value.amount > r.maxSupply then
    throw (.maxSupplyExceeded value.token value.amount r.maxSupply)
  l.checkActive receiver
  let l := l.setSupply r (← Amount.add r.supply value.amount)
  let l ← l.credit receiver value
  return l.record (.issue receiver value memo)

/-- Burn `value`. -/
def retire (l : Ledger) (sender : Account) (value : Asset) (memo : String) :
    Outcome LedgerError Ledger := do
  let r ← l.checkToken value
  l.checkActive sender
  let l ← l.debit sender value
  let l := l.setSupply r (r.supply - value.amount)
  return l.record (.retire sender value memo)

end Ledger
end BondingCurve
