import BondingCurve.Connector
import BondingCurve.Reserve.Basic
import BondingCurve.Settings

/-!
# Errors of the exchange

`ExchangeError` is what any operation of an exchange fails with. Errors of the curve, the ledger
and the reserve keep their cause; inside an operation they are lifted without a word.
-/

namespace BondingCurve

/-- A missing authority. -/
inductive AuthorityError where
  | unauthorized (account : Account)
deriving DecidableEq, Repr

/-- The text of a missing authority, which names the account. -/
def AuthorityError.message : AuthorityError → String
  | unauthorized a => "Missing authority of " ++ a.name

/-- The accounts that signed a request. -/
abbrev Signers := List Account

/-- An account has authority if it is among the signers. -/
def Signers.authorize (signers : Signers) (a : Account) : Except AuthorityError Unit :=
  if a ∈ signers then .ok () else .error (.unauthorized a)

/-- What is wrong with a request that could not be meant. -/
inductive RequestFault where
  /-- Not exactly one of the two amounts is given. -/
  | amounts (given wanted : Amount)
  | intoItself (token : Token)
  | invalidSymbol (token : Token)
  | connectedAsSmart
  | initialBalance (balance : Asset)
deriving DecidableEq, Repr

/-- What a request is told of its fault. -/
def RequestFault.message : RequestFault → String
  | amounts given wanted =>
    "exactly one of from/to must be a positive amount, got " ++ toString given ++ " and " ++
      toString wanted
  | intoItself t => "cannot convert " ++ t.toText ++ " into itself"
  | invalidSymbol t =>
    "invalid symbol " ++ t.toText ++ ": precision must be at most " ++
      toString Symbol.maxPrecision
  | connectedAsSmart => "connected token cannot be its own smart token"
  | initialBalance a => "initial balance must be positive, got " ++ a.toText

/-- Why the exchange refuses an operation, with its own cause or that of a part. -/
inductive ExchangeError where
  | notInitialized
  | alreadyInitialized
  | connectorNotFound (token : Token)
  | connectorAlreadyExists (token : Token)
  | feePolicyNotFound (token : Token)
  /-- A fee takes all of a value. -/
  | insufficientAfterFee (rest : Asset)
  | invalidRateRange (rate : Int)
  | symbolMismatch (expected actual : Token)
  | invalidWeight (weight : Decimal)
  | invalidRequest (fault : RequestFault)
  | unauthorized (e : AuthorityError)
  | curve (e : CurveError)
  | ledger (e : LedgerError)
  | reserve (e : ReserveError)
  | settings (e : SettingsError)
deriving DecidableEq, Repr

/-- The text of a refusal. A part's own message stands behind the name of the part. -/
def ExchangeError.message : ExchangeError → String
  | notInitialized => "Contract not initialized"
  | alreadyInitialized => "Contract already initialized"
  | connectorNotFound t => "Connector for " ++ t.toText ++ " not found"
  | connectorAlreadyExists t => "Connector for " ++ t.toText ++ " already exists"
  | feePolicyNotFound t => "No charge policy for " ++ t.toText
  | insufficientAfterFee a => "Paid token not enough after charging fee: " ++ a.toText
  | invalidRateRange rate => "Rate " ++ toString rate ++ " outside 0-1000 per mille"
  | symbolMismatch expected actual =>
    "Symbol mismatch: expected " ++ expected.toText ++ ", got " ++ actual.toText
  | invalidWeight w => "Weight " ++ w.toText ++ " outside (0, 1]"
  | invalidRequest fault => "Invalid request: " ++ fault.message
  | unauthorized e => "Unauthorized: " ++ e.message
  | curve e => "Curve error: " ++ e.message
  | ledger e => "Ledger error: " ++ e.message
  | reserve e => "Reserve error: " ++ e.message
  | settings e => "Config error: " ++ e.message

instance : MonadLift (Outcome CurveError) (Outcome ExchangeError) := ⟨ExceptT.adapt .curve⟩

instance : MonadLift (Outcome LedgerError) (Outcome ExchangeError) := ⟨ExceptT.adapt .ledger⟩

/-- An operation on behalf of `a` needs its signature. -/
def Signers.require (signers : Signers) (a : Account) : Outcome ExchangeError Unit :=
  match signers.authorize a with
  | .ok () => pure ()
  | .error e => throw (.unauthorized e)

end BondingCurve
