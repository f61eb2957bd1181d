import BondingCurve.Ledger
import BondingCurve.Reserve.Rate

/-!
# Reserves

A reserve backs smart tokens from outside the curve: it quotes a rate and redeems tokens for
what lies behind them. `Reserve` is what the exchange asks of one. A claim works on the ledger
in several steps, and one that fails half way hands back the ledger and the reserve as they are
then: undoing is the caller's business.
-/

namespace BondingCurve

/-- Why a reserve refuses a claim. -/
inductive ReserveError where
  | notFound (token : Token)
  | invalidQuantity (amount : Amount)
  | insufficientUnderlying (token : Token) (available requested : Amount)
  | ledger (e : LedgerError)
  | rate (e : CurveError)
deriving DecidableEq, Repr

/-- The text of a refused claim. -/
def ReserveError.message : ReserveError → String
  | notFound t => "No reserve for " ++ t.toText
  | invalidQuantity n => "Claim quantity must be positive, got " ++ toString n
  | insufficientUnderlying t available requested =>
    "Reserve for " ++ t.toText ++ " holds " ++ toString available ++ ", claim needs " ++
      toString requested
  | ledger e => "Ledger error during claim: " ++ e.message
  | rate e => "Rate scaling failed: " ++ e.message

/-- What a claim leaves behind, failed or not. -/
structure ClaimResult (ρ : Type) where
  /-- What was paid out. -/
  payout : Except ReserveError Asset
  ledger : Ledger
  reserve : ρ

/-- What an exchange asks of a reserve. -/
class Reserve (ρ : Type) where
  hasReserve : ρ → Token → Bool
  /-- The price of a whole smart token in whole tokens of what lies behind it. -/
  rate? : ρ → Token → Option Decimal
  /-- Redeem `value`, which `owner` holds. -/
  claim : ρ → Ledger → (owner : Account) → (value : Asset) → Except Abort (ClaimResult ρ)

end BondingCurve
