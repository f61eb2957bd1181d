import BondingCurve.Reserve.Pool

/-!
# Brokered pools

A pool behind a broker who may keep its rates to himself and may report less than was paid out.
An exchange cannot trust such a report with its own tokens; that is what its check of a payout
is for.
-/

namespace BondingCurve

/-- A pool and what its broker does to its answers. -/
structure BrokeredPool where
  pool : Pool
  /-- How much the report of a payout falls short of it. -/
  shortfall : Amount
  ratesHidden : Bool
deriving DecidableEq, Repr

namespace BrokeredPool

/-- A claim on the pool, with a report that is `shortfall` units short of the payout. -/
def claim (b : BrokeredPool) (l : Ledger) (owner : Account) (value : Asset) :
    Except Abort (ClaimResult BrokeredPool) := do
  let r ← b.pool.claim l owner value
  let payout := r.payout.map fun a => a.withAmount (a.amount - b.shortfall)
  return ⟨payout, r.ledger, { b with pool := r.reserve }⟩

end BrokeredPool

instance : Reserve BrokeredPool where
  hasReserve b t := Reserve.hasReserve b.pool t
  rate? b t := if b.ratesHidden then none else Reserve.rate? b.pool t
  claim := BrokeredPool.claim

end BondingCurve
