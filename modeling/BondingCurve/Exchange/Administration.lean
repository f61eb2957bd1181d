import BondingCurve.Exchange.Basic

/-!
# Administration

The four operations that need the authority of the contract: `init` creates the configuration,
`connect` adds a connector that the owner pays for, `setCharge` changes fees, and `setOwner`
changes who receives them. Each is a change with the event that tells of it; `commit` applies it
or, where it fails, leaves the exchange as it was.
-/

namespace BondingCurve
namespace Exchange

variable {ρ : Type}

/-- An exchange after a change, and the event that tells of the change. -/
abbrev Change (ρ : Type) := Exchange ρ × Event.Payload

/-- Apply a change to `x` and log it, or keep `x`. -/
def commit (x : Exchange ρ) (now : Int) (change : Outcome ExchangeError (Change ρ)) :
    Except Abort (Reply ρ Unit) := do
  match ← change.run with
  | .ok (y, payload) => return ⟨.ok (), y.emit now payload⟩
  | .error e => return ⟨.error e, x⟩

/-- An invalid token is refused by name. -/
def requireValid (t : Token) : Outcome ExchangeError Unit :=
  if t.IsValid then pure () else throw (.invalidRequest (.invalidSymbol t))

/-- Any token but the connected one is refused. -/
def requireConnected (c : Configuration) (t : Token) : Outcome ExchangeError Unit :=
  if c.isConnected t then pure () else throw (.symbolMismatch c.connected t)

/-- A rate that is no share in thousandths is refused. -/
def requireRate (rate : Int) : Outcome ExchangeError PerMille :=
  match if 0 ≤ rate then PerMille.ofNat? rate.toNat else none with
  | some r => pure r
  | none => throw (.invalidRateRange rate)

/-! ## Configuration -/

/-- The exchange with a first configuration. It has one only once. -/
def initChange (x : Exchange ρ) (signers : Signers) (owner : Account) (connected : Token) :
    Outcome ExchangeError (Change ρ) := do
  signers.require x.contract
  if x.configuration.isFilled then throw .alreadyInitialized
  requireValid connected
  return ({ x with configuration := x.configuration.set (.new owner connected) },
    .initialized owner connected)

/-- Create the configuration, without fees. -/
def init (x : Exchange ρ) (now : Int) (signers : Signers) (owner : Account) (connected : Token) :
    Except Abort (Reply ρ Unit) :=
  x.commit now (x.initChange signers owner connected)

/-- The exchange with another owner. The event names the one before as well. -/
def setOwnerChange (x : Exchange ρ) (signers : Signers) (owner : Account) :
    Outcome ExchangeError (Change ρ) := do
  signers.require x.contract
  let c ← x.requireConfiguration
  return ({ x with configuration := x.configuration.set { c with owner } },
    .ownerChanged c.owner owner)

/-- Change who receives the fees. -/
def setOwner (x : Exchange ρ) (now : Int) (signers : Signers) (owner : Account) :
    Except Abort (Reply ρ Unit) :=
  x.commit now (x.setOwnerChange signers owner)

/-! ## Connectors -/

/-- The memo of the owner's deposit. -/
def connectMemo : String := "connector deposit"

/-- The exchange with a new connector, for which the owner has paid the contract. -/
def connectChange (x : Exchange ρ) (signers : Signers) (smart : Token) (balance : Asset)
    (weight : Decimal) : Outcome ExchangeError (Change ρ) := do
  signers.require x.contract
  let c ← x.requireConfiguration
  requireValid smart
  requireConnected c balance.token
  if c.isConnected smart then throw (.invalidRequest .connectedAsSmart)
  if !balance.isPositive then throw (.invalidRequest (.initialBalance balance))
  match Weight.ofDecimal? weight with
  | none => throw (.invalidWeight weight)
  | some weight =>
    if x.connectors.contains smart.key then throw (.connectorAlreadyExists smart)
    let connector : Connector := ⟨smart, balance, weight⟩
    let ledger ← x.ledger.transfer c.owner x.contract balance connectMemo
    return ({ x with connectors := x.connectors.insert smart.key connector, ledger },
      .connected connector)

/-- Add a connector for `smart`, with a balance that the owner pays. -/
def connect (x : Exchange ρ) (now : Int) (signers : Signers) (smart : Token) (balance : Asset)
    (weight : Decimal) : Except Abort (Reply ρ Unit) :=
  x.commit now (x.connectChange signers smart balance weight)

/-! ## Fees -/

/-- The rate that removes the policy of a token. -/
def removeRate : Int := -1

/-- A new default policy. Without a fixed fee the old one stays. -/
def setDefaultPolicy (x : Exchange ρ) (c : Configuration) (rate : Int) (fixed : Option Asset) :
    Outcome ExchangeError (Change ρ) := do
  let feeRate ← requireRate rate
  let c := { c with feeRate, fixedFee := (fixed.map (·.amount)).getD c.fixedFee }
  return ({ x with configuration := x.configuration.set c },
    .chargeUpdated none c.defaultPolicy)

/-- A new policy for one token, or none. Without a fixed fee an old one stays. -/
def setPolicy (x : Exchange ρ) (rate : Int) (fixed : Option Asset) (smart : Token) :
    Outcome ExchangeError (Change ρ) := do
  if rate = removeRate then
    if x.charges.contains smart.key then
      return ({ x with charges := x.charges.erase smart.key }, .chargeRemoved smart)
    else throw (.feePolicyNotFound smart)
  else
    let rate ← requireRate rate
    let old := ((x.policy? smart).map (·.fixed)).getD 0
    let policy : FeePolicy := ⟨rate, (fixed.map (·.amount)).getD old⟩
    return ({ x with charges := x.charges.insert smart.key policy },
      .chargeUpdated (some smart) policy)

/-- The exchange with another fee. A fixed fee has to be in the connected token. -/
def setChargeChange (x : Exchange ρ) (signers : Signers) (rate : Int) (fixed : Option Asset)
    (target : Option Token) : Outcome ExchangeError (Change ρ) := do
  signers.require x.contract
  let c ← x.requireConfiguration
  if let some fixed := fixed then requireConnected c fixed.token
  match target with
  | none => x.setDefaultPolicy c rate fixed
  | some smart => x.setPolicy rate fixed smart

/-- Set the default fee, or with a target the fee of that token. -/
def setCharge (x : Exchange ρ) (now : Int) (signers : Signers) (rate : Int)
    (fixed : Option Asset) (target : Option Token) : Except Abort (Reply ρ Unit) :=
  x.commit now (x.setChargeChange signers rate fixed target)

end Exchange
end BondingCurve
