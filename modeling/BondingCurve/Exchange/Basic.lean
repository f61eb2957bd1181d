import BondingCurve.Event
import BondingCurve.Exchange.Error
import BondingCurve.Reserve.Pool

/-!
# The exchange

An exchange converts between one connected token and many smart tokens. Its state is a value: an
operation takes an exchange and gives the one after it, so an operation that fails half way has
nothing to undo. `Exchange.Reply` pairs the answer of an operation with the exchange behind it.

The wall clock is an argument, `now`. The clock of the exchange can be set ahead of it, and
catches up with it at every event.
-/

namespace BondingCurve

/-- The state of an exchange over a reserve of type `ρ`. -/
structure Exchange (ρ : Type) where
  settings : Settings
  configuration : Slot Configuration
  connectors : Table TokenKey Connector
  /-- The policies of single tokens. -/
  charges : Table TokenKey FeePolicy
  ledger : Ledger
  reserve : ρ
  /-- The latest events, oldest first. -/
  events : List Event
  nextEventId : Nat
  clock : Int

namespace Exchange

variable {ρ : Type}

/-- What an operation answers, and the exchange behind it. -/
structure Reply (ρ α : Type) where
  answer : Except ExchangeError α
  exchange : Exchange ρ

/-- An exchange that was not set up yet: no configuration, no connectors, no events. -/
def assemble (settings : Settings) (ledger : Ledger) (reserve : ρ) : Exchange ρ :=
  { settings, ledger, reserve, configuration := .empty, connectors := .empty, charges := .empty,
    events := [], nextEventId := 1, clock := 0 }

/-- A new exchange. Its settings must be valid. -/
def new (settings : Settings) (ledger : Ledger) (reserve : ρ) :
    Except ExchangeError (Exchange ρ) :=
  match settings.validate with
  | .ok () => .ok (assemble settings ledger reserve)
  | .error e => .error (.settings e)

/-- An exchange with the default settings, an empty ledger and an empty reserve. -/
def inMemory : Exchange Pool := assemble {} .empty (.empty Pool.defaultAccount)

/-! ## Queries -/

/-- The account that the exchange acts as. -/
def contract (x : Exchange ρ) : Account := x.settings.contract

/-- The connector of a smart token, found whatever the precision it is asked for with. -/
def connector? (x : Exchange ρ) (smart : Token) : Option Connector :=
  x.connectors.find? smart.key

/-- The token's own policy. -/
def policy? (x : Exchange ρ) (smart : Token) : Option FeePolicy := x.charges.find? smart.key

/-- What a conversion of the token is charged. -/
def effectivePolicy (x : Exchange ρ) (smart : Token) : FeePolicy :=
  .resolve (x.policy? smart) (x.configuration.get?.map (·.defaultPolicy))

/-- The last `count` events. -/
def recentEvents (x : Exchange ρ) (count : Nat) : List Event :=
  x.events.drop (x.events.length - count)

/-- What is asked of an exchange before it is set up is refused. -/
def requireConfiguration (x : Exchange ρ) : Outcome ExchangeError Configuration :=
  match x.configuration.get? with
  | some c => pure c
  | none => throw .notInitialized

/-! ## Clock and events -/

/-- Set the clock, also back. -/
def setTime (x : Exchange ρ) (time : Int) : Exchange ρ := { x with clock := time }

/-- Set the clock ahead. A time beyond the range aborts. -/
def advanceTime (x : Exchange ρ) (millis : Int) : Except Abort (Exchange ρ) :=
  return x.setTime (← Amount.add x.clock millis)

/-- Log an event with the next id and the time. The oldest ones beyond the retention go. -/
def emit (x : Exchange ρ) (now : Int) (payload : Event.Payload) : Exchange ρ :=
  let clock := max x.clock now
  let events := x.events ++ [⟨x.nextEventId, clock, payload⟩]
  { x with
    clock
    events := events.drop (events.length - x.settings.maxEvents)
    nextEventId := x.nextEventId + 1 }

end Exchange
end BondingCurve
