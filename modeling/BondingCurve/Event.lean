import BondingCurve.Connector
import BondingCurve.Settings

/-!
# Events

What an exchange tells about itself: every change of its state and every conversion it had to
refuse. The payload of an event holds all that the change was, so the state can be computed from
the events.
-/

namespace BondingCurve

/-- A conversion as the event log shows it. -/
structure ConversionRecord where
  sender : Account
  smart : Token
  direction : Direction
  mode : Mode
  paid : Asset
  received : Asset
  fee : Asset
  ratio : Decimal
  overrideApplied : Bool
  /-- The connector's balance behind the conversion. -/
  balanceAfter : Asset
deriving DecidableEq, Repr

/-- What has changed, or which conversion was refused and why. -/
inductive Event.Payload where
  | initialized (owner : Account) (connected : Token)
  | connected (connector : Connector)
  /-- A new default policy, or the policy of one token. -/
  | chargeUpdated (target : Option Token) (policy : FeePolicy)
  | chargeRemoved (smart : Token)
  | ownerChanged (previous owner : Account)
  | converted (record : ConversionRecord)
  | conversionRejected (sender : Account) (given wanted : Asset) (reason : String)
deriving DecidableEq, Repr

/-- An entry of the log. Its id counts all events, also those that are no longer kept. -/
structure Event where
  id : Nat
  /-- In milliseconds. -/
  timestamp : Int
  payload : Event.Payload
deriving DecidableEq, Repr

end BondingCurve
