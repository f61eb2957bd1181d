import BondingCurve.Token
import BondingCurve.Fee

/-!
# Settings and configuration

`Settings` are fixed before an exchange runs: the account it acts as, how many events it keeps,
and the memo of its fee payments. `Configuration` belongs to a running exchange: it is created
once, and its owner and its default fee change later.
-/

namespace BondingCurve

/-! ## Settings -/

/-- What is fixed before an exchange runs. The defaults are a valid choice. -/
structure Settings where
  contract : Account := ⟨"gxc.bancor"⟩
  maxEvents : Nat := 100000
  feeMemo : String := "conversion fee"
deriving DecidableEq, Repr

/-- Why settings cannot be used. -/
inductive SettingsError where
  | emptyContract
  | noRetention
  /-- The text of the settings cannot be read. -/
  | unreadable
deriving DecidableEq, Repr

/-- The text of an error in the settings. -/
def SettingsError.message : SettingsError → String
  | emptyContract => "Invalid contract: contract account must not be empty"
  | noRetention => "Invalid event retention: must retain at least one event"
  | unreadable => "Failed to parse config"

/-- Settings name an account and keep at least one event. The account is looked at first. -/
def Settings.validate (s : Settings) : Except SettingsError Unit :=
  if s.contract.name = "" then .error .emptyContract
  else if s.maxEvents = 0 then .error .noRetention
  else .ok ()

/-! ## Configuration -/

/-- What an exchange is set up with: its connected token, its owner and the default fee. -/
structure Configuration where
  connected : Token
  feeRate : PerMille
  fixedFee : Amount
  /-- Who receives the fees and pays for new connectors. -/
  owner : Account
deriving DecidableEq, Repr

namespace Configuration

/-- A configuration without fees. -/
def new (owner : Account) (connected : Token) : Configuration := ⟨connected, .zero, 0, owner⟩

/-- The policy of a token that has none of its own. -/
def defaultPolicy (c : Configuration) : FeePolicy := ⟨c.feeRate, c.fixedFee⟩

/-- Whether `t` is the connected token, its precision and issuer included. -/
def isConnected (c : Configuration) (t : Token) : Bool := c.connected == t

end Configuration

/-! ## Slots -/

/-- A place for one value, empty at first. -/
structure Slot (α : Type) where
  value : Option α
deriving DecidableEq, Repr

namespace Slot

variable {α : Type}

/-- A slot that nothing was put into yet. -/
def empty : Slot α := ⟨none⟩

/-- Whether something is in the slot. -/
def isFilled (s : Slot α) : Bool := s.value.isSome

/-- What is in the slot. -/
def get? (s : Slot α) : Option α := s.value

/-- The slot with `v` in it. What was there is replaced. -/
def set (_ : Slot α) (v : α) : Slot α := ⟨some v⟩

end Slot

end BondingCurve
