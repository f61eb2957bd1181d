import BondingCurve.Event
import BondingCurve.Exchange.Plan
import BondingCurve.Json.Form
import BondingCurve.Reserve.Pool

/-!
# JSON forms of the records

Every record that leaves an exchange, and the settings that go into one. Numbers and decimals
are not validated beyond their range: a weight of seven or a rate of five thousand can be read,
but not created.
-/

namespace BondingCurve
namespace JsonForm

/-! ## Accounts, tokens and assets -/

instance : JsonForm Account where
  encode a := encode a.name
  decode j := (decode j).map Account.mk

/-- Precisions have eight bits. -/
def precisionBound : Nat := 256

instance : JsonForm Symbol where
  encode s := .record [("code", encode s.code), ("precision", .int s.precision)]
  decode j := do
    match ← fields ["code", "precision"] j with
    | [code, precision] => return ⟨← field code, ← precision >>= decodeNat precisionBound⟩
    | _ => none

instance : JsonForm Token where
  encode t := .record [("symbol", encode t.symbol), ("contract", encode t.contract)]
  decode j := do
    match ← fields ["symbol", "contract"] j with
    | [symbol, contract] => return ⟨← field symbol, ← field contract⟩
    | _ => none

instance : JsonForm Asset where
  encode a := .record [("amount", encode a.amount), ("symbol", encode a.token)]
  decode j := do
    match ← fields ["amount", "symbol"] j with
    | [amount, token] => return ⟨← field amount, ← field token⟩
    | _ => none

/-! ## Fees -/

/-- Rates have sixteen bits. -/
def rateBound : Nat := 65536

instance : JsonForm PerMille where
  encode r := .int r.value
  decode j := (decodeNat rateBound j).map PerMille.mk

instance : JsonForm FeePolicy where
  encode p := .record [("rate", encode p.rate), ("fixed_fee", encode p.fixed)]
  decode j := do
    match ← fields ["rate", "fixed_fee"] j with
    | [rate, fixed] => return ⟨← field rate, ← field fixed⟩
    | _ => none

instance : JsonForm ChargeMode where
  encode
    | .nonRequired => .text "NonRequired"
    | .required => .text "Required"
  decode := decodeName fun
    | "NonRequired" => some .nonRequired
    | "Required" => some .required
    | _ => none

instance : JsonForm Charge where
  encode c := .record [("gross", encode c.gross), ("fee", encode c.fee), ("net", encode c.net)]
  decode j := do
    match ← fields ["gross", "fee", "net"] j with
    | [gross, fee, net] => return ⟨← field gross, ← field fee, ← field net⟩
    | _ => none

/-! ## Curve and connectors -/

instance : JsonForm Conversion where
  encode c := .record
    [("amount", encode c.amount), ("theoretical", encode c.theoretical), ("ratio", encode c.ratio)]
  decode j := do
    match ← fields ["amount", "theoretical", "ratio"] j with
    | [amount, theoretical, ratio] =>
      return ⟨← field amount, ← field theoretical, ← field ratio⟩
    | _ => none

instance : JsonForm Direction where
  encode
    | .buy => .text "BuySmart"
    | .sell => .text "SellSmart"
  decode := decodeName fun
    | "BuySmart" => some .buy
    | "SellSmart" => some .sell
    | _ => none

instance : JsonForm Mode where
  encode
    | .market => .text "Market"
    | .exact => .text "ExactOutput"
  decode := decodeName fun
    | "Market" => some .market
    | "ExactOutput" => some .exact
    | _ => none

instance : JsonForm Weight where
  encode w := encode w.value
  decode j := (decode j).map Weight.mk

instance : JsonForm Connector where
  encode c := .record
    [("smart", encode c.smart), ("balance", encode c.balance), ("weight", encode c.weight)]
  decode j := do
    match ← fields ["smart", "balance", "weight"] j with
    | [smart, balance, weight] => return ⟨← field smart, ← field balance, ← field weight⟩
    | _ => none

instance : JsonForm ReserveRecord where
  encode r := .record
    [("derivative", encode r.derivative), ("underlying", encode r.underlying),
      ("rate", encode r.rate)]
  decode j := do
    match ← fields ["derivative", "underlying", "rate"] j with
    | [derivative, underlying, rate] =>
      return ⟨← field derivative, ← field underlying, ← field rate⟩
    | _ => none

/-! ## Settings and configuration -/

/-- Counts have sixty-four bits. -/
def countBound : Nat := Decimal.powTwo 64

instance : JsonForm Settings where
  encode s := .record
    [("contract", encode s.contract), ("max_events", .int s.maxEvents),
      ("fee_memo", encode s.feeMemo)]
  decode j := do
    let default : Settings := {}
    match ← optionalFields ["contract", "max_events", "fee_memo"] j with
    | [contract, maxEvents, feeMemo] =>
      let maxEvents ← match maxEvents with
        | some j => decodeNat countBound j
        | none => some default.maxEvents
      return ⟨← fieldOr default.contract contract, maxEvents, ← fieldOr default.feeMemo feeMemo⟩
    | _ => none

instance : JsonForm Configuration where
  encode c := .record
    [("connected", encode c.connected), ("fee_rate", encode c.feeRate),
      ("fixed_fee", encode c.fixedFee), ("owner", encode c.owner)]
  decode j := do
    match ← fields ["connected", "fee_rate", "fixed_fee", "owner"] j with
    | [connected, feeRate, fixedFee, owner] =>
      return ⟨← field connected, ← field feeRate, ← field fixedFee, ← field owner⟩
    | _ => none

instance {α : Type} [JsonForm α] : JsonForm (Slot α) where
  encode s := .record [("value", encode s.value)]
  decode j := do
    match ← fields ["value"] j with
    | [value] => return ⟨← field value⟩
    | _ => none

/-! ## The ledger -/

instance : JsonForm Registration where
  encode r := .record
    [("symbol", encode r.token), ("supply", encode r.supply), ("max_supply", encode r.maxSupply)]
  decode j := do
    match ← fields ["symbol", "supply", "max_supply"] j with
    | [token, supply, maxSupply] => return ⟨← field token, ← field supply, ← field maxSupply⟩
    | _ => none

/-- How many arrays and objects may be open at once in a journal entry. -/
def entryDepth : Nat := 127

/-- A journal entry is read as a whole before its kind is known, so all of it must denote
something, and its nesting is bounded. -/
def isReadable (j : Json) : Bool :=
  j.depth ≤ entryDepth && j.all Option.isSome Json.Number.isRepresentable

/-- The journal entry of a kind, from its other members or items. -/
def entryOfKind (kind : String) (rest : Json) : Option Ledger.Entry := do
  match kind with
  | "transfer" =>
    match ← fields ["from", "to", "value", "memo"] rest with
    | [sender, receiver, value, memo] =>
      return .transfer (← field sender) (← field receiver) (← field value) (← field memo)
    | _ => none
  | "issue" =>
    match ← fields ["to", "value", "memo"] rest with
    | [receiver, value, memo] => return .issue (← field receiver) (← field value) (← field memo)
    | _ => none
  | "retire" =>
    match ← fields ["from", "value", "memo"] rest with
    | [sender, value, memo] => return .retire (← field sender) (← field value) (← field memo)
    | _ => none
  | _ => none

instance : JsonForm Ledger.Entry where
  encode
    | .transfer sender receiver value memo => .record
      [("type", .text "transfer"), ("from", encode sender), ("to", encode receiver),
        ("value", encode value), ("memo", encode memo)]
    | .issue receiver value memo => .record
      [("type", .text "issue"), ("to", encode receiver), ("value", encode value),
        ("memo", encode memo)]
    | .retire sender value memo => .record
      [("type", .text "retire"), ("from", encode sender), ("value", encode value),
        ("memo", encode memo)]
  decode j :=
    if isReadable j then
      match j with
      | .object members =>
        match valuesOf "type" members with
        | [.string (some kind)] =>
          entryOfKind kind (.object (members.filter fun m => m.1 ≠ some "type"))
        | _ => none
      | .array (.string (some kind) :: items) => entryOfKind kind (.array items)
      | _ => none
    else none

/-! ## Plans -/

instance : JsonForm Plan where
  encode p := .record
    [("direction", encode p.direction), ("mode", encode p.mode), ("smart", encode p.smart),
      ("pay", encode p.pay), ("refund", encode p.refund), ("fee", encode p.fee),
      ("receive", encode p.receive), ("balance_delta", encode p.balanceDelta),
      ("curve", encode p.curve), ("ratio", encode p.ratio),
      ("override_applied", encode p.overrideApplied)]
  decode j := do
    match ← fields ["direction", "mode", "smart", "pay", "refund", "fee", "receive",
      "balance_delta", "curve", "ratio", "override_applied"] j with
    | [direction, mode, smart, pay, refund, fee, receive, balanceDelta, curve, ratio,
        overrideApplied] =>
      return {
        direction := ← field direction, mode := ← field mode, smart := ← field smart
        pay := ← field pay, refund := ← field refund, fee := ← field fee
        receive := ← field receive, balanceDelta := ← field balanceDelta
        curve := ← field curve, ratio := ← field ratio
        overrideApplied := ← field overrideApplied }
    | _ => none

instance : JsonForm Receipt where
  encode r := .record [("plan", encode r.plan), ("balance_after", encode r.balanceAfter)]
  decode j := do
    match ← fields ["plan", "balance_after"] j with
    | [plan, balanceAfter] => return ⟨← field plan, ← field balanceAfter⟩
    | _ => none

/-! ## Events -/

instance : JsonForm ConversionRecord where
  encode r := .record
    [("sender", encode r.sender), ("smart", encode r.smart), ("direction", encode r.direction),
      ("mode", encode r.mode), ("paid", encode r.paid), ("received", encode r.received),
      ("fee", encode r.fee), ("ratio", encode r.ratio),
      ("override_applied", encode r.overrideApplied), ("balance_after", encode r.balanceAfter)]
  decode j := do
    match ← fields ["sender", "smart", "direction", "mode", "paid", "received", "fee", "ratio",
      "override_applied", "balance_after"] j with
    | [sender, smart, direction, mode, paid, received, fee, ratio, overrideApplied,
        balanceAfter] =>
      return {
        sender := ← field sender, smart := ← field smart, direction := ← field direction
        mode := ← field mode, paid := ← field paid, received := ← field received
        fee := ← field fee, ratio := ← field ratio
        overrideApplied := ← field overrideApplied, balanceAfter := ← field balanceAfter }
    | _ => none

/-- The payload of a kind, from its record. -/
def payloadOfKind (kind : String) (j : Json) : Option Event.Payload := do
  match kind with
  | "Initialized" =>
    match ← fields ["owner", "connected"] j with
    | [owner, connected] => return .initialized (← field owner) (← field connected)
    | _ => none
  | "Connected" => return .connected (← decode j)
  | "ChargeUpdated" =>
    match ← fields ["target", "policy"] j with
    | [target, policy] => return .chargeUpdated (← field target) (← field policy)
    | _ => none
  | "ChargeRemoved" =>
    match ← fields ["smart"] j with
    | [smart] => return .chargeRemoved (← field smart)
    | _ => none
  | "OwnerChanged" =>
    match ← fields ["previous", "owner"] j with
    | [previous, owner] => return .ownerChanged (← field previous) (← field owner)
    | _ => none
  | "Converted" => return .converted (← decode j)
  | "ConversionRejected" =>
    match ← fields ["sender", "from", "to", "reason"] j with
    | [sender, given, wanted, reason] =>
      return .conversionRejected (← field sender) (← field given) (← field wanted) (← field reason)
    | _ => none
  | _ => none

/-- An object with the kind of the payload as its only member. -/
instance : JsonForm Event.Payload where
  encode
    | .initialized owner connected => .record
      [("Initialized", .record [("owner", encode owner), ("connected", encode connected)])]
    | .connected connector => .record [("Connected", encode connector)]
    | .chargeUpdated target policy => .record
      [("ChargeUpdated", .record [("target", encode target), ("policy", encode policy)])]
    | .chargeRemoved smart => .record [("ChargeRemoved", .record [("smart", encode smart)])]
    | .ownerChanged previous owner => .record
      [("OwnerChanged", .record [("previous", encode previous), ("owner", encode owner)])]
    | .converted record => .record [("Converted", encode record)]
    | .conversionRejected sender given wanted reason => .record
      [("ConversionRejected", .record
        [("sender", encode sender), ("from", encode given), ("to", encode wanted),
          ("reason", encode reason)])]
  decode
    | .object [(some kind, j)] => payloadOfKind kind j
    | _ => none

/-- Event ids have sixty-four bits. -/
instance : JsonForm Event where
  encode e := .record
    [("id", .int e.id), ("timestamp", .int e.timestamp), ("payload", encode e.payload)]
  decode j := do
    match ← fields ["id", "timestamp", "payload"] j with
    | [id, timestamp, payload] =>
      return ⟨← id >>= decodeNat countBound, ← field timestamp, ← field payload⟩
    | _ => none

end JsonForm
end BondingCurve
