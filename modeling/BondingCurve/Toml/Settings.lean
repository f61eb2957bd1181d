import BondingCurve.Settings
import BondingCurve.Toml.Document

/-!
# Settings as TOML

Settings are read from the keys of a document's own table. Missing ones keep their defaults, and
other keys are ignored.
-/

namespace BondingCurve
namespace Settings

/-- The string under a key, or `default`. -/
def stringAt (t : Toml.Table) (key : String) (default : String) : Option String :=
  match t.find? key with
  | none => some default
  | some (.value (.string s)) => some s
  | some _ => none

/-- The number under a key, or `default`. It has no sign to speak of. -/
def countAt (t : Toml.Table) (key : String) (default : Nat) : Option Nat :=
  match t.find? key with
  | none => some default
  | some (.value (.integer n)) => if 0 ≤ n then some n.toNat else none
  | some _ => none

def ofTable? (t : Toml.Table) : Option Settings := do
  let default : Settings := {}
  let contract ← stringAt t "contract" default.contract.name
  let maxEvents ← countAt t "max_events" default.maxEvents
  let feeMemo ← stringAt t "fee_memo" default.feeMemo
  return { contract := ⟨contract⟩, maxEvents, feeMemo }

/-- The settings that a text gives, if they are valid. -/
def ofToml (s : String) : Except SettingsError Settings := do
  match (Toml.ofText? s).bind ofTable? with
  | none => throw .unreadable
  | some settings =>
    settings.validate
    return settings

end Settings
end BondingCurve
