import BondingCurve.Exchange.Administration
import BondingCurve.Proofs.Exchange.Settlement

/-!
# What the administration changes

`init`, `setOwner` and `setCharge` leave the books of an exchange alone, that is its connectors,
its ledger and its reserve; the connected token, once there is one, never changes. `connect` adds
a connector that the owner pays for (`returns_connectChange`).
-/

namespace BondingCurve

open Outcome

namespace Exchange

variable {ρ : Type} {x y : Exchange ρ} {signers : Signers} {now : Int} {payload : Event.Payload}

/-- The connected token, once there is one. -/
def connected? (x : Exchange ρ) : Option Token := x.configuration.get?.map (·.connected)

/-- An exchange that was set up has a connected token. -/
theorem connected?_of_configuration {conf : Configuration}
    (h : x.configuration.get? = some conf) : x.connected? = some conf.connected := by
  rw [connected?, h]
  rfl

/-- A committed change is applied and logged; a failed one leaves everything as it was. -/
theorem commit_eq_ok {change : Outcome ExchangeError (Change ρ)} {reply : Reply ρ Unit}
    (h : x.commit now change = .ok reply) :
    reply.exchange = x ∨ ∃ y payload, change.Returns (y, payload) ∧
      reply.exchange = y.emit now payload := by
  obtain ⟨result, hresult, h⟩ := Abort.bind_eq_ok.1 h
  rcases result with e | ⟨y, payload⟩
  · rw [Abort.pure_eq_ok] at h
    subst h
    exact .inl rfl
  · rw [Abort.pure_eq_ok] at h
    subst h
    exact .inr ⟨y, payload, hresult, rfl⟩

/-- A change that fails is not there. -/
theorem commit_eq_ok_error {change : Outcome ExchangeError (Change ρ)} {e : ExchangeError}
    (h : x.commit now change = .ok ⟨.error e, y⟩) : y = x := by
  obtain ⟨e' | ⟨z, payload⟩, _, h⟩ := Abort.bind_eq_ok.1 h
  · cases h
    rfl
  · cases h

/-- A request that goes through is a committed change. -/
theorem commit_eq_ok_ok {change : Outcome ExchangeError (Change ρ)} :
    x.commit now change = .ok ⟨.ok (), y⟩ ↔
      ∃ z payload, change.Returns (z, payload) ∧ y = z.emit now payload := by
  unfold commit
  rw [Abort.bind_eq_ok]
  constructor
  · intro h
    obtain ⟨e | ⟨z, payload⟩, hresult, h⟩ := h
    · cases h
    · cases h
      exact ⟨z, payload, hresult, rfl⟩
  · intro h
    obtain ⟨z, payload, hresult, rfl⟩ := h
    exact ⟨.ok (z, payload), hresult, rfl⟩

/-! ## Books -/

/-- One exchange has the books of another, and a connected token if that one has, the same. -/
structure SameBooks (x y : Exchange ρ) : Prop where
  settings : y.settings = x.settings
  connectors : y.connectors = x.connectors
  ledger : y.ledger = x.ledger
  reserve : y.reserve = x.reserve
  connected : ∀ {t}, x.connected? = some t → y.connected? = some t

theorem SameBooks.refl (x : Exchange ρ) : x.SameBooks x := ⟨rfl, rfl, rfl, rfl, id⟩

/-- An event is not in the books. -/
theorem SameBooks.emit (h : x.SameBooks y) : x.SameBooks (y.emit now payload) :=
  ⟨h.settings, h.connectors, h.ledger, h.reserve, h.connected⟩

/-- A change of the configuration only, which keeps a connected token. -/
theorem sameBooks_configure {conf : Configuration}
    (h : ∀ t, x.connected? = some t → t = conf.connected) :
    x.SameBooks { x with configuration := x.configuration.set conf } := by
  refine ⟨rfl, rfl, rfl, rfl, ?_⟩
  intro t ht
  rw [h t ht]
  rfl

/-- A change of a configured exchange that keeps the connected token. -/
theorem sameBooks_reconfigure {old conf : Configuration} (hold : x.configuration.get? = some old)
    (h : conf.connected = old.connected) :
    x.SameBooks { x with configuration := x.configuration.set conf } := by
  apply sameBooks_configure
  intro t ht
  rw [connected?_of_configuration hold] at ht
  rw [h]
  exact (Option.some.inj ht).symm

/-- A first configuration names a connected token where there was none. -/
theorem sameBooks_initChange {owner : Account} {connected : Token}
    (h : (x.initChange signers owner connected).Returns (y, payload)) : x.SameBooks y := by
  simp only [initChange, returns_bind, returns_ite, not_returns_throw, false_and, exists_false,
    and_false, false_or, returns_pure, Prod.mk.injEq] at h
  obtain ⟨_, _, hempty, _, _, rfl, _⟩ := h
  apply sameBooks_configure
  intro t ht
  have hnone : x.configuration.get? = none := by
    simpa [Slot.isFilled, Slot.get?] using hempty
  rw [connected?, hnone] at ht
  cases ht

/-- Another owner is connected to the same token. -/
theorem sameBooks_setOwnerChange {owner : Account}
    (h : (x.setOwnerChange signers owner).Returns (y, payload)) : x.SameBooks y := by
  simp only [setOwnerChange, returns_bind, returns_requireConfiguration, returns_pure,
    Prod.mk.injEq] at h
  obtain ⟨_, _, conf, hconf, rfl, _⟩ := h
  exact sameBooks_reconfigure hconf rfl

/-- A policy is not in the books. -/
theorem sameBooks_setPolicy {rate : Int} {fixed : Option Asset} {smart : Token}
    (h : (x.setPolicy rate fixed smart).Returns (y, payload)) : x.SameBooks y := by
  simp only [setPolicy, returns_bind, returns_ite, not_returns_throw, and_false, or_false,
    returns_pure, Prod.mk.injEq] at h
  -- the policy of one token is no part of the books, removed or written
  rcases h with ⟨_, _, rfl, _⟩ | ⟨_, _, _, rfl, _⟩
  · exact ⟨rfl, rfl, rfl, rfl, id⟩
  · exact ⟨rfl, rfl, rfl, rfl, id⟩

theorem sameBooks_setDefaultPolicy {conf : Configuration} {rate : Int} {fixed : Option Asset}
    (hconf : x.configuration.get? = some conf)
    (h : (x.setDefaultPolicy conf rate fixed).Returns (y, payload)) : x.SameBooks y := by
  simp only [setDefaultPolicy, returns_bind, returns_pure, Prod.mk.injEq] at h
  obtain ⟨_, _, rfl, _⟩ := h
  exact sameBooks_reconfigure hconf rfl

/-- The connected token passes, and no other. -/
theorem returns_requireConnected {conf : Configuration} {t : Token} {u : Unit} :
    (requireConnected conf t).Returns u ↔ t = conf.connected := by
  unfold requireConnected Configuration.isConnected
  by_cases h : conf.connected = t
  · simp [h]
  · simp [h, Ne.symm h]

/-- A fee is set by the contract, on an exchange that has a configuration, with a fixed part of
the connected token if it has one. -/
theorem returns_setChargeChange {rate : Int} {fixed : Option Asset} {target : Option Token}
    {change : Change ρ} :
    (x.setChargeChange signers rate fixed target).Returns change ↔
      x.contract ∈ signers ∧ ∃ conf, x.configuration.get? = some conf ∧
        (∀ a, fixed = some a → a.token = conf.connected) ∧
        (target.elim (x.setDefaultPolicy conf rate fixed) (x.setPolicy rate fixed)).Returns
          change := by
  unfold setChargeChange
  cases fixed <;> cases target <;>
    simp [returns_requireConfiguration, returns_requireConnected]

/-- No change of a fee is in the books. -/
theorem sameBooks_setChargeChange {rate : Int} {fixed : Option Asset} {target : Option Token}
    (h : (x.setChargeChange signers rate fixed target).Returns (y, payload)) : x.SameBooks y := by
  obtain ⟨-, conf, hconf, -, hset⟩ := returns_setChargeChange.1 h
  cases target with
  | none => exact sameBooks_setDefaultPolicy hconf hset
  | some smart => exact sameBooks_setPolicy hset

/-! ## Connecting -/

/-- A valid token passes. -/
theorem returns_requireValid {t : Token} {u : Unit} :
    (requireValid t).Returns u ↔ t.IsValid := by
  unfold requireValid
  by_cases h : t.IsValid
  · simp [h]
  · simp [h]

/-- What `connect` needs of an exchange, and the ledger after the deposit. -/
structure Connects (x : Exchange ρ) (smart : Token) (balance : Asset) (weight : Decimal)
    (conf : Configuration) (l : Ledger) : Prop where
  configuration : x.configuration.get? = some conf
  balance_token : balance.token = conf.connected
  smart_ne : smart ≠ conf.connected
  balance_pos : 0 < balance.amount
  weight_valid : Weight.IsValid weight
  new : x.connectors.find? smart.key = none
  deposits : (x.ledger.transfer conf.owner x.contract balance connectMemo).Returns l

/-- The exchange with a connector for `smart`, and with another ledger. -/
def opened (x : Exchange ρ) (smart : Token) (balance : Asset) (weight : Decimal) (l : Ledger) :
    Exchange ρ :=
  { x with
    connectors := x.connectors.insert smart.key ⟨smart, balance, ⟨weight⟩⟩
    ledger := l }

/-- A connector is added under its conditions, behind the owner's deposit. -/
theorem returns_connectChange {smart : Token} {balance : Asset} {weight : Decimal}
    (h : (x.connectChange signers smart balance weight).Returns (y, payload)) :
    ∃ conf l, x.Connects smart balance weight conf l ∧ y = x.opened smart balance weight l := by
  simp only [connectChange, returns_bind, returns_requireConfiguration, returns_require,
    returns_requireConnected, returns_ite, not_returns_throw, false_and, exists_false, and_false,
    false_or, Configuration.isConnected, beq_iff_eq, Bool.not_eq_true', Bool.not_eq_false,
    Asset.isPositive_iff] at h
  obtain ⟨_, _, conf, hconf, _, _, _, htoken, hsmart, hpos, h⟩ := h
  unfold Weight.ofDecimal? at h
  by_cases hweight : Weight.IsValid weight
  · simp only [hweight, if_true, returns_ite, returns_bind, not_returns_throw, false_and,
      exists_false, and_false, false_or, returns_liftLedger, returns_pure, Prod.mk.injEq] at h
    obtain ⟨hnew, l, hl, rfl, _⟩ := h
    have hnone : x.connectors.find? smart.key = none := by
      simpa [Table.contains] using hnew
    exact ⟨conf, l, ⟨hconf, htoken, fun heq => hsmart heq.symm, hpos, hweight, hnone, hl⟩, rfl⟩
  · simp [hweight] at h

/-- What is connected is a valid token. -/
theorem isValid_of_connectChange {smart : Token} {balance : Asset} {weight : Decimal}
    (h : (x.connectChange signers smart balance weight).Returns (y, payload)) : smart.IsValid := by
  obtain ⟨_, -, h⟩ := returns_bind.1 h
  obtain ⟨conf, -, h⟩ := returns_bind.1 h
  obtain ⟨_, hvalid, -⟩ := returns_bind.1 h
  exact returns_requireValid.1 hvalid

end Exchange
end BondingCurve
