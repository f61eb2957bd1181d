import BondingCurve.Proofs.Exchange.InPlace
import BondingCurve.Proofs.Exchange.Run

/-!
# Failed requests

A request that is answered with an error leaves everything as it was, whichever step failed and
whatever the steps before it had done, in an exchange that is passed on and in one that is kept
in place. Only the log may tell of it (`failure_restores`): the refusal of a conversion that
passed its checks is logged, and takes the oldest event's place where the log is full
(`rejection_drops_event`).
-/

namespace BondingCurve

open Outcome

/-- A request to an exchange, by what it is answered with. -/
inductive Request : Type → Type where
  | init (owner : Account) (connected : Token) : Request Unit
  | connect (smart : Token) (balance : Asset) (weight : Decimal) : Request Unit
  | setCharge (rate : Int) (fixed : Option Asset) (target : Option Token) : Request Unit
  | setOwner (owner : Account) : Request Unit
  | convert (sender : Account) (given wanted : Asset) : Request Receipt

namespace Exchange

variable {ρ α : Type} {x y : Exchange ρ} {now : Int} {signers : Signers}

/-- What a signed request is answered with, and the exchange after it. -/
def perform [Reserve ρ] (x : Exchange ρ) (now : Int) (signers : Signers) :
    Request α → Except Abort (Reply ρ α)
  | .init owner connected => x.init now signers owner connected
  | .connect smart balance weight => x.connect now signers smart balance weight
  | .setCharge rate fixed target => x.setCharge now signers rate fixed target
  | .setOwner owner => x.setOwner now signers owner
  | .convert sender given wanted => x.convert now signers sender given wanted

/-- A conversion whose refusal is worth an event: one of its amounts is positive and the other one
zero, the exchange is configured, and the sender has signed. -/
def Hears (x : Exchange ρ) (signers : Signers) (sender : Account) (given wanted : Asset) : Prop :=
  (0 < given.amount ∧ wanted.amount = 0 ∨ given.amount = 0 ∧ 0 < wanted.amount) ∧
    x.configuration.isFilled = true ∧ sender ∈ signers

instance (signers : Signers) (sender : Account) (given wanted : Asset) :
    Decidable (x.Hears signers sender given wanted) := inferInstanceAs (Decidable (_ ∧ _))

theorem returns_checkRequest_iff_hears {sender : Account} {given wanted : Asset} :
    (x.checkRequest signers sender given wanted).Returns () ↔
      x.Hears signers sender given wanted := by
  rw [returns_checkRequest, Hears]
  refine and_congr ?_ (and_congr_left' ?_)
  · constructor
    · intro h
      obtain ⟨_ | _, hfits⟩ := h
      · exact .inl hfits
      · exact .inr hfits
    · intro h
      rcases h with hmarket | hexact
      · exact ⟨.market, hmarket⟩
      · exact ⟨.exact, hexact⟩
  · exact Option.isSome_iff_exists.symm

/-! ## What a failure leaves -/

/-- All that an exchange holds apart from its log and its clock is the same. -/
structure SameState (x y : Exchange ρ) : Prop where
  settings : y.settings = x.settings
  configuration : y.configuration = x.configuration
  connectors : y.connectors = x.connectors
  charges : y.charges = x.charges
  ledger : y.ledger = x.ledger
  reserve : y.reserve = x.reserve

/-- The log and the clock are the same. -/
structure SameLog (x y : Exchange ρ) : Prop where
  events : y.events = x.events
  nextEventId : y.nextEventId = x.nextEventId
  clock : y.clock = x.clock

/-- The log has one event more, and of those that no longer fit the oldest are gone. -/
structure Logs (x : Exchange ρ) (now : Int) (payload : Event.Payload) (y : Exchange ρ) :
    Prop where
  events : y.events = (x.events ++ [(⟨x.nextEventId, max x.clock now, payload⟩ : Event)]).drop
    (x.events.length + 1 - x.settings.maxEvents)
  nextEventId : y.nextEventId = x.nextEventId + 1
  clock : y.clock = max x.clock now

theorem SameState.refl (x : Exchange ρ) : x.SameState x := ⟨rfl, rfl, rfl, rfl, rfl, rfl⟩

theorem SameLog.refl (x : Exchange ρ) : x.SameLog x := ⟨rfl, rfl, rfl⟩

theorem SameState.emit {payload : Event.Payload} : x.SameState (x.emit now payload) :=
  ⟨rfl, rfl, rfl, rfl, rfl, rfl⟩

theorem logs_emit (x : Exchange ρ) (now : Int) (payload : Event.Payload) :
    x.Logs now payload (x.emit now payload) := by
  refine ⟨?_, rfl, rfl⟩
  unfold emit
  dsimp only
  rw [List.length_append, List.length_singleton]

end Exchange

/-- The event that a refused request is worth. -/
def Request.rejection? {ρ α : Type} (x : Exchange ρ) (signers : Signers) (e : ExchangeError) :
    Request α → Option Event.Payload
  | .convert sender given wanted =>
    if x.Hears signers sender given wanted then
      some (.conversionRejected sender given wanted e.message)
    else none
  | _ => none

/-- The request in place. -/
def Request.inPlace {ρ α : Type} [Reserve ρ] (now : Int) (signers : Signers) :
    Request α → InPlace ρ α
  | .init owner connected => .init now signers owner connected
  | .connect smart balance weight => .connect now signers smart balance weight
  | .setCharge rate fixed target => .setCharge now signers rate fixed target
  | .setOwner owner => .setOwner now signers owner
  | .convert sender given wanted => .convert now signers sender given wanted

namespace Exchange

variable {ρ α : Type} [Reserve ρ] {x y : Exchange ρ} {now : Int} {signers : Signers}
  {e : ExchangeError}

/-- In place a request does what it does otherwise. -/
theorem inPlace_start (r : Request α) :
    (r.inPlace now signers).start x = x.perform now signers r := by
  cases r with
  | init owner connected => exact InPlace.init_start now signers owner connected
  | connect smart balance weight => exact InPlace.connect_start now signers smart balance weight
  | setCharge rate fixed target => exact InPlace.setCharge_start now signers rate fixed target
  | setOwner owner => exact InPlace.setOwner_start now signers owner
  | convert sender given wanted => exact InPlace.convert_start now signers sender given wanted

/-- A request that fails leaves all state as it was, in place too, however far it got. The log is
as it was, but for the refusal of a conversion that passed its checks. -/
theorem failure_restores {r : Request α} (h : x.perform now signers r = .ok ⟨.error e, y⟩) :
    (r.inPlace now signers).start x = .ok ⟨.error e, y⟩ ∧ x.SameState y ∧
      match r.rejection? x signers e with
      | none => x.SameLog y
      | some payload => x.Logs now payload y := by
  refine ⟨(inPlace_start r).trans h, ?_⟩
  cases r with
  | init owner connected =>
    rw [commit_eq_ok_error h]
    exact ⟨.refl x, .refl x⟩
  | connect smart balance weight =>
    rw [commit_eq_ok_error h]
    exact ⟨.refl x, .refl x⟩
  | setCharge rate fixed target =>
    rw [commit_eq_ok_error h]
    exact ⟨.refl x, .refl x⟩
  | setOwner owner =>
    rw [commit_eq_ok_error h]
    exact ⟨.refl x, .refl x⟩
  | convert sender given wanted =>
    rcases convert_eq_error h with ⟨hunheard, rfl⟩ | ⟨hheard, _, rfl⟩
    · have hunheard := hunheard.not_returns (a := ())
      rw [returns_checkRequest_iff_hears] at hunheard
      rw [Request.rejection?, if_neg hunheard]
      exact ⟨.refl _, .refl _⟩
    · rw [returns_checkRequest_iff_hears] at hheard
      rw [Request.rejection?, if_pos hheard]
      exact ⟨.emit, logs_emit x now _⟩

end Exchange

/-- A market whose reserve is a broker's pool. He reports five units less than it pays out. -/
def Sample.brokeredMarket : List (Exchange.Action BrokeredPool) :=
  [.ledger (.createToken connected 1000000), .ledger (.createToken smart 1000000),
    .ledger (.issue owner ⟨20000, connected⟩ ""), .ledger (.issue alice ⟨30000, smart⟩ ""),
    .ledger (.issue Pool.defaultAccount ⟨10000, connected⟩ ""), .init 0 [contract] owner connected,
    .connect 0 [contract] smart ⟨20000, connected⟩ ⟨5, 1, false⟩, .reserve ⟨pool, 5, false⟩]

namespace Exchange

/-- Alice sells to the broker. When his report is found short the connector is written and her
tokens are burned and paid for; all of it is put back. -/
theorem short_report_is_undone :
    ∃ (x y z : Exchange BrokeredPool) (e : ExchangeError),
      (InPlace.conversion Sample.alice ⟨100, Sample.smart⟩ ⟨0, Sample.connected⟩).start x =
        .ok ⟨.error e, z⟩ ∧
      z.ledger.balanceOf Sample.alice Sample.smart = 29900 ∧
      x.perform 0 [Sample.alice] (.convert Sample.alice ⟨100, Sample.smart⟩
        ⟨0, Sample.connected⟩) = .ok ⟨.error e, y⟩ ∧
      y.ledger.balanceOf Sample.alice Sample.smart = 30000 ∧ x.SameState y := by
  have hyields : Abort.Yields ((assemble {} .empty
      (⟨.empty Pool.defaultAccount, 0, false⟩ : BrokeredPool)).trace Sample.brokeredMarket)
      fun r =>
        r.2.ledger.balanceOf Sample.alice Sample.smart = 30000 ∧
        Abort.Yields ((InPlace.conversion Sample.alice ⟨100, Sample.smart⟩
          ⟨0, Sample.connected⟩).start r.2) (fun reply =>
            reply.answer = .error (.reserve (.insufficientUnderlying Sample.smart 195 200)) ∧
              reply.exchange.ledger.balanceOf Sample.alice Sample.smart = 29900) ∧
        Abort.Yields (r.2.perform 0 [Sample.alice] (.convert Sample.alice ⟨100, Sample.smart⟩
          ⟨0, Sample.connected⟩)) fun reply =>
            reply.answer = .error (.reserve (.insufficientUnderlying Sample.smart 195 200)) := by
    decide +kernel
  obtain ⟨⟨_, x⟩, _, hbalance, ⟨⟨_, z⟩, hconversion, rfl, hmoved⟩, ⟨_, y⟩, hconvert, rfl⟩ := hyields
  obtain ⟨_, hstate, _⟩ := failure_restores hconvert
  refine ⟨x, y, z, _, hconversion, hmoved, hconvert, ?_, hstate⟩
  rw [hstate.ledger]
  exact hbalance

/-- An exchange that keeps one event refuses a conversion, and its log is neither as it was nor as
it was with an event more. -/
theorem rejection_drops_event :
    ∃ (x y : Exchange Pool) (e : ExchangeError), x.Reachable ∧
      x.perform 0 [Sample.alice] (.convert Sample.alice ⟨1, Sample.connected⟩
        ⟨0, Sample.smart⟩) = .ok ⟨.error e, y⟩ ∧
      y.events ≠ x.events ∧ ∀ event, y.events ≠ x.events ++ [event] := by
  have hyields : Abort.Yields ((assemble { maxEvents := 1 } .empty
      (Pool.empty Pool.defaultAccount)).trace
        [.init 0 [Sample.contract] Sample.owner Sample.connected]) fun r =>
      r.2.events.length = 1 ∧ Abort.Yields (r.2.perform 0 [Sample.alice]
        (.convert Sample.alice ⟨1, Sample.connected⟩ ⟨0, Sample.smart⟩)) fun reply =>
          reply.answer = .error (.connectorNotFound Sample.smart) ∧
            reply.exchange.events ≠ r.2.events ∧ reply.exchange.events.length = 1 := by
    decide +kernel
  obtain ⟨r, hr, hbefore, ⟨_, y⟩, hconvert, rfl, hne, hafter⟩ := hyields
  refine ⟨r.2, y, _, ⟨_, _, _, Run.start.append_trace (by decide) hr⟩, hconvert, hne, ?_⟩
  intro event hevents
  have hlength := congrArg List.length hevents
  rw [List.length_append, hbefore, hafter] at hlength
  cases hlength

end Exchange
end BondingCurve
