import BondingCurve.Proofs.Exchange.Rollback

/-!
# The event log tells the state

An event holds all that a change was. `Tables.replay` rebuilds the configuration, the policies of
tokens and the connectors from nothing but payloads, and never looks at an exchange. What a run
announces, `announced`, is read off the answers to its requests. The two meet in `Chronicle`, which
every action keeps: the tables of an exchange are the replay of all that was announced so far, and
its log has the latest of it. While nothing has been dropped from the log, the log alone is enough
(`replay_events`).
-/

namespace BondingCurve

open Outcome

/-- What the event log tells of an exchange. -/
structure Tables where
  configuration : Slot Configuration
  /-- The policies of single tokens. -/
  charges : Table TokenKey FeePolicy
  connectors : Table TokenKey Connector
deriving DecidableEq

namespace Tables

def empty : Tables := ⟨.empty, .empty, .empty⟩

/-- Another configuration where there is one. -/
def reconfigure (s : Tables) (f : Configuration → Configuration) : Tables :=
  { s with configuration := ⟨s.configuration.get?.map f⟩ }

/-- The tables after what a payload tells. -/
def apply (s : Tables) : Event.Payload → Tables
  | .initialized owner connected =>
    { s with configuration := s.configuration.set (.new owner connected) }
  | .ownerChanged _ owner => s.reconfigure fun c => { c with owner }
  | .chargeUpdated none policy =>
    s.reconfigure fun c => { c with feeRate := policy.rate, fixedFee := policy.fixed }
  | .chargeUpdated (some smart) policy =>
    { s with charges := s.charges.insert smart.key policy }
  | .chargeRemoved smart => { s with charges := s.charges.erase smart.key }
  | .connected c => { s with connectors := s.connectors.insert c.smart.key c }
  | .converted r =>
    match s.connectors.find? r.smart.key with
    | some c =>
      { s with connectors := s.connectors.insert r.smart.key { c with balance := r.balanceAfter } }
    | none => s
  | .conversionRejected .. => s

/-- The tables that payloads tell of, the oldest one first. -/
def replay (payloads : List Event.Payload) : Tables := payloads.foldl apply empty

theorem replay_append (payloads : List Event.Payload) (payload : Event.Payload) :
    replay (payloads ++ [payload]) = (replay payloads).apply payload := by
  rw [replay, List.foldl_append]
  rfl

/-- A configuration that is there is replaced. -/
theorem reconfigure_of_get? {s : Tables} {c : Configuration} {f : Configuration → Configuration}
    (h : s.configuration.get? = some c) :
    s.reconfigure f = { s with configuration := s.configuration.set (f c) } := by
  rw [reconfigure, h]
  rfl

/-- A connector that is there has another balance. -/
theorem apply_converted {s : Tables} {r : ConversionRecord} {c : Connector}
    (h : s.connectors.find? r.smart.key = some c) :
    s.apply (.converted r) =
      { s with
        connectors := s.connectors.insert r.smart.key { c with balance := r.balanceAfter } } := by
  rw [apply, h]

end Tables

namespace Exchange

variable {ρ : Type} {x y z : Exchange ρ} {now : Int} {signers : Signers} {payload : Event.Payload}
  {payloads : List Event.Payload}

def tables (x : Exchange ρ) : Tables := ⟨x.configuration, x.charges, x.connectors⟩

/-! ## Changes and their payloads -/

/-- The tables of `z` are those of `x` after what `payload` tells, and nothing is logged yet. -/
structure Tells (x z : Exchange ρ) (payload : Event.Payload) : Prop where
  tables : z.tables = x.tables.apply payload
  settings : z.settings = x.settings
  events : z.events = x.events
  nextEventId : z.nextEventId = x.nextEventId

theorem tells_initChange {owner : Account} {connected : Token}
    (h : (x.initChange signers owner connected).Returns (z, payload)) : x.Tells z payload := by
  simp only [initChange, returns_bind, returns_ite, not_returns_throw, false_and, exists_false,
    and_false, false_or, returns_pure, Prod.mk.injEq] at h
  obtain ⟨_, _, _, _, _, rfl, rfl⟩ := h
  exact ⟨rfl, rfl, rfl, rfl⟩

/-- Another configuration in the place of `conf`. -/
theorem tells_reconfigure {conf : Configuration} (f : Configuration → Configuration)
    (hconf : x.configuration.get? = some conf)
    (hpayload : ∀ s : Tables, s.apply payload = s.reconfigure f) :
    x.Tells { x with configuration := x.configuration.set (f conf) } payload := by
  refine ⟨?_, rfl, rfl, rfl⟩
  have htables : x.tables.configuration.get? = some conf := hconf
  rw [hpayload, Tables.reconfigure_of_get? htables]
  rfl

theorem tells_setOwnerChange {owner : Account}
    (h : (x.setOwnerChange signers owner).Returns (z, payload)) : x.Tells z payload := by
  simp only [setOwnerChange, returns_bind, returns_requireConfiguration, returns_pure,
    Prod.mk.injEq] at h
  obtain ⟨_, _, conf, hconf, rfl, rfl⟩ := h
  exact tells_reconfigure (fun c => { c with owner }) hconf fun _ => rfl

theorem tells_setDefaultPolicy {conf : Configuration} {rate : Int} {fixed : Option Asset}
    (hconf : x.configuration.get? = some conf)
    (h : (x.setDefaultPolicy conf rate fixed).Returns (z, payload)) : x.Tells z payload := by
  simp only [setDefaultPolicy, returns_bind, returns_pure, Prod.mk.injEq] at h
  obtain ⟨feeRate, _, rfl, rfl⟩ := h
  -- without a fixed fee in the request the payload has the one from before
  exact tells_reconfigure
    (fun c => { c with feeRate, fixedFee := (fixed.map (·.amount)).getD conf.fixedFee }) hconf
    fun _ => rfl

theorem tells_setPolicy {rate : Int} {fixed : Option Asset} {smart : Token}
    (h : (x.setPolicy rate fixed smart).Returns (z, payload)) : x.Tells z payload := by
  simp only [setPolicy, returns_bind, returns_ite, not_returns_throw, and_false, or_false,
    returns_pure, Prod.mk.injEq] at h
  -- a policy is removed, or written with the fixed part that it has now
  rcases h with ⟨_, _, rfl, rfl⟩ | ⟨_, _, _, rfl, rfl⟩
  · exact ⟨rfl, rfl, rfl, rfl⟩
  · exact ⟨rfl, rfl, rfl, rfl⟩

theorem tells_setChargeChange {rate : Int} {fixed : Option Asset} {target : Option Token}
    (h : (x.setChargeChange signers rate fixed target).Returns (z, payload)) :
    x.Tells z payload := by
  obtain ⟨-, conf, hconf, -, hset⟩ := returns_setChargeChange.1 h
  cases target with
  | none => exact tells_setDefaultPolicy hconf hset
  | some smart => exact tells_setPolicy hset

theorem tells_connectChange {smart : Token} {balance : Asset} {weight : Decimal}
    (h : (x.connectChange signers smart balance weight).Returns (z, payload)) :
    x.Tells z payload := by
  simp only [connectChange, returns_bind, returns_ite, not_returns_throw, false_and, exists_false,
    and_false, false_or] at h
  obtain ⟨_, _, conf, _, _, _, _, _, _, _, h⟩ := h
  rcases hweight : Weight.ofDecimal? weight with _ | w
  · simp [hweight] at h
  · simp only [hweight, returns_ite, returns_bind, not_returns_throw, false_and, exists_false,
      and_false, false_or, returns_liftLedger, returns_pure, Prod.mk.injEq] at h
    obtain ⟨_, l, _, rfl, rfl⟩ := h
    exact ⟨rfl, rfl, rfl, rfl⟩

/-! ## Conversions -/

section Reserve

variable [Reserve ρ] {given wanted : Asset} {p : Plan} {c : Connector} {sender : Account}
  {receipt : Receipt}

/-- A plan names the smart token of its connector, under which the connector stands. -/
theorem connector_of_plan (h : (x.plan given wanted).Returns (p, c)) :
    p.smart = c.smart ∧ x.connector? c.smart = some c := by
  obtain ⟨direction, mode, reg, _, hroute, _, hp⟩ := returns_planBy h
  obtain ⟨_, hroutes⟩ := returns_route hroute
  refine ⟨?_, hroutes.connector⟩
  cases direction <;> cases mode
  · obtain ⟨_, _, _, _, _, _, _, _, _, _, _, _, rfl⟩ := returns_planBuy hp
    rfl
  · obtain ⟨_, _, _, _, _, _, rfl⟩ := returns_planBuyExact hp
    rfl
  · obtain ⟨_, _, _, _, _, _, _, _, _, rfl⟩ := returns_planSell hp
    rfl
  · obtain ⟨_, _, _, _, _, _, _, rfl⟩ := returns_planSellExact hp
    rfl

/-- A settlement writes the connector with its balance moved, and answers with that balance. -/
theorem settled_of_returns {b : Asset} (h : (x.settle sender c p).Returns (y, b)) :
    ∃ l r, y = x.settled c p.balanceDelta l r ∧ b = (c.moved p.balanceDelta).balance := by
  cases hd : p.direction with
  | buy =>
    obtain ⟨_, _, _, final, _, hy, hb⟩ := (returns_settle_buy hd).1 h
    exact ⟨final, x.reserve, hy, hb⟩
  | sell =>
    obtain ⟨_, _, _, _, final, r, _, hy, hb⟩ := (returns_settle_sell hd).1 h
    exact ⟨final, r, hy, hb⟩

theorem Converts.tells (h : x.Converts signers sender given wanted receipt c z) :
    x.Tells z (.converted (receipt.record sender)) := by
  obtain ⟨hsmart, hc⟩ := connector_of_plan h.plans
  obtain ⟨l, r, rfl, hb⟩ := settled_of_returns h.settles
  have hkey : (receipt.record sender).smart.key = c.smart.key := congrArg Token.key hsmart
  have hbalance : (receipt.record sender).balanceAfter =
      (c.moved receipt.plan.balanceDelta).balance := hb
  have hfind : x.tables.connectors.find? (receipt.record sender).smart.key = some c := by
    rw [hkey]
    exact hc
  refine ⟨?_, rfl, rfl, rfl⟩
  rw [Tables.apply_converted hfind, hkey, hbalance]
  rfl

end Reserve

/-! ## What a run announces -/

/-- What a change announces, if there is one. -/
def announced? (change : Outcome ExchangeError (Change ρ)) : Option Event.Payload :=
  match change.run with
  | .ok (.ok (_, payload)) => some payload
  | .ok (.error _) | .error _ => none

theorem announced?_of_returns {change : Outcome ExchangeError (Change ρ)}
    (h : change.Returns (z, payload)) : announced? change = some payload := by
  rw [announced?, h]

theorem announced?_of_fails {change : Outcome ExchangeError (Change ρ)} {e : ExchangeError}
    (h : change.Fails e) : announced? change = none := by
  rw [announced?, h]

variable [Reserve ρ]

/-- What a transition announces: a change that a request made, a conversion, or the refusal of one
that was heard. -/
def Transition.payload? (τ : Transition ρ) : Option Event.Payload :=
  match τ.action with
  | .init _ signers owner connected => announced? (τ.before.initChange signers owner connected)
  | .connect _ signers smart balance weight =>
    announced? (τ.before.connectChange signers smart balance weight)
  | .setCharge _ signers rate fixed target =>
    announced? (τ.before.setChargeChange signers rate fixed target)
  | .setOwner _ signers owner => announced? (τ.before.setOwnerChange signers owner)
  | .convert now signers sender given wanted =>
    match τ.before.convert now signers sender given wanted with
    | .ok ⟨.ok receipt, _⟩ => some (.converted (receipt.record sender))
    | .ok ⟨.error e, _⟩ =>
      if τ.before.Hears signers sender given wanted then
        some (.conversionRejected sender given wanted e.message)
      else none
    | .error _ => none
  | .ledger _ | .reserve _ | .setTime _ | .advanceTime _ => none

/-- All that some transitions announce, the oldest first. -/
def announced (ts : List (Transition ρ)) : List Event.Payload := ts.filterMap (·.payload?)

/-! ## Steps -/

/-- What an action does to the tables and the log: nothing, or what it announces. -/
inductive Announces (x y : Exchange ρ) : Option Event.Payload → Prop
  | nothing (tables : y.tables = x.tables) (settings : y.settings = x.settings)
    (events : y.events = x.events) (nextEventId : y.nextEventId = x.nextEventId) :
    Announces x y none
  | event {z : Exchange ρ} {now : Int} {payload : Event.Payload} (tells : x.Tells z payload)
    (logged : y = z.emit now payload) : Announces x y (some payload)

omit [Reserve ρ] in
theorem announces_self (x : Exchange ρ) : x.Announces x none := .nothing rfl rfl rfl rfl

omit [Reserve ρ] in
/-- A request of the administration announces its change, if it makes one. -/
theorem announces_commit {change : Outcome ExchangeError (Change ρ)} {reply : Reply ρ Unit}
    (htells : ∀ {z payload}, change.Returns (z, payload) → x.Tells z payload)
    (h : x.commit now change = .ok reply) :
    x.Announces reply.exchange (announced? change) := by
  obtain ⟨result, hresult, h⟩ := Abort.bind_eq_ok.1 h
  rcases result with e | ⟨z, payload⟩
  · rw [Abort.pure_eq_ok] at h
    subst h
    rw [announced?_of_fails hresult]
    exact announces_self x
  · rw [Abort.pure_eq_ok] at h
    subst h
    rw [announced?_of_returns hresult]
    exact .event (htells hresult) rfl

/-- The refusal of a conversion tells of no change. -/
theorem announces_convert {sender : Account} {given wanted : Asset}
    (h : x.act (.convert now signers sender given wanted) = .ok y) :
    x.Announces y (Transition.mk x (.convert now signers sender given wanted) y).payload? := by
  obtain ⟨⟨answer, z⟩, hreply, rfl⟩ := Abort.map_eq_ok.1 h
  rcases answer with e | receipt
  · simp only [Transition.payload?, hreply]
    rcases convert_eq_error hreply with ⟨hunheard, rfl⟩ | ⟨hheard, _, rfl⟩
    · rw [if_neg fun hhears => hunheard.not_returns (returns_checkRequest_iff_hears.2 hhears)]
      exact announces_self z
    · rw [if_pos (returns_checkRequest_iff_hears.1 hheard)]
      exact .event ⟨rfl, rfl, rfl, rfl⟩ rfl
  · simp only [Transition.payload?, hreply]
    obtain ⟨c, z, hconverts, rfl⟩ := convert_eq_ok.1 hreply
    exact .event hconverts.tells rfl

theorem announces_of_act {a : Action ρ} (h : x.act a = .ok y) :
    x.Announces y (Transition.mk x a y).payload? := by
  cases a with
  | init now signers owner connected =>
    obtain ⟨reply, hreply, rfl⟩ := Abort.map_eq_ok.1 h
    exact announces_commit tells_initChange hreply
  | connect now signers smart balance weight =>
    obtain ⟨reply, hreply, rfl⟩ := Abort.map_eq_ok.1 h
    exact announces_commit tells_connectChange hreply
  | setCharge now signers rate fixed target =>
    obtain ⟨reply, hreply, rfl⟩ := Abort.map_eq_ok.1 h
    exact announces_commit tells_setChargeChange hreply
  | setOwner now signers owner =>
    obtain ⟨reply, hreply, rfl⟩ := Abort.map_eq_ok.1 h
    exact announces_commit tells_setOwnerChange hreply
  | convert now signers sender given wanted => exact announces_convert h
  | ledger c =>
    obtain ⟨result, _, h⟩ := Abort.bind_eq_ok.1 h
    rcases result with e | l
    · rw [Abort.pure_eq_ok] at h
      subst h
      exact announces_self x
    · rw [Abort.pure_eq_ok] at h
      subst h
      exact .nothing rfl rfl rfl rfl
  | reserve r =>
    rw [act, Abort.pure_eq_ok] at h
    subst h
    exact .nothing rfl rfl rfl rfl
  | setTime time =>
    rw [act, Abort.pure_eq_ok] at h
    subst h
    exact .nothing rfl rfl rfl rfl
  | advanceTime millis =>
    obtain ⟨clock, _, rfl⟩ := Abort.map_eq_ok.1 h
    exact .nothing rfl rfl rfl rfl

/-! ## Chronicles -/

/-- `payloads` are all that was announced up to `x`, which runs on `settings`: they tell its tables,
and its log has the latest of them. -/
structure Chronicle (settings : Settings) (x : Exchange ρ) (payloads : List Event.Payload) :
    Prop where
  settings_eq : x.settings = settings
  tables : x.tables = .replay payloads
  events : x.events.map (·.payload) = payloads.drop (payloads.length - settings.maxEvents)
  nextEventId : x.nextEventId = payloads.length + 1

variable {settings : Settings}

omit [Reserve ρ] in
theorem chronicle_assemble (settings : Settings) (l : Ledger) (reserve : ρ) :
    Chronicle settings (assemble settings l reserve) [] := by
  refine ⟨rfl, rfl, ?_, rfl⟩
  rw [List.drop_nil]
  rfl

omit [Reserve ρ] in
/-- The log drops its oldest event where it is full. -/
theorem Chronicle.emit (hx : Chronicle settings x payloads) (h : x.Tells z payload) :
    Chronicle settings (z.emit now payload) (payloads ++ [payload]) := by
  refine ⟨h.settings.trans hx.settings_eq, ?_, ?_, ?_⟩
  · rw [Tables.replay_append, ← hx.tables, ← h.tables]
    rfl
  · have hlength : x.events.length =
        payloads.length - (payloads.length - settings.maxEvents) := by
      have hevents := congrArg List.length hx.events
      rwa [List.length_map, List.length_drop] at hevents
    rw [(logs_emit z now payload).events, h.settings, hx.settings_eq, h.events, List.map_drop,
      List.map_append, hx.events, List.map_singleton,
      ← List.drop_append_of_le_length (Nat.sub_le _ _), List.drop_drop, List.length_append]
    congr 1
    simp only [List.length_singleton]
    omega
  · rw [(logs_emit z now payload).nextEventId, h.nextEventId, hx.nextEventId, List.length_append]
    rfl

omit [Reserve ρ] in
theorem Chronicle.step {announcement : Option Event.Payload}
    (hx : Chronicle settings x payloads) (h : x.Announces y announcement) :
    Chronicle settings y (payloads ++ announcement.toList) := by
  cases h with
  | nothing tables same events nextEventId =>
    rw [Option.toList_none, List.append_nil]
    exact ⟨same.trans hx.settings_eq, tables.trans hx.tables, events ▸ hx.events,
      nextEventId.trans hx.nextEventId⟩
  | event tells logged =>
    rw [logged]
    exact hx.emit tells

/-- Whatever is done, what it announces continues the chronicle. -/
theorem Chronicle.trace {as : List (Action ρ)} :
    ∀ {x : Exchange ρ} {payloads : List Event.Payload} {r : List (Transition ρ) × Exchange ρ},
      Chronicle settings x payloads → x.trace as = .ok r →
        Chronicle settings r.2 (payloads ++ announced r.1) := by
  -- each action moves from the head of the list to the end of the chronicle
  induction as with
  | nil =>
    intro x payloads r hx hr
    rw [Exchange.trace, Except.ok.injEq] at hr
    subst hr
    rwa [announced, List.filterMap_nil, List.append_nil]
  | cons a as ih =>
    intro x payloads r hx hr
    obtain ⟨y, hy, hr⟩ := Abort.bind_eq_ok.1 hr
    obtain ⟨⟨rest, z⟩, hrest, hr⟩ := Abort.bind_eq_ok.1 hr
    rw [Abort.pure_eq_ok] at hr
    subst hr
    have hz := ih (hx.step (announces_of_act hy)) hrest
    rw [announced, List.filterMap_cons]
    rcases hpayload : (Transition.mk x a y).payload? with _ | payload
    · rwa [hpayload, Option.toList_none, List.append_nil] at hz
    · rwa [hpayload, Option.toList_some, List.append_assoc] at hz

theorem Run.chronicle {reserve : ρ} {ts : List (Transition ρ)} (h : Run settings reserve ts x) :
    Chronicle settings x (announced ts) := by
  induction h with
  | start => exact chronicle_assemble settings .empty reserve
  | @step ts x y a _ _ hy ih =>
    have hstep := ih.step (announces_of_act hy)
    rw [announced, List.filterMap_append, List.filterMap_cons, List.filterMap_nil]
    cases hpayload : (Transition.mk x a y).payload? with
    | none => rwa [hpayload] at hstep
    | some payload => rwa [hpayload] at hstep

/-- Until the log has to drop an event, its payloads rebuild the configuration, the policies and the
connectors of an exchange, whatever was done to it since it was new. -/
theorem replay_events {l : Ledger} {reserve : ρ} {as : List (Action ρ)}
    {ts : List (Transition ρ)} (hnew : Exchange.new settings l reserve = .ok x)
    (htrace : x.trace as = .ok (ts, y)) (hkept : (announced ts).length ≤ settings.maxEvents) :
    Tables.replay (y.events.map (·.payload)) = ⟨y.configuration, y.charges, y.connectors⟩ := by
  have hx : x = assemble settings l reserve := by
    unfold Exchange.new at hnew
    split at hnew
    · exact (Except.ok.inj hnew).symm
    · cases hnew
  subst hx
  have hy := (chronicle_assemble settings l reserve).trace htrace
  rw [List.nil_append] at hy
  have hevents := hy.events
  rw [Nat.sub_eq_zero_of_le hkept, List.drop_zero] at hevents
  rw [hevents, ← hy.tables]
  rfl

end Exchange

/-! ## Events of every kind -/

namespace Sample

/-- The market, in which fees are set in every way, the owner changes, alice buys, and then wants
what she already has. -/
def eventful : List (Exchange.Action Pool) :=
  market ++
    [.setCharge 0 [contract] 5 (some ⟨2, connected⟩) (some smart),
      .setCharge 0 [contract] 7 none (some smart), buy,
      .setCharge 0 [contract] (-1) none (some smart),
      .setCharge 0 [contract] 20 (some ⟨3, connected⟩) none, .setCharge 0 [contract] 15 none none,
      .setOwner 0 [contract] alice, .convert 0 [alice] alice ⟨5, smart⟩ ⟨0, smart⟩]

end Sample

namespace Exchange

/-- The eleven events of the eventful market rebuild what it has become. -/
theorem eventful_replays :
    ∃ (ts : List (Transition Pool)) (y : Exchange Pool),
      inMemory.trace Sample.eventful = .ok (ts, y) ∧ (announced ts).length = 11 ∧
      Tables.replay (y.events.map (·.payload)) = ⟨y.configuration, y.charges, y.connectors⟩ ∧
      y.configuration.get? = some ⟨Sample.connected, ⟨15⟩, 3, Sample.alice⟩ := by
  have hyields : Abort.Yields (inMemory.trace Sample.eventful) fun r =>
      (announced r.1).length = 11 ∧
        r.2.configuration.get? = some ⟨Sample.connected, ⟨15⟩, 3, Sample.alice⟩ := by
    decide +kernel
  obtain ⟨⟨ts, y⟩, htrace, hlength, hconf⟩ := hyields
  have hkept : (announced ts).length ≤ ({} : Settings).maxEvents := hlength.trans_le (by decide)
  exact ⟨ts, y, htrace, hlength, replay_events (l := .empty) rfl htrace hkept, hconf⟩

end Exchange
end BondingCurve
