import BondingCurve.Proofs.Exchange.Replay
import Mathlib.Data.List.DropRight

/-!
# The event log

A request that succeeds is worth one event, and so is the refusal of a conversion that was heard;
nothing else is. The events of a run, numbered from one, are its `history`, which no exchange keeps
whole: a log is the end of it, as long as the settings want it. `Retains` says so of an exchange,
every action keeps it, and what a run logged follows from that (`log_is_recent_history`).
-/

namespace BondingCurve

/-- What was cut off before something was appended would be cut off behind it. -/
theorem rtake_append_rtake {α : Type} (n : ℕ) (l k : List α) :
    (l.rtake n ++ k).rtake n = (l ++ k).rtake n := by
  simp [List.rtake_eq_reverse_take_reverse, List.take_append, List.take_take]

namespace Exchange

variable {ρ α : Type} {x y z : Exchange ρ} {settings : Settings}

/-! ## What is worth an event -/

/-- An operation was answered, and not with an error. -/
def succeeded : Except Abort (Reply ρ α) → Bool
  | .ok reply => reply.answer.isOk
  | .error _ => false

variable [Reserve ρ]

namespace Transition

/-- A request that succeeded. -/
def succeeds (τ : Transition ρ) : Bool :=
  match τ.action with
  | .init now signers owner connected => succeeded (τ.before.init now signers owner connected)
  | .connect now signers smart balance weight =>
    succeeded (τ.before.connect now signers smart balance weight)
  | .setCharge now signers rate fixed target =>
    succeeded (τ.before.setCharge now signers rate fixed target)
  | .setOwner now signers owner => succeeded (τ.before.setOwner now signers owner)
  | .convert now signers sender given wanted =>
    succeeded (τ.before.convert now signers sender given wanted)
  | .ledger _ | .reserve _ | .setTime _ | .advanceTime _ => false

/-- A conversion that was heard and did not succeed. -/
def refuses (τ : Transition ρ) : Bool :=
  match τ.action with
  | .convert _ signers sender given wanted =>
    τ.before.Hears signers sender given wanted && !τ.succeeds
  | _ => false

/-- What the transition is told of with, and when. -/
def logged? (τ : Transition ρ) : Option (Int × Event.Payload) :=
  τ.payload?.map fun payload => (τ.after.clock, payload)

end Transition

omit [Reserve ρ] in
/-- A request of the administration announces its change where it succeeds. -/
theorem isSome_announced? {now : Int} {change : Outcome ExchangeError (Change ρ)} :
    (announced? change).isSome = succeeded (x.commit now change) := by
  unfold announced? commit
  rcases change.run with fault | e | ⟨z, payload⟩ <;> rfl

namespace Transition

/-- A transition announces something where it succeeds, and where it refuses what it has heard. -/
theorem isSome_payload? {τ : Transition ρ} (h : τ.before.act τ.action = .ok τ.after) :
    τ.payload?.isSome = (τ.succeeds || τ.refuses) := by
  obtain ⟨x, a, y⟩ := τ
  cases a with
  | init | connect | setCharge | setOwner =>
    simp only [payload?, succeeds, refuses, Bool.or_false]
    exact isSome_announced?
  | convert now signers sender given wanted =>
    obtain ⟨⟨e | receipt, z⟩, hreply, -⟩ := Abort.map_eq_ok.1 h
    · by_cases hhears : x.Hears signers sender given wanted
      · simp [payload?, succeeds, refuses, succeeded, hreply, hhears, Except.isOk, Except.toBool]
      · simp [payload?, succeeds, refuses, succeeded, hreply, hhears, Except.isOk, Except.toBool]
    · simp [payload?, succeeds, succeeded, hreply, Except.isOk, Except.toBool]
  | ledger | reserve | setTime | advanceTime => rfl

theorem refuses_eq_false_of_succeeds {τ : Transition ρ} (h : τ.succeeds = true) :
    τ.refuses = false := by
  obtain ⟨x, a, y⟩ := τ
  cases a with
  | convert => simp [refuses, h]
  | init | connect | setCharge | setOwner | ledger | reserve | setTime | advanceTime => rfl

end Transition

/-- The transitions of a trace are actions that did not abort. -/
theorem act_of_mem_trace {as : List (Action ρ)} :
    ∀ {x : Exchange ρ} {r : List (Transition ρ) × Exchange ρ}, x.trace as = .ok r →
      ∀ τ ∈ r.1, τ.before.act τ.action = .ok τ.after := by
  induction as with
  | nil =>
    intro x r hr τ hτ
    rw [Exchange.trace, Except.ok.injEq] at hr
    subst hr
    cases hτ
  | cons a as ih =>
    intro x r hr τ hτ
    obtain ⟨y, hy, hr⟩ := Abort.bind_eq_ok.1 hr
    obtain ⟨⟨rest, z⟩, hrest, hr⟩ := Abort.bind_eq_ok.1 hr
    rw [Abort.pure_eq_ok] at hr
    subst hr
    rcases List.mem_cons.1 hτ with rfl | hτ
    · exact hy
    · exact ih hrest τ hτ

/-! ## Histories -/

/-- The events that entries are, numbered from one. -/
def numbered (entries : List (Int × Event.Payload)) : List Event :=
  entries.mapIdx fun i entry => ⟨i + 1, entry.1, entry.2⟩

/-- All events of some transitions, the oldest first. -/
def history (ts : List (Transition ρ)) : List Event := numbered (ts.filterMap (·.logged?))

theorem length_numbered (entries : List (Int × Event.Payload)) :
    (numbered entries).length = entries.length := List.length_mapIdx

theorem numbered_append (entries : List (Int × Event.Payload)) (entry : Int × Event.Payload) :
    numbered (entries ++ [entry]) =
      numbered entries ++ [⟨entries.length + 1, entry.1, entry.2⟩] := List.mapIdx_concat

theorem id_numbered (entries : List (Int × Event.Payload)) :
    (numbered entries).map (·.id) = List.range' 1 entries.length := by
  apply List.ext_getElem
  · rw [List.length_map, length_numbered, List.length_range']
  · intro i _ _
    simp [numbered, Nat.add_comm]

/-- The events of a history are as many as the requests that succeeded and those that were heard
and refused. -/
theorem length_history {ts : List (Transition ρ)}
    (hts : ∀ τ ∈ ts, τ.before.act τ.action = .ok τ.after) :
    (history ts).length = ts.countP (·.succeeds) + ts.countP (·.refuses) := by
  rw [history, length_numbered, List.length_filterMap_eq_countP]
  induction ts with
  | nil => rfl
  | cons τ ts ih =>
    have hτ := Transition.isSome_payload? (hts τ List.mem_cons_self)
    rw [List.countP_cons, List.countP_cons, List.countP_cons,
      ih fun τ hτ => hts τ (List.mem_cons_of_mem _ hτ), Transition.logged?, Option.isSome_map, hτ]
    cases hsucceeds : τ.succeeds with
    | true =>
      rw [Transition.refuses_eq_false_of_succeeds hsucceeds]
      simp only [Bool.or_false, if_true, Bool.false_eq_true, if_false]
      omega
    | false =>
      rw [Bool.false_or]
      simp only [Bool.false_eq_true, if_false]
      omega

/-! ## Logs -/

/-- `entries` are all that was logged up to `x`, which runs on `settings`: its log is the end of
them, and its next event will be the one after. -/
structure Retains (settings : Settings) (x : Exchange ρ) (entries : List (Int × Event.Payload)) :
    Prop where
  settings_eq : x.settings = settings
  events : x.events = (numbered entries).rtake settings.maxEvents
  nextEventId : x.nextEventId = entries.length + 1

variable {entries : List (Int × Event.Payload)}

omit [Reserve ρ] in
theorem retains_assemble (settings : Settings) (l : Ledger) (reserve : ρ) :
    Retains settings (assemble settings l reserve) [] := ⟨rfl, by simp [numbered, assemble], rfl⟩

omit [Reserve ρ] in
/-- The log drops its oldest event where it is full. -/
theorem Retains.emit {now : Int} {payload : Event.Payload} (hx : Retains settings x entries)
    (h : x.Tells z payload) :
    Retains settings (z.emit now payload) (entries ++ [((z.emit now payload).clock, payload)]) := by
  have hlogs := logs_emit z now payload
  refine ⟨h.settings.trans hx.settings_eq, ?_, ?_⟩
  · have hlength : z.events.length + 1 = (z.events ++ [(⟨z.nextEventId, max z.clock now, payload⟩ :
        Event)]).length := by
      rw [List.length_append, List.length_singleton]
    rw [hlogs.events, hlength, h.settings, hx.settings_eq, ← List.rtake, h.events, hx.events,
      rtake_append_rtake, numbered_append, h.nextEventId, hx.nextEventId, hlogs.clock]
  · rw [hlogs.nextEventId, h.nextEventId, hx.nextEventId, List.length_append]
    rfl

/-- Whatever is done, the log keeps to the end of what was logged. -/
theorem Retains.step {τ : Transition ρ} (hx : Retains settings τ.before entries)
    (h : τ.before.act τ.action = .ok τ.after) :
    Retains settings τ.after (entries ++ τ.logged?.toList) := by
  obtain ⟨x, a, y⟩ := τ
  have hannounces := announces_of_act h
  unfold Transition.logged?
  generalize (Transition.mk x a y).payload? = payload? at hannounces ⊢
  cases hannounces with
  | nothing tables same events nextEventId =>
    rw [Option.map_none, Option.toList_none, List.append_nil]
    exact ⟨same.trans hx.settings_eq, events.trans hx.events, nextEventId.trans hx.nextEventId⟩
  | event tells logged =>
    rw [Option.map_some, Option.toList_some, logged]
    exact hx.emit tells

theorem Retains.trace {as : List (Action ρ)} :
    ∀ {x : Exchange ρ} {entries : List (Int × Event.Payload)}
      {r : List (Transition ρ) × Exchange ρ}, Retains settings x entries → x.trace as = .ok r →
        Retains settings r.2 (entries ++ r.1.filterMap (·.logged?)) := by
  -- each action moves from the head of the list to the end of what was logged
  induction as with
  | nil =>
    intro x entries r hx hr
    rw [Exchange.trace, Except.ok.injEq] at hr
    subst hr
    rwa [List.filterMap_nil, List.append_nil]
  | cons a as ih =>
    intro x entries r hx hr
    obtain ⟨y, hy, hr⟩ := Abort.bind_eq_ok.1 hr
    obtain ⟨⟨rest, z⟩, hrest, hr⟩ := Abort.bind_eq_ok.1 hr
    rw [Abort.pure_eq_ok] at hr
    subst hr
    have hz := ih (hx.step (τ := ⟨x, a, y⟩) hy) hrest
    rw [List.filterMap_cons]
    rcases hentry : (Transition.mk x a y).logged? with _ | entry
    · rwa [hentry, Option.toList_none, List.append_nil] at hz
    · rwa [hentry, Option.toList_some, List.append_assoc] at hz

/-- What neither succeeds nor refuses a conversion is not logged. -/
theorem events_of_not_worth {τ : Transition ρ} (h : τ.before.act τ.action = .ok τ.after)
    (hsucceeds : τ.succeeds = false) (hrefuses : τ.refuses = false) :
    τ.after.events = τ.before.events ∧ τ.after.nextEventId = τ.before.nextEventId := by
  have hnone : τ.payload? = none := by
    rw [← Option.not_isSome_iff_eq_none, Transition.isSome_payload? h, hsucceeds, hrefuses]
    exact Bool.false_ne_true
  have hannounces := announces_of_act h
  obtain ⟨x, a, y⟩ := τ
  rw [hnone] at hannounces
  cases hannounces with
  | nothing _ _ events nextEventId => exact ⟨events, nextEventId⟩

omit [Reserve ρ] in
/-- A new exchange is what was put together. -/
theorem eq_assemble_of_new {l : Ledger} {reserve : ρ}
    (h : Exchange.new settings l reserve = .ok x) : x = assemble settings l reserve := by
  unfold Exchange.new at h
  split at h
  · exact (Except.ok.inj h).symm
  · cases h

/-- Take any run of an exchange with valid settings, and let `n` be the requests in it that
succeeded and the conversions that were heard and refused. Its history has `n` events, and the log
after it is the end of the history, as much of it as the settings retain, so the ids are consecutive
and the last one is `n`. No other transition touches the log. -/
theorem log_is_recent_history {l : Ledger} {reserve : ρ} {as : List (Action ρ)}
    {ts : List (Transition ρ)} {n : ℕ} (hnew : Exchange.new settings l reserve = .ok x)
    (htrace : x.trace as = .ok (ts, y))
    (hn : n = ts.countP (·.succeeds) + ts.countP (·.refuses)) :
    (history ts).length = n ∧ y.events = (history ts).rtake settings.maxEvents ∧
      y.events.length = min n settings.maxEvents ∧
      y.events.map (·.id) =
        List.range' (n - min n settings.maxEvents + 1) (min n settings.maxEvents) ∧
      y.nextEventId = n + 1 ∧
      ∀ τ ∈ ts, τ.succeeds = false → τ.refuses = false →
        τ.after.events = τ.before.events ∧ τ.after.nextEventId = τ.before.nextEventId := by
  have hacts := act_of_mem_trace htrace
  have hlength : (history ts).length = n := (length_history hacts).trans hn.symm
  have hentries : (ts.filterMap (·.logged?)).length = n := by
    rw [← hlength, history, length_numbered]
  have hy := (eq_assemble_of_new hnew ▸ retains_assemble settings l reserve).trace htrace
  rw [List.nil_append] at hy
  have hevents : y.events = (history ts).drop (n - settings.maxEvents) := by
    rw [← hlength]
    exact hy.events
  refine ⟨hlength, hy.events, ?_, ?_, hentries ▸ hy.nextEventId, ?_⟩
  · rw [hevents, List.length_drop, hlength]
    omega
  · have hstart : 1 + (n - settings.maxEvents) * 1 = n - min n settings.maxEvents + 1 := by omega
    have hcount : n - (n - settings.maxEvents) = min n settings.maxEvents := by omega
    rw [hevents, history, List.map_drop, id_numbered, hentries, List.drop_range', hstart, hcount]
  · intro τ hτ
    exact events_of_not_worth (hacts τ hτ)

/-- Ten requests of the eventful market succeed and one is refused; an exchange that keeps three
events has the last three of the eleven. -/
theorem eventful_log :
    ∃ (x y : Exchange Pool) (ts : List (Transition Pool)),
      Exchange.new { maxEvents := 3 } .empty (Pool.empty Pool.defaultAccount) = .ok x ∧
      x.trace Sample.eventful = .ok (ts, y) ∧ ts.countP (·.succeeds) = 10 ∧
      ts.countP (·.refuses) = 1 ∧ ts.length = 16 ∧
      y.events = (history ts).drop 8 ∧ y.events.map (·.id) = [9, 10, 11] ∧
      y.nextEventId = 12 := by
  have hyields : Abort.Yields ((assemble { maxEvents := 3 } .empty
      (Pool.empty Pool.defaultAccount)).trace Sample.eventful) fun r =>
        r.1.countP (·.succeeds) = 10 ∧ r.1.countP (·.refuses) = 1 ∧ r.1.length = 16 := by
    decide +kernel
  obtain ⟨⟨ts, y⟩, htrace, hsucceed, hrefused, hsteps⟩ := hyields
  have hcount : 11 = ts.countP (·.succeeds) + ts.countP (·.refuses) := by
    rw [hsucceed, hrefused]
  have hnew : Exchange.new { maxEvents := 3 } .empty (Pool.empty Pool.defaultAccount) =
      .ok (assemble { maxEvents := 3 } .empty (Pool.empty Pool.defaultAccount)) := rfl
  obtain ⟨hlength, hevents, _, hids, hnext, _⟩ := log_is_recent_history hnew htrace hcount
  refine ⟨_, y, ts, rfl, htrace, hsucceed, hrefused, hsteps, ?_, hids, hnext⟩
  rw [hevents, List.rtake, hlength]
  rfl

end Exchange
end BondingCurve
