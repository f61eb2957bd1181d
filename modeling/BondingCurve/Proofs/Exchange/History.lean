import BondingCurve.Proofs.Exchange.Run

/-!
# What a history says of the connectors

The connectors of an exchange can be read off its history: a connector is what some `connect`
opened (`opening?`), moved by the deltas of all receipts for its smart token (`growth`). Whatever
failed in between, and however often a row was written from a copy of itself, leaves no trace in
them. What one transition does to this reading is one of three things (`Turn`), and each keeps it
(`Reads.turn`). The connected token is read off in the same way (`connected?_of_act`).
-/

namespace BondingCurve

open Outcome

/-! ## Moving a connector twice -/

namespace Connector

variable {c : Connector} {m n : Amount}

@[simp] theorem moved_zero : c.moved 0 = c := by
  show ({ c with balance := ⟨c.balance.amount + 0, c.balance.token⟩ } : Connector) = c
  rw [add_zero]

/-- Movements of a balance add up. -/
@[simp] theorem moved_moved : (c.moved m).moved n = c.moved (m + n) := by
  show ({ c with balance := ⟨c.balance.amount + m + n, c.balance.token⟩ } : Connector) = _
  rw [add_assoc]
  rfl

end Connector

namespace Exchange

variable {ρ : Type} {τ : Transition ρ} {trace : List (Transition ρ)} {x y z : Exchange ρ}
  {a : Action ρ} {c : Connector} {k : TokenKey} {s t : Token}

/-! ## Reading a history -/

namespace Transition

/-- The token that a successful `init` connects. -/
def initialized? (τ : Transition ρ) : Option Token :=
  match τ.action with
  | .init now signers owner connected =>
    match τ.before.init now signers owner connected with
    | .ok ⟨.ok (), _⟩ => some connected
    | _ => none
  | _ => none

/-- The connector that a successful `connect` opens. -/
def opened? (τ : Transition ρ) : Option Connector :=
  match τ.action with
  | .connect now signers smart balance weight =>
    match τ.before.connect now signers smart balance weight with
    | .ok ⟨.ok (), _⟩ => some ⟨smart, balance, ⟨weight⟩⟩
    | _ => none
  | _ => none

/-- The delta of a receipt for the token, if the transition has one. -/
def delta [Reserve ρ] (τ : Transition ρ) (smart : Token) : ℤ :=
  match τ.receipt? with
  | some receipt => if receipt.plan.smart = smart then receipt.plan.balanceDelta else 0
  | none => 0

/-- What is no committed conversion moves no connector. -/
theorem delta_of_none [Reserve ρ] (h : τ.receipt? = none) : τ.delta s = 0 := by
  rw [delta, h]

/-- A committed conversion moves the one connector of its receipt. -/
theorem delta_of_some [Reserve ρ] {receipt : Receipt} (h : τ.receipt? = some receipt) :
    τ.delta s = if receipt.plan.smart = s then receipt.plan.balanceDelta else 0 := by
  rw [delta, h]

end Transition

/-- All connectors as they were opened, oldest first. -/
def openings (trace : List (Transition ρ)) : List Connector := trace.filterMap (·.opened?)

/-- The connector that was opened under a key. -/
def opening? (trace : List (Transition ρ)) (k : TokenKey) : Option Connector :=
  (openings trace).find? fun c => c.smart.key = k

/-- The sum of the deltas of all receipts for a token. -/
def growth [Reserve ρ] (trace : List (Transition ρ)) (smart : Token) : ℤ :=
  (trace.map (·.delta smart)).sum

/-- A transition adds the connector that it has opened, if it has. -/
theorem openings_append : openings (trace ++ [τ]) = openings trace ++ τ.opened?.toList := by
  rw [openings, List.filterMap_append, openings]
  rcases h : τ.opened? with _ | c
  · simp [h]
  · simp [h]

theorem openings_append_none (h : τ.opened? = none) : openings (trace ++ [τ]) = openings trace := by
  rw [openings_append, h, Option.toList_none, List.append_nil]

theorem opening?_append_none (h : τ.opened? = none) :
    opening? (trace ++ [τ]) k = opening? trace k := by
  rw [opening?, openings_append_none h, opening?]

/-- Behind a new connector the first one of its token is still the first. -/
theorem opening?_append_some (h : τ.opened? = some c) :
    opening? (trace ++ [τ]) k =
      (opening? trace k).or (if c.smart.key = k then some c else none) := by
  rw [opening?, openings_append, h, List.find?_append, opening?]
  by_cases hk : c.smart.key = k
  · simp [hk]
  · simp [hk]

/-- A connector is found under the key of its token. -/
theorem smart_key_of_opening? (h : opening? trace k = some c) : c.smart.key = k := by
  rw [opening?] at h
  simpa using List.find?_some h

theorem smart_key_ne_of_opening? (h : opening? trace k = none) (hc : c ∈ openings trace) :
    c.smart.key ≠ k := by
  rw [opening?, List.find?_eq_none] at h
  simpa using h c hc

/-- Growth adds up over the transitions. -/
theorem growth_append [Reserve ρ] : growth (trace ++ [τ]) s = growth trace s + τ.delta s := by
  rw [growth, List.map_append, List.sum_append, growth]
  simp

theorem growth_append_none [Reserve ρ] (h : τ.receipt? = none) :
    growth (trace ++ [τ]) s = growth trace s := by
  rw [growth_append, Transition.delta_of_none h, add_zero]

/-! ## The connected token -/

section Connected

variable {signers : Signers} {payload : Event.Payload}

/-- A connected token is named once, where there was none. -/
theorem connected?_initChange {owner : Account}
    (h : (x.initChange signers owner t).Returns (y, payload)) :
    x.connected? = none ∧ y.connected? = some t := by
  simp only [initChange, returns_bind, returns_ite, not_returns_throw, false_and, exists_false,
    and_false, false_or, returns_pure, Prod.mk.injEq] at h
  obtain ⟨_, _, hempty, _, _, rfl, _⟩ := h
  have hnone : x.configuration.get? = none := by
    simpa [Slot.isFilled, Slot.get?] using hempty
  refine ⟨?_, rfl⟩
  rw [connected?, hnone]
  rfl

/-- Signatures and the configuration are asked for first. -/
theorem configured_of_returns {β : Type} {b : β} {f : Configuration → Outcome ExchangeError β}
    (h : (signers.require x.contract >>= fun _ => x.requireConfiguration >>= f).Returns b) :
    ∃ conf, x.configuration.get? = some conf := by
  obtain ⟨_, -, h⟩ := returns_bind.1 h
  obtain ⟨conf, hconf, -⟩ := returns_bind.1 h
  exact ⟨conf, returns_requireConfiguration.1 hconf⟩

/-- A change of a configured exchange that keeps the connected token adds none. -/
theorem SameBooks.connected_eq (h : x.SameBooks y)
    (hconf : ∃ conf, x.configuration.get? = some conf) : y.connected? = x.connected? := by
  obtain ⟨conf, hconf⟩ := hconf
  have ht := connected?_of_configuration hconf
  rw [h.connected ht, ht]

theorem connected?_of_commit {now : Int} {change : Outcome ExchangeError (Change ρ)}
    {reply : Reply ρ Unit} (hreply : x.commit now change = .ok reply)
    (h : ∀ y payload, change.Returns (y, payload) → y.connected? = x.connected?) :
    reply.exchange.connected? = x.connected? := by
  rcases commit_eq_ok hreply with heq | ⟨y, payload, hy, heq⟩
  · rw [heq]
  · rw [heq]
    exact h y payload hy

end Connected

/-! ## What stays -/

/-- The connected token stays, and so do all connectors, but for their balances. -/
structure Keeps (x y : Exchange ρ) : Prop where
  connected : ∀ {t}, x.connected? = some t → y.connected? = some t
  connectors : ∀ {k c}, x.connectors.find? k = some c →
    ∃ n, y.connectors.find? k = some (c.moved n)

theorem Keeps.refl (x : Exchange ρ) : x.Keeps x :=
  ⟨id, fun h => ⟨0, by rw [Connector.moved_zero, h]⟩⟩

/-- What is kept twice is kept. -/
theorem Keeps.trans (h : x.Keeps y) (h' : y.Keeps z) : x.Keeps z := by
  refine ⟨fun ht => h'.connected (h.connected ht), ?_⟩
  intro k c hk
  obtain ⟨m, hm⟩ := h.connectors hk
  obtain ⟨n, hn⟩ := h'.connectors hm
  rw [Connector.moved_moved] at hn
  exact ⟨m + n, hn⟩

/-! ## What a transition does to the connectors -/

variable [Reserve ρ]

/-- What a transition does to the connectors, next to what a history says of it. -/
inductive Turn (τ : Transition ρ) : Prop
  | rests (opened : τ.opened? = none) (receipt : τ.receipt? = none)
      (same : τ.after.connectors = τ.before.connectors)
  | opens {c : Connector} (opened : τ.opened? = some c) (receipt : τ.receipt? = none)
      (valid : c.smart.IsValid) (new : τ.before.connectors.find? c.smart.key = none)
      (written : τ.after.connectors = τ.before.connectors.insert c.smart.key c)
  | moves {c : Connector} {r : Receipt} (opened : τ.opened? = none) (receipt : τ.receipt? = some r)
      (smart : r.plan.smart = c.smart)
      (found : τ.before.connectors.find? c.smart.key = some c)
      (written : τ.after.connectors =
        τ.before.connectors.insert c.smart.key (c.moved r.plan.balanceDelta))

/-- Every turn keeps all that a connector is, but for its balance. -/
theorem Turn.keeps (hτ : Turn τ)
    (hconnected : ∀ {t}, τ.before.connected? = some t → τ.after.connected? = some t) :
    τ.before.Keeps τ.after := by
  refine ⟨hconnected, ?_⟩
  intro k c hk
  cases hτ with
  | rests _ _ hsame => exact ⟨0, by rw [hsame, Connector.moved_zero, hk]⟩
  | opens _ _ _ hnew hwritten =>
    -- a row that is there is not under the key that was free
    refine ⟨0, ?_⟩
    rw [hwritten, Table.find?_insert, if_neg, Connector.moved_zero, hk]
    intro heq
    rw [← heq, hk] at hnew
    cases hnew
  | @moves c' r _ _ _ hfound hwritten =>
    rw [hwritten, Table.find?_insert]
    by_cases heq : k = c'.smart.key
    · rw [heq, hfound] at hk
      cases hk
      exact ⟨r.plan.balanceDelta, by rw [if_pos heq]⟩
    · exact ⟨0, by rw [if_neg heq, Connector.moved_zero, hk]⟩

/-! ## The reading is kept -/

/-- The connectors can be read off the history. -/
structure Reads (trace : List (Transition ρ)) (x : Exchange ρ) : Prop where
  follows : ∀ k, x.connectors.find? k =
    (opening? trace k).map fun c => c.moved (growth trace c.smart)
  /-- There is no receipt for a token that was never connected. -/
  quiet : ∀ {s}, opening? trace s.key = none → growth trace s = 0
  valid : ∀ {c}, c ∈ openings trace → c.smart.IsValid
  once : ((openings trace).map (·.smart.key)).Nodup

theorem reads_start (settings : Settings) (reserve : ρ) :
    Reads [] (assemble settings .empty reserve) :=
  ⟨fun _ => rfl, fun _ => rfl, nofun, .nil⟩

namespace Reads

/-- Where there is no connector now, none was opened. -/
theorem opening?_eq_none (h : Reads trace x) (hk : x.connectors.find? k = none) :
    opening? trace k = none := by
  rw [h.follows, Option.map_eq_none_iff] at hk
  exact hk

/-- What a connector was when it was opened. -/
theorem exists_opening (h : Reads trace x) (hk : x.connectors.find? k = some c) :
    ∃ c₀, opening? trace k = some c₀ ∧ c = c₀.moved (growth trace c₀.smart) := by
  rw [h.follows, Option.map_eq_some_iff] at hk
  obtain ⟨c₀, hc₀, rfl⟩ := hk
  exact ⟨c₀, hc₀, rfl⟩

/-- Every connector is one of a valid token. -/
theorem smart_isValid (h : Reads trace x) (hk : x.connectors.find? k = some c) :
    c.smart.IsValid := by
  obtain ⟨c₀, hc₀, rfl⟩ := h.exists_opening hk
  have hvalid : c₀.smart.IsValid := h.valid (List.mem_of_find?_eq_some hc₀)
  exact hvalid

/-- A transition that leaves the connectors alone. -/
theorem rests (h : Reads trace τ.before) (hopened : τ.opened? = none)
    (hreceipt : τ.receipt? = none) (hsame : τ.after.connectors = τ.before.connectors) :
    Reads (trace ++ [τ]) τ.after := by
  refine ⟨?_, ?_, ?_, ?_⟩
  · intro k
    simp only [hsame, h.follows, opening?_append_none hopened, growth_append_none hreceipt]
  · intro s hs
    rw [opening?_append_none hopened] at hs
    rw [growth_append_none hreceipt, h.quiet hs]
  · rw [openings_append_none hopened]
    exact h.valid
  · rw [openings_append_none hopened]
    exact h.once

/-- A transition that opens a connector under a key that was free. -/
theorem opens (h : Reads trace τ.before) (hopened : τ.opened? = some c)
    (hreceipt : τ.receipt? = none) (hvalid : c.smart.IsValid)
    (hnew : τ.before.connectors.find? c.smart.key = none)
    (hwritten : τ.after.connectors = τ.before.connectors.insert c.smart.key c) :
    Reads (trace ++ [τ]) τ.after := by
  have hopenings : openings (trace ++ [τ]) = openings trace ++ [c] := by
    rw [openings_append, hopened, Option.toList_some]
  have hfree := h.opening?_eq_none hnew
  refine ⟨?_, ?_, ?_, ?_⟩
  · intro k
    rw [hwritten, Table.find?_insert, opening?_append_some hopened]
    by_cases hk : c.smart.key = k
    · -- nothing was converted before there was a connector
      subst hk
      rw [if_pos rfl, if_pos rfl, hfree, Option.none_or, Option.map_some,
        growth_append_none hreceipt, h.quiet hfree, Connector.moved_zero]
    · rw [if_neg (Ne.symm hk), if_neg hk, Option.or_none, h.follows]
      simp only [growth_append_none hreceipt]
  · intro s hs
    rw [opening?_append_some hopened, Option.or_eq_none_iff] at hs
    rw [growth_append_none hreceipt, h.quiet hs.1]
  · intro c' hc'
    rw [hopenings, List.mem_append, List.mem_singleton] at hc'
    rcases hc' with hc' | rfl
    · exact h.valid hc'
    · exact hvalid
  · rw [hopenings, List.map_append, List.map_singleton, List.nodup_append]
    refine ⟨h.once, List.nodup_singleton _, ?_⟩
    intro k hk k' hk'
    obtain ⟨c', hc', rfl⟩ := List.mem_map.1 hk
    rw [List.mem_singleton] at hk'
    rw [hk']
    exact smart_key_ne_of_opening? hfree hc'

/-- A transition that moves a connector by the delta of its receipt. -/
theorem moves {r : Receipt} (h : Reads trace τ.before) (hopened : τ.opened? = none)
    (hreceipt : τ.receipt? = some r) (hsmart : r.plan.smart = c.smart)
    (hfound : τ.before.connectors.find? c.smart.key = some c)
    (hwritten : τ.after.connectors =
      τ.before.connectors.insert c.smart.key (c.moved r.plan.balanceDelta)) :
    Reads (trace ++ [τ]) τ.after := by
  have hgrowth : ∀ s, growth (trace ++ [τ]) s =
      growth trace s + if c.smart = s then r.plan.balanceDelta else 0 := by
    intro s
    rw [growth_append, Transition.delta_of_some hreceipt, hsmart]
  obtain ⟨c₀, hc₀, hc⟩ := h.exists_opening hfound
  have hsmart₀ : c.smart = c₀.smart := by
    rw [hc]
    rfl
  refine ⟨?_, ?_, ?_, ?_⟩
  · intro k
    rw [hwritten, Table.find?_insert, opening?_append_none hopened]
    by_cases hk : k = c.smart.key
    · subst hk
      rw [if_pos rfl, hc₀, Option.map_some, hgrowth, if_pos hsmart₀, ← Connector.moved_moved, ← hc]
    · rw [if_neg hk, h.follows]
      rcases hother : opening? trace k with _ | c'
      · rfl
      · -- a connector under another key is one for another token
        have hne : c.smart ≠ c'.smart := by
          intro heq
          rw [heq, smart_key_of_opening? hother] at hk
          exact hk rfl
        rw [Option.map_some, Option.map_some, hgrowth, if_neg hne, add_zero]
  · intro s hs
    rw [opening?_append_none hopened] at hs
    have hne : c.smart ≠ s := by
      intro heq
      rw [heq, hs] at hc₀
      cases hc₀
    rw [hgrowth, if_neg hne, h.quiet hs, add_zero]
  · rw [openings_append_none hopened]
    exact h.valid
  · rw [openings_append_none hopened]
    exact h.once

/-- Every transition keeps the reading. -/
theorem turn (h : Reads trace τ.before) (hτ : Turn τ) : Reads (trace ++ [τ]) τ.after := by
  cases hτ with
  | rests hopened hreceipt hsame => exact h.rests hopened hreceipt hsame
  | opens hopened hreceipt hvalid hnew hwritten =>
    exact h.opens hopened hreceipt hvalid hnew hwritten
  | moves hopened hreceipt hsmart hfound hwritten =>
    exact h.moves hopened hreceipt hsmart hfound hwritten

end Reads

/-! ## Runs -/

variable [LawfulReserve ρ]

/-- Only an `init` that succeeds sets the connected token, and only where there is none. -/
theorem connected?_of_act (h : x.act a = .ok y) :
    ((⟨x, a, y⟩ : Transition ρ).initialized? = none ∧ y.connected? = x.connected?) ∨
      ∃ t, (⟨x, a, y⟩ : Transition ρ).initialized? = some t ∧ x.connected? = none ∧
        y.connected? = some t := by
  cases a with
  | init now signers owner connected =>
    obtain ⟨⟨answer, z⟩, hreply, rfl⟩ := Abort.map_eq_ok.1 h
    rcases answer with e | ⟨⟩
    · refine .inl ⟨by simp [Transition.initialized?, hreply], ?_⟩
      rw [commit_eq_ok_error hreply]
    · obtain ⟨z, payload, hz, rfl⟩ := commit_eq_ok_ok.1 hreply
      obtain ⟨hnone, hsome⟩ := connected?_initChange hz
      exact .inr ⟨connected, by simp [Transition.initialized?, hreply], hnone, hsome⟩
  | connect now signers smart balance weight =>
    obtain ⟨reply, hreply, rfl⟩ := Abort.map_eq_ok.1 h
    refine .inl ⟨rfl, connected?_of_commit hreply ?_⟩
    intro z payload hz
    obtain ⟨conf, l, -, rfl⟩ := returns_connectChange hz
    rfl
  | setCharge now signers rate fixed target =>
    obtain ⟨reply, hreply, rfl⟩ := Abort.map_eq_ok.1 h
    refine .inl ⟨rfl, connected?_of_commit hreply ?_⟩
    intro z payload hz
    exact (sameBooks_setChargeChange hz).connected_eq (configured_of_returns hz)
  | setOwner now signers owner =>
    obtain ⟨reply, hreply, rfl⟩ := Abort.map_eq_ok.1 h
    refine .inl ⟨rfl, connected?_of_commit hreply ?_⟩
    intro z payload hz
    exact (sameBooks_setOwnerChange hz).connected_eq (configured_of_returns hz)
  | convert now signers sender given wanted =>
    obtain ⟨⟨answer, z⟩, hreply, rfl⟩ := Abort.map_eq_ok.1 h
    refine .inl ⟨rfl, ?_⟩
    rcases answer with e | receipt
    · rcases convert_eq_error hreply with ⟨-, rfl⟩ | ⟨-, -, rfl⟩
      · rfl
      · rfl
    · obtain ⟨c, z, hconverts, rfl⟩ := convert_eq_ok.1 hreply
      obtain ⟨-, -, final, r, -, rfl⟩ := returns_settle hconverts.settles
      rfl
  | ledger c =>
    refine .inl ⟨rfl, ?_⟩
    obtain ⟨result, -, h⟩ := Abort.bind_eq_ok.1 h
    rcases result with e | l
    · rw [Abort.pure_eq_ok] at h
      rw [h]
    · rw [Abort.pure_eq_ok] at h
      rw [← h]
      rfl
  | reserve r =>
    rw [act, Abort.pure_eq_ok] at h
    rw [← h]
    exact .inl ⟨rfl, rfl⟩
  | setTime time =>
    rw [act, Abort.pure_eq_ok] at h
    rw [← h]
    exact .inl ⟨rfl, rfl⟩
  | advanceTime millis =>
    obtain ⟨clock, -, rfl⟩ := Abort.map_eq_ok.1 h
    exact .inl ⟨rfl, rfl⟩

/-- Every action is a turn: it opens a connector, moves one, or leaves them all. -/
theorem turn_of_act (hx : x.WellFormed) (h : x.act a = .ok y) : Turn ⟨x, a, y⟩ := by
  cases a with
  | init now signers owner connected =>
    cases step_of_act h with
    | idle h => exact .rests rfl rfl h.connectors
  | connect now signers smart balance weight =>
    obtain ⟨⟨answer, z⟩, hreply, rfl⟩ := Abort.map_eq_ok.1 h
    rcases answer with e | ⟨⟩
    · refine .rests (by simp [Transition.opened?, hreply]) rfl ?_
      rw [commit_eq_ok_error hreply]
    · obtain ⟨z, payload, hz, rfl⟩ := commit_eq_ok_ok.1 hreply
      obtain ⟨conf, l, hconnects, rfl⟩ := returns_connectChange hz
      exact .opens (c := ⟨smart, balance, ⟨weight⟩⟩) (by simp [Transition.opened?, hreply]) rfl
        (isValid_of_connectChange hz) hconnects.new rfl
  | setCharge now signers rate fixed target =>
    cases step_of_act h with
    | idle h => exact .rests rfl rfl h.connectors
  | setOwner now signers owner =>
    cases step_of_act h with
    | idle h => exact .rests rfl rfl h.connectors
  | convert now signers sender given wanted =>
    obtain ⟨⟨answer, z⟩, hreply, rfl⟩ := Abort.map_eq_ok.1 h
    rcases answer with e | receipt
    · refine .rests rfl (by simp [Transition.receipt?, hreply]) ?_
      rcases convert_eq_error hreply with ⟨-, rfl⟩ | ⟨-, -, rfl⟩
      · rfl
      · rfl
    · obtain ⟨c, z, hconverts, rfl⟩ := convert_eq_ok.1 hreply
      obtain ⟨conf, reg, hplans⟩ := hconverts.plans_connector hx
      obtain ⟨-, -, final, r, -, rfl⟩ := returns_settle hconverts.settles
      exact .moves rfl (receipt?_of_convert hreply) hplans.smart_eq hplans.connector rfl
  | ledger c =>
    cases step_of_act h with
    | idle h => exact .rests rfl rfl h.connectors
    | calls h => exact .rests rfl rfl rfl
  | reserve r =>
    cases step_of_act h with
    | idle h => exact .rests rfl rfl h.connectors
    | reserves => exact .rests rfl rfl rfl
  | setTime time =>
    cases step_of_act h with
    | idle h => exact .rests rfl rfl h.connectors
  | advanceTime millis =>
    cases step_of_act h with
    | idle h => exact .rests rfl rfl h.connectors

/-- One `init` at most succeeds, and it sets the connected token for good. -/
theorem Run.initialized {settings : Settings} {reserve : ρ} (h : Run settings reserve trace x) :
    trace.filterMap (·.initialized?) = x.connected?.toList := by
  induction h with
  | start => rfl
  | @step trace x y a _ _ hy ih =>
    rw [List.filterMap_append, ih]
    rcases connected?_of_act hy with ⟨hinit, heq⟩ | ⟨t, hinit, hnone, hsome⟩
    · simp [hinit, heq]
    · simp [hinit, hnone, hsome]

/-- In every run from an empty ledger the connectors can be read off the history. -/
theorem Run.reads {settings : Settings} {reserve : ρ} (h : Run settings reserve trace x) :
    Reads trace x := by
  induction h with
  | start => exact reads_start settings reserve
  | step hrun _ hy ih => exact ih.turn (turn_of_act hrun.wellFormed hy)

/-- What was there at any time is still there. -/
theorem Run.keeps {settings : Settings} {reserve : ρ} (h : Run settings reserve trace x) :
    ∀ τ ∈ trace, τ.before.Keeps x := by
  induction h with
  | start =>
    intro τ hτ
    cases hτ
  | @step trace x y a hrun _ hy ih =>
    have hstep : x.Keeps y :=
      (turn_of_act hrun.wellFormed hy).keeps (step_of_act hy).connected
    intro τ hτ
    rw [List.mem_append, List.mem_singleton] at hτ
    rcases hτ with hτ | rfl
    · exact (ih τ hτ).trans hstep
    · exact hstep

/-- The connectors after any run: the connected token is that of the one `init` that succeeded;
every connector fits under its key and is for a valid token; it is the one `connect` that succeeded
under that key, moved by all receipts for its token; and nothing that was there at any time is gone
or has changed, but for balances. -/
theorem Run.connectors_conserved {settings : Settings} {reserve : ρ}
    (h : Run settings reserve trace x) :
    trace.filterMap (·.initialized?) = x.connected?.toList ∧
    (∀ k c, x.connectors.find? k = some c → x.Fits k c ∧ c.smart.IsValid) ∧
    ((openings trace).map (·.smart.key)).Nodup ∧
    (∀ k, x.connectors.find? k =
      (opening? trace k).map fun c => c.moved (growth trace c.smart)) ∧
    ∀ τ ∈ trace, τ.before.Keeps x := by
  have hreads := h.reads
  refine ⟨h.initialized, ?_, hreads.once, hreads.follows, h.keeps⟩
  intro k c hk
  exact ⟨h.wellFormed.fits hk, hreads.smart_isValid hk⟩

/-- In the market the connector holds what it was opened with and what Alice's purchase added. -/
theorem connector_after_buy :
    ∃ (trace : List (Transition Pool)) (x : Exchange Pool) (c : Connector),
      trace.length = 9 ∧ x.connectors.find? Sample.smart.key = some c ∧
      c.balance.amount = 20990 ∧ x.Fits Sample.smart.key c ∧
      (opening? trace Sample.smart.key).map (·.balance.amount) = some 20000 ∧
      growth trace Sample.smart = 990 ∧
      x.connectors.find? Sample.smart.key =
        (opening? trace Sample.smart.key).map fun c => c.moved (growth trace c.smart) := by
  have hyields : Abort.Yields (inMemory.trace (Sample.market ++ [Sample.buy])) fun r =>
      r.1.length = 9 ∧
      ((r.2.connectors.find? Sample.smart.key).map (·.balance.amount) = some 20990) ∧
      (opening? r.1 Sample.smart.key).map (·.balance.amount) = some 20000 ∧
      growth r.1 Sample.smart = 990 := by
    decide +kernel
  obtain ⟨r, hr, hlength, hbalance, hopening, hgrowth⟩ := hyields
  obtain ⟨c, hc, hamount⟩ := Option.map_eq_some_iff.1 hbalance
  obtain ⟨-, hfits, -, hfollows, -⟩ := (Sample.run_trace (by decide) hr).connectors_conserved
  exact ⟨r.1, r.2, c, hlength, hc, hamount, (hfits _ _ hc).1, hopening, hgrowth,
    hfollows Sample.smart.key⟩

end Exchange
end BondingCurve
