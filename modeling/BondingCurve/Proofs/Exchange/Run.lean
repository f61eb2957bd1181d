import BondingCurve.Proofs.Exchange.Administration

/-!
# Runs of an exchange

An exchange is driven by requests, by operations on its ledger that others ask for, by whoever
keeps its reserve, and by its clock. A `Run` is a fresh exchange and what was done to it since,
one `Transition` after the other; a transition is an action that did not abort. `Step` says what
an action can do to the books, and `WellFormed` what all reachable exchanges have in common.
-/

namespace BondingCurve

open Outcome

namespace Exchange

variable {ρ : Type}

/-! ## Actions -/

/-- What can be done to an exchange. -/
inductive Action (ρ : Type) where
  | init (now : Int) (signers : Signers) (owner : Account) (connected : Token)
  | connect (now : Int) (signers : Signers) (smart : Token) (balance : Asset) (weight : Decimal)
  | setCharge (now : Int) (signers : Signers) (rate : Int) (fixed : Option Asset)
      (target : Option Token)
  | setOwner (now : Int) (signers : Signers) (owner : Account)
  | convert (now : Int) (signers : Signers) (sender : Account) (given wanted : Asset)
  /-- An operation on the ledger that is no request to the exchange. -/
  | ledger (c : Ledger.Call)
  /-- The reserve as its keeper leaves it. -/
  | reserve (r : ρ)
  | setTime (time : Int)
  | advanceTime (millis : Int)

namespace Action

/-- The cap of a token that is registered is an amount. -/
def InRange : Action ρ → Prop
  | ledger c => c.InRange
  | _ => True

instance : (a : Action ρ) → Decidable a.InRange
  | ledger c => inferInstanceAs (Decidable c.InRange)
  | init .. | connect .. | setCharge .. | setOwner .. | convert .. | reserve _ | setTime _
  | advanceTime _ => .isTrue trivial

/-- The action is an operation on the ledger that is no request. -/
def IsCall : Action ρ → Prop
  | ledger _ => True
  | _ => False

instance : (a : Action ρ) → Decidable a.IsCall
  | ledger _ => .isTrue trivial
  | init .. | connect .. | setCharge .. | setOwner .. | convert .. | reserve _ | setTime _
  | advanceTime _ => .isFalse id

/-- Who asks for a conversion. -/
def sender? : Action ρ → Option Account
  | convert _ _ sender _ _ => some sender
  | _ => none

end Action

/-- The exchange after an action. A request that fails answers with an error and an exchange, and
a ledger operation that fails leaves the ledger as it was. -/
def act [Reserve ρ] (x : Exchange ρ) : Action ρ → Except Abort (Exchange ρ)
  | .init now signers owner connected => return (← x.init now signers owner connected).exchange
  | .connect now signers smart balance weight =>
    return (← x.connect now signers smart balance weight).exchange
  | .setCharge now signers rate fixed target =>
    return (← x.setCharge now signers rate fixed target).exchange
  | .setOwner now signers owner => return (← x.setOwner now signers owner).exchange
  | .convert now signers sender given wanted =>
    return (← x.convert now signers sender given wanted).exchange
  | .ledger c => do
    match ← (x.ledger.call c).run with
    | .ok l => return { x with ledger := l }
    | .error _ => return x
  | .reserve r => return { x with reserve := r }
  | .setTime time => return x.setTime time
  | .advanceTime millis => x.advanceTime millis

/-- An action and the exchanges around it. -/
structure Transition (ρ : Type) where
  before : Exchange ρ
  action : Action ρ
  after : Exchange ρ

/-- The receipt of a transition that is a committed conversion. -/
def Transition.receipt? [Reserve ρ] (τ : Transition ρ) : Option Receipt :=
  match τ.action with
  | .convert now signers sender given wanted =>
    match τ.before.convert now signers sender given wanted with
    | .ok ⟨.ok receipt, _⟩ => some receipt
    | _ => none
  | _ => none

theorem receipt?_of_convert [Reserve ρ] {x y : Exchange ρ} {now : Int} {signers : Signers}
    {sender : Account} {given wanted : Asset} {receipt : Receipt}
    (h : x.convert now signers sender given wanted = .ok ⟨.ok receipt, y⟩) :
    (Transition.mk x (.convert now signers sender given wanted) y).receipt? = some receipt := by
  simp [Transition.receipt?, h]

/-- The transitions that lead from a fresh exchange over an empty ledger to another one. -/
inductive Run [Reserve ρ] (settings : Settings) (reserve : ρ) :
    List (Transition ρ) → Exchange ρ → Prop
  | start : Run settings reserve [] (assemble settings .empty reserve)
  | step {trace : List (Transition ρ)} {x y : Exchange ρ} {a : Action ρ}
      (h : Run settings reserve trace x) (ha : a.InRange) (hy : x.act a = .ok y) :
      Run settings reserve (trace ++ [⟨x, a, y⟩]) y

/-- An exchange that some run leads to. -/
def Reachable [Reserve ρ] (x : Exchange ρ) : Prop :=
  ∃ settings reserve trace, Run settings reserve trace x

/-- The transitions of some actions, one after the other, and the exchange after them. -/
def trace [Reserve ρ] (x : Exchange ρ) :
    List (Action ρ) → Except Abort (List (Transition ρ) × Exchange ρ)
  | [] => .ok ([], x)
  | a :: as => do
    let y ← x.act a
    let (rest, z) ← y.trace as
    return (⟨x, a, y⟩ :: rest, z)

/-- A run can be continued by any actions that do not abort. -/
theorem Run.append_trace [Reserve ρ] {settings : Settings} {reserve : ρ} {as : List (Action ρ)} :
    ∀ {ts : List (Transition ρ)} {x : Exchange ρ} {r : List (Transition ρ) × Exchange ρ},
      Run settings reserve ts x → (∀ a ∈ as, a.InRange) → x.trace as = .ok r →
      Run settings reserve (ts ++ r.1) r.2 := by
  -- each action moves from the head of the list to the end of the run
  induction as with
  | nil =>
    intro ts x r h _ hr
    rw [trace, Except.ok.injEq] at hr
    subst hr
    rw [List.append_nil]
    exact h
  | cons a as ih =>
    intro ts x r h hrange hr
    obtain ⟨y, hy, hr⟩ := Abort.bind_eq_ok.1 hr
    obtain ⟨⟨rest, z⟩, hrest, hr⟩ := Abort.bind_eq_ok.1 hr
    rw [Abort.pure_eq_ok] at hr
    subst hr
    have hstep := h.step (hrange a List.mem_cons_self) hy
    have hrun := ih hstep (fun b hb => hrange b (List.mem_cons_of_mem a hb)) hrest
    rwa [List.append_assoc] at hrun

variable {x y : Exchange ρ}

/-! ## Well-formed exchanges -/

/-- How a connector stands in the books: under the key of its smart token, with a balance of the
connected token that is an amount, and with a valid weight. -/
structure Fits (x : Exchange ρ) (k : TokenKey) (c : Connector) : Prop where
  key_eq : c.smart.key = k
  connected : x.connected? = some c.balance.token
  smart_ne : c.smart ≠ c.balance.token
  balance_nonneg : 0 ≤ c.balance.amount
  balance_le : c.balance.amount ≤ Amount.greatest
  weight_valid : Weight.IsValid c.weight.value

structure WellFormed (x : Exchange ρ) : Prop where
  ledger : x.ledger.Consistent
  fits : ∀ {k c}, x.connectors.find? k = some c → x.Fits k c

theorem wellFormed_assemble (settings : Settings) (reserve : ρ) :
    (assemble settings .empty reserve).WellFormed where
  ledger := Ledger.consistent_empty
  fits h := by cases h

/-- A connector that fits still does when others change and the connected token stays. -/
theorem Fits.of_connected {k : TokenKey} {c : Connector} (h : x.Fits k c)
    (hconnected : ∀ {t}, x.connected? = some t → y.connected? = some t) : y.Fits k c :=
  ⟨h.key_eq, hconnected h.connected, h.smart_ne, h.balance_nonneg, h.balance_le, h.weight_valid⟩

/-- One row of the connectors is written, with a connector that fits. -/
theorem WellFormed.insert {k : TokenKey} {c : Connector} (h : x.WellFormed)
    (hledger : y.ledger.Consistent) (hconnected : y.connected? = x.connected?)
    (hconnectors : y.connectors = x.connectors.insert k c) (hc : x.Fits k c) : y.WellFormed := by
  refine ⟨hledger, ?_⟩
  intro k' c' hfind
  -- the row that was written, or one from before
  rw [hconnectors, Table.find?_insert] at hfind
  split at hfind
  · next hk =>
    subst hk
    cases hfind
    exact hc.of_connected fun ht => hconnected ▸ ht
  · exact (h.fits hfind).of_connected fun ht => hconnected ▸ ht

/-- The balance of a fresh connector was somebody's balance, so it is an amount. -/
theorem Connects.fits {smart : Token} {balance : Asset} {weight : Decimal} {conf : Configuration}
    {l : Ledger} (hx : x.WellFormed) (h : x.Connects smart balance weight conf l) :
    x.Fits smart.key ⟨smart, balance, ⟨weight⟩⟩ := by
  have hcan := (hx.ledger.returns_transfer.1 h.deposits).1
  refine ⟨rfl, ?_, ?_, h.balance_pos.le, ?_, h.weight_valid⟩
  · rw [connected?_of_configuration h.configuration, h.balance_token]
  · rw [h.balance_token]
    exact h.smart_ne
  · exact hcan.covered.trans hx.ledger.balanceOf_le_greatest

theorem WellFormed.balance_le (h : x.WellFormed) {t : Token} {c : Connector}
    (hc : x.connector? t = some c) : c.balance.amount ≤ Amount.greatest :=
  (h.fits hc).balance_le

variable [Reserve ρ] {a : Action ρ}

/-! ## What an action does to the books -/

/-- What an action can do to the books. -/
inductive Step (x : Exchange ρ) : Action ρ → Exchange ρ → Prop
  | idle {a : Action ρ} {y : Exchange ρ} (h : x.SameBooks y) : Step x a y
  | connects {now : Int} {signers : Signers} {smart : Token} {balance : Asset} {weight : Decimal}
      {conf : Configuration} {l : Ledger} {payload : Event.Payload}
      (h : x.Connects smart balance weight conf l) :
      Step x (.connect now signers smart balance weight)
        ((x.opened smart balance weight l).emit now payload)
  | converts {now : Int} {signers : Signers} {sender : Account} {given wanted : Asset}
      {receipt : Receipt} {c : Connector} {z : Exchange ρ}
      (h : x.Converts signers sender given wanted receipt c z) :
      Step x (.convert now signers sender given wanted)
        (z.emit now (.converted (receipt.record sender)))
  | calls {c : Ledger.Call} {l : Ledger} (h : (x.ledger.call c).Returns l) :
      Step x (.ledger c) { x with ledger := l }
  | reserves {r : ρ} : Step x (.reserve r) { x with reserve := r }

theorem step_of_commit {change : Outcome ExchangeError (Change ρ)} {now : Int}
    {reply : Reply ρ Unit} (hreply : x.commit now change = .ok reply)
    (h : ∀ y payload, change.Returns (y, payload) → x.SameBooks y) : x.Step a reply.exchange := by
  rcases commit_eq_ok hreply with heq | ⟨z, payload, hz, heq⟩
  · rw [heq]
    exact .idle (.refl x)
  · rw [heq]
    exact .idle (h z payload hz).emit

theorem step_of_act (h : x.act a = .ok y) : x.Step a y := by
  cases a with
  | init now signers owner connected =>
    obtain ⟨reply, hreply, rfl⟩ := Abort.map_eq_ok.1 h
    exact step_of_commit hreply fun _ _ => sameBooks_initChange
  | connect now signers smart balance weight =>
    obtain ⟨reply, hreply, rfl⟩ := Abort.map_eq_ok.1 h
    rcases commit_eq_ok hreply with heq | ⟨z, payload, hz, heq⟩
    · rw [heq]
      exact .idle (.refl x)
    · rw [heq]
      obtain ⟨conf, l, hconnects, rfl⟩ := returns_connectChange hz
      exact .connects hconnects
  | setCharge now signers rate fixed target =>
    obtain ⟨reply, hreply, rfl⟩ := Abort.map_eq_ok.1 h
    exact step_of_commit hreply fun _ _ => sameBooks_setChargeChange
  | setOwner now signers owner =>
    obtain ⟨reply, hreply, rfl⟩ := Abort.map_eq_ok.1 h
    exact step_of_commit hreply fun _ _ => sameBooks_setOwnerChange
  | convert now signers sender given wanted =>
    obtain ⟨⟨answer, z⟩, hreply, rfl⟩ := Abort.map_eq_ok.1 h
    rcases answer with e | receipt
    · -- a refused conversion leaves an event at most
      rcases convert_eq_error hreply with ⟨_, heq⟩ | ⟨_, _, heq⟩
      · exact .idle (heq ▸ .refl x)
      · exact .idle (heq ▸ (SameBooks.refl x).emit)
    · obtain ⟨c, z', hconverts, rfl⟩ := convert_eq_ok.1 hreply
      exact .converts hconverts
  | ledger c =>
    obtain ⟨result, hresult, h⟩ := Abort.bind_eq_ok.1 h
    rcases result with e | l
    · -- the ledger of a refused operation is dropped
      rw [Abort.pure_eq_ok] at h
      subst h
      exact .idle (.refl x)
    · rw [Abort.pure_eq_ok] at h
      subst h
      exact .calls hresult
  | reserve r =>
    rw [act, Abort.pure_eq_ok] at h
    subst h
    exact .reserves
  | setTime time =>
    rw [act, Abort.pure_eq_ok] at h
    subst h
    exact .idle ⟨rfl, rfl, rfl, rfl, id⟩
  | advanceTime millis =>
    obtain ⟨clock, _, rfl⟩ := Abort.map_eq_ok.1 h
    exact .idle ⟨rfl, rfl, rfl, rfl, id⟩

/-! ## Runs keep an exchange well-formed -/

theorem Converts.plans_connector (hx : x.WellFormed) {signers : Signers} {sender : Account}
    {given wanted : Asset} {receipt : Receipt} {c : Connector}
    (h : x.Converts signers sender given wanted receipt c y) :
    ∃ conf reg, x.Plans given wanted conf c reg receipt.plan := by
  obtain ⟨conf, reg, hp, _⟩ := returns_plan (fun hc => hx.balance_le hc) h.plans
  exact ⟨conf, reg, hp⟩

variable [LawfulReserve ρ]

/-- Every action keeps an exchange well-formed. -/
theorem WellFormed.step (hx : x.WellFormed) (ha : a.InRange) (h : x.Step a y) : y.WellFormed := by
  cases h with
  | idle h =>
    -- the same connectors for the same connected token
    refine ⟨h.ledger ▸ hx.ledger, ?_⟩
    intro k c hc
    rw [h.connectors] at hc
    exact (hx.fits hc).of_connected h.connected
  | connects h =>
    exact hx.insert (hx.ledger.transfer h.deposits) rfl rfl (h.fits hx)
  | @converts now signers sender given wanted receipt c z h =>
    obtain ⟨conf, reg, hplans⟩ := h.plans_connector hx
    obtain ⟨hrange, hcovered, final, r, hmoves, rfl⟩ := returns_settle h.settles
    have hc := hx.fits hplans.connector
    -- the settlement has checked the balance that it writes
    have hmoved : x.Fits c.smart.key (c.moved receipt.plan.balanceDelta) :=
      ⟨rfl, hc.connected, hc.smart_ne, hcovered, hrange.2, hc.weight_valid⟩
    exact hx.insert (hx.ledger.moves hmoves) rfl rfl hmoved
  | calls h => exact ⟨hx.ledger.call ha h, fun hc => (hx.fits hc).of_connected id⟩
  | reserves => exact ⟨hx.ledger, fun hc => (hx.fits hc).of_connected id⟩

theorem Run.wellFormed {settings : Settings} {reserve : ρ} {trace : List (Transition ρ)}
    (h : Run settings reserve trace x) : x.WellFormed := by
  induction h with
  | start => exact wellFormed_assemble settings reserve
  | step _ ha hy ih => exact ih.step ha (step_of_act hy)

theorem Reachable.wellFormed (h : x.Reachable) : x.WellFormed := by
  obtain ⟨settings, reserve, trace, hrun⟩ := h
  exact hrun.wellFormed

theorem Step.settings_eq (h : x.Step a y) : y.settings = x.settings := by
  cases h with
  | idle h => exact h.settings
  | connects h => rfl
  | converts h =>
    obtain ⟨_, _, final, r, _, rfl⟩ := returns_settle h.settles
    rfl
  | calls h => rfl
  | reserves => rfl

theorem Step.connected (h : x.Step a y) {t : Token} (ht : x.connected? = some t) :
    y.connected? = some t := by
  cases h with
  | idle h => exact h.connected ht
  | connects h => exact ht
  | converts h =>
    obtain ⟨_, _, final, r, _, rfl⟩ := returns_settle h.settles
    exact ht
  | calls h => exact ht
  | reserves => exact ht

theorem Run.settings_eq {settings : Settings} {reserve : ρ} {trace : List (Transition ρ)}
    (h : Run settings reserve trace x) : x.settings = settings := by
  induction h with
  | start => rfl
  | step _ _ hy ih => exact (step_of_act hy).settings_eq.trans ih

end Exchange

/-! ## A market -/

namespace Sample

def connected : Token := ⟨⟨"GXC", 4⟩, ⟨"gxc.token"⟩⟩

def smart : Token := ⟨⟨"TKN", 4⟩, ⟨"gxc.token"⟩⟩

def contract : Account := ⟨"gxc.bancor"⟩

def owner : Account := ⟨"owner"⟩

def alice : Account := ⟨"alice"⟩

/-- A market for one smart token: half of what it is worth lies behind it, and the owner gets one
per cent of what is paid. -/
def market : List (Exchange.Action Pool) :=
  [.ledger (.createToken connected 1000000), .ledger (.createToken smart 1000000),
    .ledger (.issue owner ⟨20000, connected⟩ ""), .ledger (.issue alice ⟨50000, connected⟩ ""),
    .ledger (.issue alice ⟨30000, smart⟩ ""), .init 0 [contract] owner connected,
    .connect 0 [contract] smart ⟨20000, connected⟩ ⟨5, 1, false⟩,
    .setCharge 0 [contract] 10 none none]

/-- Alice buys for a thousand units. -/
def buy : Exchange.Action Pool := .convert 0 [alice] alice ⟨1000, connected⟩ ⟨0, smart⟩

/-- A reserve that pays two units for one, well above the market. -/
def pool : Pool :=
  (Pool.empty Pool.defaultAccount).insert
    { derivative := smart, underlying := ⟨10000, connected⟩, rate := .ofInt 2 }

/-- The market with a funded reserve. -/
def backedMarket : List (Exchange.Action Pool) :=
  market ++ [.ledger (.issue Pool.defaultAccount ⟨10000, connected⟩ ""), .reserve pool]

/-- A market with one unit behind two, at a weight of a hundredth. -/
def thinMarket : List (Exchange.Action Pool) :=
  [.ledger (.createToken connected 1000000), .ledger (.createToken smart 1000000),
    .ledger (.issue owner ⟨1, connected⟩ ""), .ledger (.issue alice ⟨2, smart⟩ ""),
    .init 0 [contract] owner connected,
    .connect 0 [contract] smart ⟨1, connected⟩ ⟨1, 2, false⟩]

/-- An exchange whose contract owns itself and holds a thousand units. -/
def selfOwned : List (Exchange.Action Pool) :=
  [.ledger (.createToken connected 1000000), .ledger (.createToken smart 1000000),
    .ledger (.issue contract ⟨1000, connected⟩ ""), .init 0 [contract] contract connected]

/-- A market whose whole value lies behind it, a thousand units behind `supply`, and as many units
on a reserve that redeems at `rate`. -/
def pledged (supply : Amount) (rate : Decimal) : List (Exchange.Action Pool) :=
  [.ledger (.createToken connected 1000000), .ledger (.createToken smart 1000000),
    .ledger (.issue owner ⟨1000, connected⟩ ""), .ledger (.issue alice ⟨supply, smart⟩ ""),
    .ledger (.issue Pool.defaultAccount ⟨1000, connected⟩ ""), .init 0 [contract] owner connected,
    .connect 0 [contract] smart ⟨1000, connected⟩ .one,
    .reserve ((Pool.empty Pool.defaultAccount).insert
      { derivative := smart, underlying := ⟨1000, connected⟩, rate })]

/-- What is done to a fresh exchange is a run. -/
theorem run_trace {as : List (Exchange.Action Pool)}
    {r : List (Exchange.Transition Pool) × Exchange Pool} (has : ∀ a ∈ as, a.InRange)
    (h : Exchange.inMemory.trace as = .ok r) :
    Exchange.Run {} (.empty Pool.defaultAccount) r.1 r.2 :=
  Exchange.Run.start.append_trace has h

theorem reachable_trace {as : List (Exchange.Action Pool)}
    {r : List (Exchange.Transition Pool) × Exchange Pool} (has : ∀ a ∈ as, a.InRange)
    (h : Exchange.inMemory.trace as = .ok r) : r.2.Reachable :=
  ⟨_, _, _, run_trace has h⟩

end Sample
end BondingCurve
