import BondingCurve.Proofs.Exchange.EventLog
import BondingCurve.Proofs.Exchange.Locality
import BondingCurve.Proofs.Exchange.Parties

/-!
# Conversions of different tokens commute

Two traders who convert different smart tokens share the contract's account, the owner's, the
connected token, the journal and the log. What the one does is no concern of the other: it leaves
alone all that the other's conversion looks at (`Fills.agrees`), and solvency as well
(`Fills.solvent`), so each gets the answer that he would have got alone. What each of them adds to
balances, supplies and tables, his `Footprint`, does not depend on the other, and both together are
the same either way (`conversions_commute`).
-/

namespace BondingCurve

open Outcome

/-! ## What a plan adds -/

namespace Plan

variable {p : Plan} {sender owner contract a : Account}

/-- What the plan adds to the balances when nothing is redeemed. -/
def shifts (p : Plan) (sender owner contract : Account) : Account → Token → ℤ :=
  match p.direction with
  | .buy => p.pay.on contract - p.pay.on sender + (p.fee.on owner - p.fee.on contract) +
      p.receive.on sender
  | .sell => p.pay.on contract - p.pay.on sender + -p.pay.on contract +
      (p.fee.on owner - p.fee.on contract) + (p.receive.on sender - p.receive.on contract)

/-- What it adds to the supplies. -/
def mints (p : Plan) : TokenKey → ℤ :=
  match p.direction with
  | .buy => p.receive.inSupply
  | .sell => -p.pay.inSupply

/-- What it adds to the journal. -/
def entries (p : Plan) (sender owner contract : Account) (feeMemo : String) :
    List Ledger.Entry :=
  let fee := if 0 < p.fee.amount then [.transfer contract owner p.fee feeMemo] else []
  match p.direction with
  | .buy => [.transfer sender contract p.pay Exchange.convertMemo] ++ fee ++
      [.issue sender p.receive Exchange.convertMemo]
  | .sell => [.transfer sender contract p.pay Exchange.convertMemo] ++
      [.retire contract p.pay Exchange.convertMemo] ++ fee ++
      [.transfer contract sender p.receive Exchange.convertMemo]

/-- Whoever is no party to a plan keeps what he has. -/
theorem shifts_of_ne (hs : a ≠ sender) (ho : a ≠ owner) (hc : a ≠ contract) (t : Token) :
    p.shifts sender owner contract a t = 0 := by
  unfold shifts
  cases p.direction with
  | buy => simp [Asset.on_of_ne hs, Asset.on_of_ne ho, Asset.on_of_ne hc]
  | sell => simp [Asset.on_of_ne hs, Asset.on_of_ne ho, Asset.on_of_ne hc]

end Plan

namespace Exchange

variable {ρ : Type} {x y : Exchange ρ} {sender owner : Account} {given wanted : Asset}
  {conf : Configuration} {c : Connector} {p : Plan} {reg : Registration}

/-- The ledger after a plan was carried out. -/
structure Executes (x : Exchange ρ) (sender : Account) (conf : Configuration) (p : Plan)
    (l : Ledger) : Prop where
  effect : x.ledger.Effect l (p.shifts sender conf.owner x.contract) p.mints
  journal : l.journal =
    x.ledger.journal ++ p.entries sender conf.owner x.contract x.settings.feeMemo

theorem FeePaid.journal {l l' : Ledger} {fee : Asset} (h : x.FeePaid l owner fee l') :
    l'.journal = l.journal ++
      if 0 < fee.amount then [.transfer x.contract owner fee x.settings.feeMemo] else [] := by
  rcases h with ⟨hpos, h⟩ | ⟨hle, rfl⟩
  · rw [if_pos hpos, Ledger.journal_of_transfer h]
  · rw [if_neg (not_lt.2 hle), List.append_nil]

section Reserve

variable [Reserve ρ]

/-- A plan changes no supply but that of its smart token. -/
theorem Plans.mints_of_ne (hp : x.Plans given wanted conf c reg p) {k : TokenKey}
    (hk : k ≠ c.smart.key) : p.mints k = 0 := by
  unfold Plan.mints
  cases hd : p.direction with
  | buy => exact if_neg ((hp.buy_tokens hd).2.2 ▸ hk)
  | sell =>
    show -p.pay.inSupply k = 0
    rw [Asset.inSupply, if_neg ((hp.sell_tokens hd).1 ▸ hk), neg_zero]

theorem SettlesBuy.executes {paid charged final : Ledger} (hd : p.direction = .buy)
    (hp : x.Plans given wanted conf c reg p)
    (h : x.SettlesBuy sender c p conf paid charged final) : x.Executes sender conf p final := by
  constructor
  · have heffect := h.effect hp.fee_nonneg
    unfold Plan.shifts Plan.mints
    rwa [hd]
  · rw [Ledger.journal_of_issue h.issues, h.charges.journal, Ledger.journal_of_transfer h.pays]
    simp [Plan.entries, hd]

theorem SettlesSell.executes {paid taken charged final : Ledger} {r : ρ}
    (hd : p.direction = .sell) (hno : p.overrideApplied = false)
    (hp : x.Plans given wanted conf c reg p)
    (h : x.SettlesSell sender c p conf paid taken charged final r) :
    x.Executes sender conf p final := by
  have hburns := h.takes.retires hno
  constructor
  · have heffect := h.effect hp.fee_nonneg (Ledger.retire_effect hburns)
    unfold Plan.shifts Plan.mints
    rwa [hd]
  · rw [Ledger.journal_of_transfer h.delivers, h.charges.journal, Ledger.journal_of_retire hburns,
      Ledger.journal_of_transfer h.pays]
    simp [Plan.entries, hd]

variable {signers : Signers} {receipt : Receipt}

/-- A conversion without a redemption writes its connector, and the ledger as its plan says. -/
theorem Converts.executes (hx : x.WellFormed)
    (hreserve : ∀ t ∈ x.traded? given wanted, Reserve.hasReserve x.reserve t = false)
    (h : x.Converts signers sender given wanted receipt c y) :
    ∃ conf reg l, x.Plans given wanted conf c reg receipt.plan ∧
      receipt.plan.overrideApplied = false ∧
      y = x.settled c receipt.plan.balanceDelta l x.reserve ∧
      x.Executes sender conf receipt.plan l := by
  obtain ⟨conf, reg, hp⟩ := h.plans_connector hx
  have hno := hp.not_overrideApplied hreserve
  cases hd : receipt.plan.direction with
  | buy =>
    obtain ⟨conf', _, _, final, hs, rfl, _⟩ := (returns_settle_buy hd).1 h.settles
    obtain rfl : conf' = conf := Option.some.inj (hs.configuration.symm.trans hp.configuration)
    exact ⟨conf', reg, final, hp, hno, rfl, hs.executes hd hp⟩
  | sell =>
    obtain ⟨conf', _, _, _, final, r, hs, rfl, _⟩ := (returns_settle_sell hd).1 h.settles
    obtain rfl : conf' = conf := Option.some.inj (hs.configuration.symm.trans hp.configuration)
    obtain rfl : r = x.reserve := hs.takes.reserve_eq hno
    exact ⟨conf', reg, final, hp, hno, rfl, hs.executes hd hno hp⟩

variable [LawfulReserve ρ]

/-- A conversion without a redemption by others than the contract and the owner keeps an exchange
solvent: custody moves with the connector. -/
theorem Converts.solvent (hx : x.WellFormed) (hsolvent : x.Solvent)
    (hsender : sender ≠ x.contract)
    (howner : ∀ conf ∈ x.configuration.get?, conf.owner ≠ x.contract)
    (hreserve : ∀ t ∈ x.traded? given wanted, Reserve.hasReserve x.reserve t = false)
    (h : x.Converts signers sender given wanted receipt c y) : y.Solvent := by
  obtain ⟨conf, reg, l, hp, hno, rfl, _⟩ := h.executes hx hreserve
  obtain ⟨paid, hpaid⟩ := h.pays
  have hcan := (hx.ledger.returns_transfer.1 hpaid).1
  have hcustody := (h.custody_sub hx hp.configuration hno).1
  obtain ⟨conf', reg', hp', hplan⟩ := returns_plan (fun hc => hx.balance_le hc) h.plans
  obtain rfl : conf' = conf := Option.some.inj (hp'.configuration.symm.trans hp.configuration)
  have hinflow := (hp'.inflow_eq_iff hplan hcan.amount_pos hno).2
    ⟨hsender, fun hd => hp'.pay_eq hx hsolvent hsender hd hcan.covered⟩
  rw [if_neg (howner conf' hp'.configuration), add_zero] at hinflow
  have hbacking : (x.settled c receipt.plan.balanceDelta l x.reserve).backing =
      x.backing + receipt.plan.balanceDelta := backing_moved rfl hp.connector
  intro t ht
  have hconnected := connected?_of_configuration hp'.configuration
  obtain rfl : conf'.connected = t := Option.some.inj (hconnected.symm.trans ht)
  have hbefore := hsolvent _ hconnected
  linarith

end Reserve

end Exchange

/-! ## Orders -/

/-- A request for a conversion, with the time and the signatures that it comes with. -/
structure Order where
  now : Int
  signers : Signers
  sender : Account
  given : Asset
  wanted : Asset

/-- What answered orders add to an exchange. -/
structure Footprint where
  shifts : Account → Token → ℤ
  mints : TokenKey → ℤ
  entries : List Ledger.Entry
  /-- With the times they are announced at. -/
  announced : List (Int × Event.Payload)

namespace Footprint

def payloads (f : Footprint) : List Event.Payload := f.announced.map (·.2)

/-- What is added by one after the other. -/
def append (f g : Footprint) : Footprint :=
  ⟨f.shifts + g.shifts, f.mints + g.mints, f.entries ++ g.entries, f.announced ++ g.announced⟩

end Footprint

namespace Exchange

variable {ρ : Type} {x y z : Exchange ρ} {o o' : Order} {a a' : Except ExchangeError Receipt}

def fill [Reserve ρ] (x : Exchange ρ) (o : Order) : Except Abort (Reply ρ Receipt) :=
  x.convert o.now o.signers o.sender o.given o.wanted

/-- What the answer `a` to the order `o` says that it adds. -/
def footprint (x : Exchange ρ) (o : Order) : Except ExchangeError Receipt → Footprint
  | .ok r =>
    match x.configuration.get? with
    | some conf =>
      { shifts := r.plan.shifts o.sender conf.owner x.contract
        mints := r.plan.mints
        entries := r.plan.entries o.sender conf.owner x.contract x.settings.feeMemo
        announced := [(o.now, .converted (r.record o.sender))] }
    | none => ⟨0, 0, [], []⟩
  | .error e =>
    { shifts := 0, mints := 0, entries := []
      announced := if x.Hears o.signers o.sender o.given o.wanted then
        [(o.now, .conversionRejected o.sender o.given o.wanted e.message)] else [] }

theorem footprint_ok {r : Receipt} {conf : Configuration}
    (hconf : x.configuration.get? = some conf) :
    x.footprint o (.ok r) =
      { shifts := r.plan.shifts o.sender conf.owner x.contract
        mints := r.plan.mints
        entries := r.plan.entries o.sender conf.owner x.contract x.settings.feeMemo
        announced := [(o.now, .converted (r.record o.sender))] } := by
  rw [footprint, hconf]

/-- From `x` to `y` the footprint `f` was added and nothing else. -/
structure Gains (x y : Exchange ρ) (f : Footprint) : Prop where
  reserve : y.reserve = x.reserve
  effect : x.ledger.Effect y.ledger f.shifts f.mints
  journal : y.ledger.journal = x.ledger.journal ++ f.entries
  chronicle : ∀ {settings payloads}, Chronicle settings x payloads →
    Chronicle settings y (payloads ++ f.payloads)
  clock : y.clock = f.announced.foldl (fun clock a => max clock a.1) x.clock

theorem Gains.trans {f g : Footprint} (h : x.Gains y f) (h' : y.Gains z g) :
    x.Gains z (f.append g) where
  reserve := h'.reserve.trans h.reserve
  effect := h.effect.trans h'.effect
  journal := by
    rw [h'.journal, h.journal, List.append_assoc]
    rfl
  chronicle hx := by
    have hz := h'.chronicle (h.chronicle hx)
    rwa [List.append_assoc, Footprint.payloads, Footprint.payloads, ← List.map_append] at hz
  clock := by
    rw [h'.clock, h.clock, ← List.foldl_append]
    rfl

variable [Reserve ρ]

/-- The order is a trader's, who is neither the contract nor the owner, for a token that has no
reserve. -/
structure Trades (x : Exchange ρ) (o : Order) : Prop where
  sender_ne_contract : o.sender ≠ x.contract
  sender_ne_owner : ∀ conf ∈ x.configuration.get?, o.sender ≠ conf.owner
  unreserved : ∀ t ∈ x.traded? o.given o.wanted, Reserve.hasReserve x.reserve t = false

/-- How a trader's order is answered, and the exchange after it. -/
inductive Fills (x : Exchange ρ) (o : Order) : Except ExchangeError Receipt → Exchange ρ → Prop
  | unheard {e : ExchangeError} (h : ¬x.Hears o.signers o.sender o.given o.wanted) :
    Fills x o (.error e) x
  | refused {e : ExchangeError} (h : x.Hears o.signers o.sender o.given o.wanted) :
    Fills x o (.error e)
      (x.emit o.now (.conversionRejected o.sender o.given o.wanted e.message))
  | filled {r : Receipt} {c : Connector} {conf : Configuration} {reg : Registration} {l : Ledger}
    (plans : x.Plans o.given o.wanted conf c reg r.plan)
    (converts : x.Converts o.signers o.sender o.given o.wanted r c
      (x.settled c r.plan.balanceDelta l x.reserve))
    (executes : x.Executes o.sender conf r.plan l) :
    Fills x o (.ok r) ((x.settled c r.plan.balanceDelta l x.reserve).emit o.now
      (.converted (r.record o.sender)))

theorem fills_of_fill (hx : x.WellFormed) (ho : x.Trades o) (h : x.fill o = .ok ⟨a, y⟩) :
    x.Fills o a y := by
  cases a with
  | ok r =>
    obtain ⟨c, z, hconverts, rfl⟩ := convert_eq_ok.1 h
    obtain ⟨conf, reg, l, hp, _, rfl, hexecutes⟩ := hconverts.executes hx ho.unreserved
    exact .filled hp hconverts hexecutes
  | error e =>
    rcases convert_eq_error h with ⟨hunheard, rfl⟩ | ⟨hheard, _, rfl⟩
    · exact .unheard fun hhears => hunheard.not_returns (returns_checkRequest_iff_hears.2 hhears)
    · exact .refused (returns_checkRequest_iff_hears.1 hheard)

variable [LawfulReserve ρ]

theorem wellFormed_of_fill (hx : x.WellFormed) (h : x.fill o = .ok ⟨a, y⟩) : y.WellFormed := by
  have hact : x.act (.convert o.now o.signers o.sender o.given o.wanted) = .ok y :=
    Abort.map_eq_ok.2 ⟨_, h, rfl⟩
  refine hx.step ?_ (step_of_act hact)
  exact trivial

/-! ## What an order leaves alone and what it adds -/

theorem Fills.solvent (hx : x.WellFormed) (hsolvent : x.Solvent)
    (howner : ∀ conf ∈ x.configuration.get?, conf.owner ≠ x.contract) (ho : x.Trades o)
    (h : x.Fills o a y) : y.Solvent := by
  cases h with
  | unheard => exact hsolvent
  | refused => exact hsolvent
  | filled _ converts =>
    have hsettled := converts.solvent hx hsolvent ho.sender_ne_contract howner ho.unreserved
    exact hsettled

omit [LawfulReserve ρ] in
/-- To another trader, who trades another token, nothing has changed. -/
theorem Fills.agrees (ho' : x.Trades o') (hsenders : o'.sender ≠ o.sender)
    (hkeys : ∀ t ∈ x.traded? o.given o.wanted, ∀ t' ∈ x.traded? o'.given o'.wanted,
      t'.key ≠ t.key)
    (h : x.Fills o a y) : x.Agrees y o'.sender (x.traded? o'.given o'.wanted) := by
  have hself : x.Agrees x o'.sender (x.traded? o'.given o'.wanted) :=
    ⟨rfl, rfl, rfl, rfl, ⟨fun _ => rfl, rfl⟩, fun _ => rfl, fun _ _ => rfl, fun _ _ => rfl⟩
  cases h with
  | unheard => exact hself
  | refused =>
    exact ⟨rfl, rfl, rfl, rfl, hself.register, hself.balance, hself.connector, hself.registration⟩
  | @filled r c conf reg l plans converts executes =>
    have hother : ∀ t ∈ x.traded? o'.given o'.wanted, t.key ≠ c.smart.key :=
      hkeys c.smart plans.traded?
    refine ⟨rfl, rfl, rfl, rfl, executes.effect.sameRegister, ?_, ?_, ?_⟩
    · intro t
      refine (executes.effect.balanceOf o'.sender t).trans ?_
      rw [Plan.shifts_of_ne hsenders (ho'.sender_ne_owner conf plans.configuration)
        ho'.sender_ne_contract, add_zero]
    · intro t ht
      exact Table.find?_insert_of_ne _ (hother t ht) _
    · intro t ht
      refine (executes.effect.registration? t).trans ?_
      simp only [plans.mints_of_ne (hother t ht), add_zero, Option.map_id']

omit [LawfulReserve ρ] in
theorem Fills.gains (h : x.Fills o a y) : x.Gains y (x.footprint o a) := by
  cases h with
  | unheard h =>
    rw [footprint, if_neg h]
    exact ⟨rfl, Ledger.effect_refl _, (List.append_nil _).symm,
      fun hx => hx.step (announces_self _), rfl⟩
  | refused h =>
    rw [footprint, if_pos h]
    exact ⟨rfl, Ledger.effect_refl _, (List.append_nil _).symm,
      fun hx => hx.emit ⟨rfl, rfl, rfl, rfl⟩, rfl⟩
  | filled plans converts executes =>
    rw [footprint_ok plans.configuration]
    exact ⟨rfl, executes.effect, executes.journal, fun hx => hx.emit converts.tells, rfl⟩

end Exchange

/-! ## Either order -/

/-- Conversions of different tokens write different connectors. -/
theorem Tables.apply_converted_comm {r r' : ConversionRecord} (h : r.smart.key ≠ r'.smart.key)
    (s : Tables) :
    (s.apply (.converted r)).apply (.converted r') =
      (s.apply (.converted r')).apply (.converted r) := by
  cases hc : s.connectors.find? r.smart.key with
  | none =>
    cases hc' : s.connectors.find? r'.smart.key with
    | none => simp [apply, hc, hc']
    | some c' => simp [apply, hc, hc', Table.find?_insert_of_ne _ h]
  | some c =>
    cases hc' : s.connectors.find? r'.smart.key with
    | none => simp [apply, hc, hc', Table.find?_insert_of_ne _ h.symm]
    | some c' =>
      simp [apply, hc, hc', Table.find?_insert_of_ne _ h, Table.find?_insert_of_ne _ h.symm,
        Table.insert_comm _ h]

namespace Exchange

/-- All that the exchanges hold is the same, apart from journal and log. -/
structure HoldsSame (x y : Exchange ρ) : Prop where
  settings : y.settings = x.settings
  configuration : y.configuration = x.configuration
  charges : y.charges = x.charges
  connectors : y.connectors = x.connectors
  reserve : y.reserve = x.reserve
  balances : ∀ a t, y.ledger.balanceOf a t = x.ledger.balanceOf a t
  registrations : ∀ t, y.ledger.registration? t = x.ledger.registration? t
  frozen : y.ledger.frozen = x.ledger.frozen
  nextEventId : y.nextEventId = x.nextEventId
  clock : y.clock = x.clock

/-- From `x` to `y` the journal got `entries` and the log `payloads`, of which it keeps the
latest. -/
structure Appends (x y : Exchange ρ) (entries : List Ledger.Entry)
    (payloads : List Event.Payload) : Prop where
  journal : y.ledger.journal = x.ledger.journal ++ entries
  events : y.events.map (·.payload) =
    (x.events.map (·.payload) ++ payloads).rtake x.settings.maxEvents

variable {ρ : Type} {x y z : Exchange ρ} {o o' : Order} {a a' : Except ExchangeError Receipt}
  {f g : Footprint} {settings : Settings} {payloads : List Event.Payload}

theorem Gains.appends (hx : Chronicle settings x payloads) (h : x.Gains y f) :
    x.Appends y f.entries f.payloads := by
  refine ⟨h.journal, ?_⟩
  rw [(h.chronicle hx).events, hx.events, hx.settings_eq]
  exact (rtake_append_rtake _ _ _).symm

/-- Two footprints, of which neither touches a table that the other one does, leave the same in
either order. -/
theorem Gains.holdsSame (hx : Chronicle settings x payloads) (h : x.Gains y (f.append g))
    (h' : x.Gains z (g.append f))
    (htables : ∀ s : Tables, (f.payloads ++ g.payloads).foldl Tables.apply s =
      (g.payloads ++ f.payloads).foldl Tables.apply s) : y.HoldsSame z := by
  have hy := h.chronicle hx
  have hz := h'.chronicle hx
  rw [Footprint.payloads, Footprint.append, List.map_append] at hy hz
  have hsame : z.tables = y.tables := by
    rw [hz.tables, hy.tables, Tables.replay, Tables.replay, List.foldl_append,
      List.foldl_append (l := payloads)]
    exact (htables _).symm
  refine ⟨?_, ?_, ?_, ?_, ?_, ?_, ?_, ?_, ?_, ?_⟩
  · exact hz.settings_eq.trans hy.settings_eq.symm
  · exact congrArg Tables.configuration hsame
  · exact congrArg Tables.charges hsame
  · exact congrArg Tables.connectors hsame
  · exact h'.reserve.trans h.reserve.symm
  · intro a t
    rw [h'.effect.balanceOf, h.effect.balanceOf, Footprint.append, Footprint.append,
      add_comm g.shifts]
  · intro t
    rw [h'.effect.registration?, h.effect.registration?, Footprint.append, Footprint.append,
      add_comm g.mints]
  · exact h'.effect.frozen.trans h.effect.frozen.symm
  · rw [hz.nextEventId, hy.nextEventId]
    simp only [List.length_append]
    omega
  · rw [h'.clock, h.clock]
    refine List.perm_append_comm.foldl_eq' ?_ _
    intro a _ b _ clock
    exact max_right_comm clock a.1 b.1

section Reserve

variable [Reserve ρ]

/-- Two answers about different tokens touch different connectors, or none. -/
theorem Fills.tables_comm {y' : Exchange ρ} (h : x.Fills o a y) (h' : x.Fills o' a' y')
    (hkeys : ∀ t ∈ x.traded? o.given o.wanted, ∀ t' ∈ x.traded? o'.given o'.wanted,
      t'.key ≠ t.key) (s : Tables) :
    ((x.footprint o a).payloads ++ (x.footprint o' a').payloads).foldl Tables.apply s =
      ((x.footprint o' a').payloads ++ (x.footprint o a).payloads).foldl Tables.apply s := by
  cases h with
  | unheard h => simp [footprint, Footprint.payloads, h]
  | refused h => simp [footprint, Footprint.payloads, h, Tables.apply]
  | @filled r c conf reg l plans =>
    cases h' with
    | unheard h' => simp [footprint, Footprint.payloads, h']
    | refused h' => simp [footprint, Footprint.payloads, h', Tables.apply]
    | @filled r' c' conf' reg' l' plans' =>
      have hkey : r.plan.smart.key ≠ r'.plan.smart.key := by
        rw [plans.smart_eq, plans'.smart_eq]
        exact (hkeys c.smart plans.traded? c'.smart plans'.traded?).symm
      rw [footprint_ok plans.configuration, footprint_ok plans'.configuration]
      exact Tables.apply_converted_comm hkey s

namespace Agrees

variable {smart? : Option Token} {sender : Account}

omit [Reserve ρ] in
theorem footprint_eq (h : x.Agrees y sender smart?) : y.footprint o a = x.footprint o a := by
  cases a with
  | ok r => rw [footprint, h.configuration, h.contract, h.settings, footprint]
  | error e =>
    have hhears : y.Hears o.signers o.sender o.given o.wanted ↔
        x.Hears o.signers o.sender o.given o.wanted := by
      rw [Hears, h.configuration, Hears]
    by_cases hheard : x.Hears o.signers o.sender o.given o.wanted
    · rw [footprint, footprint, if_pos hheard, if_pos (hhears.2 hheard)]
    · rw [footprint, footprint, if_neg hheard, if_neg (mt hhears.1 hheard)]

theorem trades (h : x.Agrees y sender smart?) (ho : x.Trades o) : y.Trades o := by
  obtain ⟨hcontract, howner, hreserve⟩ := ho
  rw [traded?, ← h.configuration, ← h.reserve] at hreserve
  refine ⟨h.contract.symm ▸ hcontract, ?_, hreserve⟩
  rw [h.configuration]
  exact howner

/-- An order is answered with `a` in both exchanges or in none. -/
theorem exists_fill_iff (hx : x.WellFormed) (hy : y.WellFormed) (hsx : x.Solvent)
    (hsy : y.Solvent) (h : x.Agrees y o.sender (x.traded? o.given o.wanted)) (ho : x.Trades o) :
    (∃ z, y.fill o = .ok ⟨a, z⟩) ↔ ∃ z, x.fill o = .ok ⟨a, z⟩ := by
  have hanswer : (y.fill o).map (·.answer) = (x.fill o).map (·.answer) :=
    h.convert_answer hx hy hsx hsy ho.sender_ne_contract ho.unreserved
  have hmap : ∀ r : Except Abort (Reply ρ Receipt),
      (∃ z, r = .ok ⟨a, z⟩) ↔ r.map (·.answer) = .ok a := by
    intro r
    rcases r with abort | ⟨answer, z⟩
    · simp [Except.map]
    · simp [Except.map]
  rw [hmap, hmap, hanswer]

end Agrees

variable [LawfulReserve ρ]

/-- Take a reachable, solvent exchange whose contract is not its owner, and the orders of two
traders for two tokens without reserves. If the one and then the other can be filled without an
abort, so can the other and then the one. Each trader gets the same answer either way, and after
both the exchange holds the same, for every account and every token. Journal and log have what each
of the orders adds to them on its own, in the one sequence or in the other. -/
theorem conversions_commute {x₁ x₁₂ : Exchange ρ} {o₁ o₂ : Order}
    {a₁ a₂ : Except ExchangeError Receipt} (hx : x.Reachable) (hsolvent : x.Solvent)
    (howner : ∀ conf ∈ x.configuration.get?, conf.owner ≠ x.contract)
    (ho₁ : x.Trades o₁) (ho₂ : x.Trades o₂) (hsenders : o₁.sender ≠ o₂.sender)
    (hkeys : ∀ t₁ ∈ x.traded? o₁.given o₁.wanted, ∀ t₂ ∈ x.traded? o₂.given o₂.wanted,
      t₁.key ≠ t₂.key)
    (h₁ : x.fill o₁ = .ok ⟨a₁, x₁⟩) (h₁₂ : x₁.fill o₂ = .ok ⟨a₂, x₁₂⟩) :
    ∃ x₂ x₂₁ e₁ e₂ p₁ p₂, x.fill o₂ = .ok ⟨a₂, x₂⟩ ∧ x₂.fill o₁ = .ok ⟨a₁, x₂₁⟩ ∧
      x₁₂.HoldsSame x₂₁ ∧ x.Appends x₁ e₁ p₁ ∧ x.Appends x₂ e₂ p₂ ∧
      x.Appends x₁₂ (e₁ ++ e₂) (p₁ ++ p₂) ∧ x.Appends x₂₁ (e₂ ++ e₁) (p₂ ++ p₁) := by
  obtain ⟨settings, reserve, trace, hrun⟩ := hx
  have hwf := hrun.wellFormed
  have hchronicle := hrun.chronicle
  -- the first order changes nothing for the second one
  have hfills₁ := fills_of_fill hwf ho₁ h₁
  have hwf₁ := wellFormed_of_fill hwf h₁
  have hsolvent₁ := hfills₁.solvent hwf hsolvent howner ho₁
  have hagrees₁ := hfills₁.agrees ho₂ hsenders.symm fun t ht t' ht' => (hkeys t ht t' ht').symm
  obtain ⟨x₂, h₂⟩ := (hagrees₁.exists_fill_iff hwf hwf₁ hsolvent hsolvent₁ ho₂).1 ⟨x₁₂, h₁₂⟩
  -- nor the second one for the first
  have hfills₂ := fills_of_fill hwf ho₂ h₂
  have hwf₂ := wellFormed_of_fill hwf h₂
  have hsolvent₂ := hfills₂.solvent hwf hsolvent howner ho₂
  have hagrees₂ := hfills₂.agrees ho₁ hsenders fun t ht t' ht' => hkeys t' ht' t ht
  obtain ⟨x₂₁, h₂₁⟩ := (hagrees₂.exists_fill_iff hwf hwf₂ hsolvent hsolvent₂ ho₁).2 ⟨x₁, h₁⟩
  -- so both add the same in either order
  have hgains₁₂ := (fills_of_fill hwf₁ (hagrees₁.trades ho₂) h₁₂).gains
  have hgains₂₁ := (fills_of_fill hwf₂ (hagrees₂.trades ho₁) h₂₁).gains
  rw [hagrees₁.footprint_eq] at hgains₁₂
  rw [hagrees₂.footprint_eq] at hgains₂₁
  have hforth := hfills₁.gains.trans hgains₁₂
  have hback := hfills₂.gains.trans hgains₂₁
  have htables := hfills₁.tables_comm hfills₂ fun t ht t' ht' => (hkeys t ht t' ht').symm
  have hforth_appends := hforth.appends hchronicle
  have hback_appends := hback.appends hchronicle
  rw [Footprint.payloads, Footprint.append, List.map_append] at hforth_appends hback_appends
  exact ⟨x₂, x₂₁, _, _, _, _, h₂, h₂₁, hforth.holdsSame hchronicle hback htables,
    hfills₁.gains.appends hchronicle, hfills₂.gains.appends hchronicle, hforth_appends,
    hback_appends⟩

end Reserve

end Exchange

/-! ## Two markets -/

namespace Sample

def other : Token := ⟨⟨"OTH", 4⟩, ⟨"gxc.token"⟩⟩

def bob : Account := ⟨"bob"⟩

/-- The market and another one, for a token of which bob has some. -/
def markets : List (Exchange.Action Pool) :=
  market ++
    [.ledger (.createToken other 1000000), .ledger (.issue owner ⟨500, connected⟩ ""),
      .ledger (.issue bob ⟨2000, other⟩ ""),
      .connect 0 [contract] other ⟨500, connected⟩ ⟨5, 1, false⟩]

def aliceBuys : Order := ⟨0, [alice], alice, ⟨1000, connected⟩, ⟨0, smart⟩⟩

def bobSells : Order := ⟨0, [bob], bob, ⟨300, other⟩, ⟨0, connected⟩⟩

end Sample

namespace Exchange

/-- In two markets alice buys the token of the one and bob sells that of the other, in either
order. -/
theorem buy_and_sale_commute :
    ∃ (x x₁ x₂ x₁₂ x₂₁ : Exchange Pool) (r₁ r₂ : Receipt), x.Reachable ∧
      x.fill Sample.aliceBuys = .ok ⟨.ok r₁, x₁⟩ ∧
      x₁.fill Sample.bobSells = .ok ⟨.ok r₂, x₁₂⟩ ∧
      x.fill Sample.bobSells = .ok ⟨.ok r₂, x₂⟩ ∧
      x₂.fill Sample.aliceBuys = .ok ⟨.ok r₁, x₂₁⟩ ∧
      r₁.plan.receive.amount = 733 ∧ r₂.plan.receive.amount = 137 ∧ x₁₂.HoldsSame x₂₁ := by
  have hyields : Abort.Yields (inMemory.trace Sample.markets) fun r =>
      r.2.Solvent ∧ r.2.contract = Sample.contract ∧
        r.2.reserve = .empty Pool.defaultAccount ∧
        r.2.configuration.get? = some ⟨Sample.connected, ⟨10⟩, 0, Sample.owner⟩ ∧
        r.2.traded? Sample.aliceBuys.given Sample.aliceBuys.wanted = some Sample.smart ∧
        r.2.traded? Sample.bobSells.given Sample.bobSells.wanted = some Sample.other ∧
        Abort.Yields (r.2.fill Sample.aliceBuys) fun reply =>
          Abort.Yields reply.answer (·.plan.receive.amount = 733) ∧
            Abort.Yields (reply.exchange.fill Sample.bobSells) fun reply =>
              Abort.Yields reply.answer (·.plan.receive.amount = 137) := by
    decide +kernel
  obtain ⟨⟨_, x⟩, hr, hsolvent, hcontract, hreserve, hconf, htraded₁, htraded₂, ⟨_, x₁⟩, h₁,
    ⟨r₁, rfl, hr₁⟩, ⟨_, x₁₂⟩, h₁₂, r₂, rfl, hr₂⟩ := hyields
  have hreach : x.Reachable := Sample.reachable_trace (by decide) hr
  have hunreserved : ∀ t, Reserve.hasReserve x.reserve t = false := by
    intro t
    rw [show x.reserve = .empty Pool.defaultAccount from hreserve]
    rfl
  have hparties : Sample.owner ≠ x.contract ∧ Sample.alice ≠ x.contract ∧
      Sample.bob ≠ x.contract := by
    rw [show x.contract = Sample.contract from hcontract]
    decide
  have howner : ∀ conf ∈ x.configuration.get?, conf.owner = Sample.owner := by
    intro conf hmem
    cases hconf.symm.trans hmem
    rfl
  have htrades₁ : x.Trades Sample.aliceBuys :=
    ⟨hparties.2.1, fun conf hmem => howner conf hmem ▸ by decide, fun t _ => hunreserved t⟩
  have htrades₂ : x.Trades Sample.bobSells :=
    ⟨hparties.2.2, fun conf hmem => howner conf hmem ▸ by decide, fun t _ => hunreserved t⟩
  have hkeys : ∀ t₁ ∈ x.traded? Sample.aliceBuys.given Sample.aliceBuys.wanted,
      ∀ t₂ ∈ x.traded? Sample.bobSells.given Sample.bobSells.wanted, t₁.key ≠ t₂.key := by
    intro t₁ ht₁ t₂ ht₂
    cases htraded₁.symm.trans ht₁
    cases htraded₂.symm.trans ht₂
    decide
  obtain ⟨x₂, x₂₁, _, _, _, _, h₂, h₂₁, hsame, _⟩ := conversions_commute hreach hsolvent
    (fun conf hmem => howner conf hmem ▸ hparties.1) htrades₁ htrades₂ (by decide) hkeys h₁ h₁₂
  exact ⟨x, x₁, x₂, x₁₂, x₂₁, r₁, r₂, hreach, h₁, h₁₂, h₂, h₂₁, hr₁, hr₂, hsame⟩

end Exchange
end BondingCurve
