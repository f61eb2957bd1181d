import BondingCurve.Proofs.Exchange.Settlement
import BondingCurve.Exchange.Administration

/-!
# An exchange in place

The operations of an exchange give a new exchange, and one that fails half way has written
nothing. An exchange that is kept in one place is written to step by step, and what a step wrote
before another one failed has to be put back: `InPlace` is a computation on such an exchange, and
`atomically` takes a snapshot before it and restores it after an error.

`InPlace.Follows` relates a computation in place to one that passes the exchange on. It has one
rule for each kind of step, and with these every operation in place is shown to answer as the
operation proper does (`connect_start`, `convert_start` and so on), whichever of its steps fails.
-/

namespace BondingCurve

open Outcome

/-- A computation on an exchange in place. What it wrote before an error stays written. -/
abbrev InPlace (ρ α : Type) := ExceptT ExchangeError (StateT (Exchange ρ) (Except Abort)) α

/-- The exchange `y` with all that a snapshot of `x` holds put back. The log and the clock are no
part of a snapshot. -/
def Exchange.restore {ρ : Type} (y x : Exchange ρ) : Exchange ρ :=
  { y with
    configuration := x.configuration
    connectors := x.connectors
    charges := x.charges
    ledger := x.ledger
    reserve := x.reserve }

namespace InPlace

variable {ρ α β γ : Type}

/-- Run a computation on the exchange `x`. -/
def start (p : InPlace ρ α) (x : Exchange ρ) : Except Abort (Exchange.Reply ρ α) := do
  let (answer, exchange) ← p.run.run x
  return ⟨answer, exchange⟩

/-! ## Steps -/

/-- Look at the exchange and write nothing. -/
def access (f : Exchange ρ → Outcome ExchangeError α) : InPlace ρ α :=
  ExceptT.mk fun x => do return (← (f x).run, x)

/-- Write without any check. -/
def write (f : Exchange ρ → Exchange ρ) : InPlace ρ Unit := ExceptT.mk fun x => pure (.ok (), f x)

/-- An operation on the ledger. One that fails has left the ledger alone. -/
def moves (f : Exchange ρ → Outcome LedgerError Ledger) : InPlace ρ Unit :=
  ExceptT.mk fun x => do
    match ← (f x).run with
    | .ok ledger => return (.ok (), { x with ledger })
    | .error e => return (.error (.ledger e), x)

/-- A claim on the reserve. One that fails may have moved tokens before. -/
def claim [Reserve ρ] (value : Asset) : InPlace ρ Asset :=
  ExceptT.mk fun x => do
    let claimed ← Reserve.claim x.reserve x.ledger x.contract value
    let y := { x with ledger := claimed.ledger, reserve := claimed.reserve }
    match claimed.payout with
    | .ok payout => return (.ok payout, y)
    | .error e => return (.error (.reserve e), y)

def emit (now : Int) (payload : Event.Payload) : InPlace ρ Unit := write (·.emit now payload)

/-- Run `body` as one unit: after an error all it has written is put back. -/
def atomically (body : InPlace ρ α) : InPlace ρ α :=
  ExceptT.mk fun x => do
    match ← body.run.run x with
    | (.ok a, y) => return (.ok a, y)
    | (.error e, y) => return (.error e, y.restore x)

/-- Run `body` and go on with its result, also after an error. -/
def attempt (body : InPlace ρ α) : InPlace ρ (Except ExchangeError α) :=
  ExceptT.mk fun x => do
    let (answer, y) ← body.run.run x
    return (.ok answer, y)

/-! ## Administration -/

/-- Tell of the change that `body` makes. -/
def announce (now : Int) (body : InPlace ρ Event.Payload) : InPlace ρ Unit := do
  emit now (← body)

/-- The configuration is written last, so there is nothing to put back. -/
def init (now : Int) (signers : Signers) (owner : Account) (connected : Token) : InPlace ρ Unit :=
  announce now do
    access fun x => signers.require x.contract
    if (← access fun x => pure x.configuration.isFilled) then throw .alreadyInitialized
    access fun _ => Exchange.requireValid connected
    write fun x => { x with configuration := x.configuration.set (.new owner connected) }
    return .initialized owner connected

/-- Here, too, the configuration is written last. -/
def setOwner (now : Int) (signers : Signers) (owner : Account) : InPlace ρ Unit :=
  announce now do
    access fun x => signers.require x.contract
    let c ← access Exchange.requireConfiguration
    write fun x => { x with configuration := x.configuration.set { c with owner } }
    return .ownerChanged c.owner owner

/-- The connector is there before its balance is paid. -/
def connect (now : Int) (signers : Signers) (smart : Token) (balance : Asset) (weight : Decimal) :
    InPlace ρ Unit :=
  announce now do
    access fun x => signers.require x.contract
    atomically do
      let c ← access Exchange.requireConfiguration
      access fun _ => Exchange.requireValid smart
      access fun _ => Exchange.requireConnected c balance.token
      if c.isConnected smart then throw (.invalidRequest .connectedAsSmart)
      if !balance.isPositive then throw (.invalidRequest (.initialBalance balance))
      match Weight.ofDecimal? weight with
      | none => throw (.invalidWeight weight)
      | some weight =>
        if (← access fun x => pure (x.connectors.contains smart.key)) then
          throw (.connectorAlreadyExists smart)
        let connector : Connector := ⟨smart, balance, weight⟩
        write fun x => { x with connectors := x.connectors.insert smart.key connector }
        moves fun x => x.ledger.transfer c.owner x.contract balance Exchange.connectMemo
        return .connected connector

/-- Write a new default policy over the old one. -/
def setDefaultPolicy (c : Configuration) (rate : Int) (fixed : Option Asset) :
    InPlace ρ Event.Payload := do
  let feeRate ← access fun _ => Exchange.requireRate rate
  let c := { c with feeRate, fixedFee := (fixed.map (·.amount)).getD c.fixedFee }
  write fun x => { x with configuration := x.configuration.set c }
  return .chargeUpdated none c.defaultPolicy

/-- Write or erase the policy of one token. -/
def setPolicy (rate : Int) (fixed : Option Asset) (smart : Token) : InPlace ρ Event.Payload := do
  if rate = Exchange.removeRate then
    if (← access fun x => pure (x.charges.contains smart.key)) then
      write fun x => { x with charges := x.charges.erase smart.key }
      return .chargeRemoved smart
    else throw (.feePolicyNotFound smart)
  else
    let rate ← access fun _ => Exchange.requireRate rate
    let old ← access fun x => pure (((x.policy? smart).map (·.fixed)).getD 0)
    let policy : FeePolicy := ⟨rate, (fixed.map (·.amount)).getD old⟩
    write fun x => { x with charges := x.charges.insert smart.key policy }
    return .chargeUpdated (some smart) policy

/-- Check a change of a fee, write it, and log it. -/
def setCharge (now : Int) (signers : Signers) (rate : Int) (fixed : Option Asset)
    (target : Option Token) : InPlace ρ Unit :=
  announce now do
    access fun x => signers.require x.contract
    atomically do
      let c ← access Exchange.requireConfiguration
      if let some fixed := fixed then
        access fun _ => Exchange.requireConnected c fixed.token
      match target with
      | none => setDefaultPolicy c rate fixed
      | some smart => setPolicy rate fixed smart

/-! ## Conversions -/

/-- Pay the owner's fee, if there is one. -/
def payFee (owner : Account) (fee : Asset) : InPlace ρ Unit := do
  if fee.isPositive then
    moves fun x => x.ledger.transfer x.contract owner fee x.settings.feeMemo
  else return ()

variable [Reserve ρ]

/-- The payout is checked when the reserve has paid it. -/
def redeem (plan : Plan) : InPlace ρ Unit := do
  let payout ← claim plan.pay
  let needed ← access fun _ => liftM (Amount.add plan.receive.amount plan.fee.amount)
  if payout.token ≠ plan.receive.token ∨ payout.amount < needed then
    throw (.reserve (.insufficientUnderlying plan.smart payout.amount needed))

/-- Take the sold tokens in: redeem them or burn them. -/
def takeIn (plan : Plan) : InPlace ρ Unit := do
  if plan.overrideApplied then redeem plan
  else moves fun x => x.ledger.retire x.contract plan.pay Exchange.convertMemo

/-- The connector is written before the first token moves. -/
def settle (sender : Account) (c : Connector) (plan : Plan) : InPlace ρ Asset := do
  let owner := (← access Exchange.requireConfiguration).owner
  let c ← access fun _ => liftM (c.withDelta plan.balanceDelta)
  write fun x => { x with connectors := x.connectors.insert c.smart.key c }
  moves fun x => x.ledger.transfer sender x.contract plan.pay Exchange.convertMemo
  match plan.direction with
  | .buy =>
    payFee owner plan.fee
    moves fun x => x.ledger.issue sender plan.receive Exchange.convertMemo
    return c.balance
  | .sell =>
    takeIn plan
    payFee owner plan.fee
    moves fun x => x.ledger.transfer x.contract sender plan.receive Exchange.convertMemo
    return c.balance

/-- Plan a conversion and settle it, step by step. -/
def conversion (sender : Account) (given wanted : Asset) : InPlace ρ Receipt := do
  let (plan, c) ← access fun x => x.plan given wanted
  let balanceAfter ← settle sender c plan
  return ⟨plan, balanceAfter⟩

/-- Convert as one unit, and log what has come of it. -/
def convert (now : Int) (signers : Signers) (sender : Account) (given wanted : Asset) :
    InPlace ρ Receipt := do
  access fun x => x.checkRequest signers sender given wanted
  match ← attempt (atomically (conversion sender given wanted)) with
  | .ok receipt =>
    emit now (.converted (receipt.record sender))
    return receipt
  | .error e =>
    emit now (.conversionRejected sender given wanted e.message)
    throw e

/-! ## Following the exchange that is passed on -/

omit [Reserve ρ]

/-- At `x`, the computation in place does what `o` says: it gives the value and the exchange that
`view` finds in the result of `o`, it aborts as `o` does, or it fails with the error of `o` and
leaves an exchange of which `Leaves` holds. -/
inductive Follows (Leaves : Exchange ρ → Prop) (x : Exchange ρ) (p : InPlace ρ α)
    (o : Outcome ExchangeError β) (view : β → Exchange ρ × α) : Prop
  | returns {b : β} (ho : o.Returns b) (hp : p.run.run x = .ok (.ok (view b).2, (view b).1))
  | fails {e : ExchangeError} {z : Exchange ρ} (ho : o.run = .ok (.error e))
      (hp : p.run.run x = .ok (.error e, z)) (hz : Leaves z)
  | aborts {a : Abort} (ho : o.run = .error a) (hp : p.run.run x = .error a)

namespace Follows

variable {Leaves : Exchange ρ → Prop} {x : Exchange ρ} {p : InPlace ρ α} {q : α → InPlace ρ γ}
  {o : Outcome ExchangeError β} {δ : Type} {o' : β → Outcome ExchangeError δ}
  {view : β → Exchange ρ × α} {view' : δ → Exchange ρ × γ}

/-- Only what a computation comes to counts. -/
theorem of_run_eq {y : Exchange ρ} {p' : InPlace ρ α} (h : Follows Leaves x p o view)
    (hrun : p'.run.run y = p.run.run x) : Follows Leaves y p' o view := by
  cases h with
  | returns ho hp => exact .returns ho (hrun.trans hp)
  | fails ho hp hz => exact .fails ho (hrun.trans hp) hz
  | aborts ho hp => exact .aborts ho (hrun.trans hp)

/-! ### One step after the other -/

/-- A step that returns is followed by the rest, from what it has left. -/
theorem run_bind_ok {y : Exchange ρ} {a : α} (h : p.run.run x = .ok (.ok a, y)) :
    (p >>= q).run.run x = (q a).run.run y := by
  show (p.run.run x >>= fun r => (ExceptT.bindCont q r.1).run r.2) = _
  rw [h]
  rfl

/-- A step that fails ends the program, and what it has left stays. -/
theorem run_bind_error {z : Exchange ρ} {e : ExchangeError}
    (h : p.run.run x = .ok (.error e, z)) : (p >>= q).run.run x = .ok (.error e, z) := by
  show (p.run.run x >>= fun r => (ExceptT.bindCont q r.1).run r.2) = _
  rw [h]
  rfl

/-- A step that aborts ends everything. -/
theorem run_bind_abort {a : Abort} (h : p.run.run x = .error a) :
    (p >>= q).run.run x = .error a := by
  show (p.run.run x >>= fun r => (ExceptT.bindCont q r.1).run r.2) = _
  rw [h]
  rfl

/-- Programs follow outcomes step by step. -/
theorem bind (h : Follows Leaves x p o view)
    (hq : ∀ b, o.Returns b → Follows Leaves (view b).1 (q (view b).2) (o' b) view') :
    Follows Leaves x (p >>= q) (o >>= o') view' := by
  cases h with
  | @returns b ho hp =>
    have hbind : (o >>= o').run = (o' b).run := by
      rw [ExceptT.run_bind, ho]
      rfl
    cases hq b ho with
    | returns ho' hp' => exact .returns (hbind.trans ho') ((run_bind_ok hp).trans hp')
    | fails ho' hp' hz => exact .fails (hbind.trans ho') ((run_bind_ok hp).trans hp') hz
    | aborts ho' hp' => exact .aborts (hbind.trans ho') ((run_bind_ok hp).trans hp')
  | fails ho hp hz =>
    refine .fails ?_ (run_bind_error hp) hz
    rw [ExceptT.run_bind, ho]
    rfl
  | aborts ho hp =>
    refine .aborts ?_ (run_bind_abort hp)
    rw [ExceptT.run_bind, ho]
    rfl

/-- The end of a computation. -/
theorem pure {a : α} {b : β} (h : view b = (x, a)) :
    Follows Leaves x (pure a : InPlace ρ α) (pure b) view := by
  refine .returns rfl ?_
  rw [h]
  rfl

theorem throw (hx : Leaves x) (e : ExchangeError) :
    Follows Leaves x (throw e : InPlace ρ α) (throw e) view := .fails rfl rfl hx

/-- An error ends both computations, whatever was to come. -/
theorem throw_bind (hx : Leaves x) (e : ExchangeError) {k : γ → InPlace ρ α}
    {k' : δ → Outcome ExchangeError β} :
    Follows Leaves x (MonadExcept.throw e >>= k) (MonadExcept.throw e >>= k') view :=
  .fails rfl rfl hx

theorem run_access {f : Exchange ρ → Outcome ExchangeError α} {r : Except ExchangeError α}
    (h : (f x).run = .ok r) : (InPlace.access f).run.run x = .ok (r, x) := by
  show ((f x).run >>= _) = _
  rw [h]
  rfl

theorem run_access_abort {f : Exchange ρ → Outcome ExchangeError α} {a : Abort}
    (h : (f x).run = .error a) : (InPlace.access f).run.run x = .error a := by
  show ((f x).run >>= _) = _
  rw [h]
  rfl

/-- Both computations look at the same thing. -/
theorem access (hx : Leaves x) {f : Exchange ρ → Outcome ExchangeError α}
    {k : α → Outcome ExchangeError δ}
    (h : ∀ a, (f x).Returns a → Follows Leaves x (q a) (k a) view') :
    Follows Leaves x (access f >>= q) (f x >>= k) view' := by
  have hstep : Follows Leaves x (InPlace.access f) (f x) fun a => (x, a) := by
    rcases hf : (f x).run with abort | e | a
    · exact .aborts hf (run_access_abort hf)
    · exact .fails hf (run_access hf) hx
    · exact .returns hf (run_access hf)
  exact hstep.bind h

/-- Only the computation in place has to look at what the other one has at hand. -/
theorem peek {f : Exchange ρ → α} {k : Outcome ExchangeError δ}
    (h : Follows Leaves x (q (f x)) k view') :
    Follows Leaves x (InPlace.access (fun x => Pure.pure (f x)) >>= q) k view' :=
  h.of_run_eq rfl

/-- Writing is followed by what the outcome does to the value. -/
theorem write {f : Exchange ρ → Exchange ρ} {q : Unit → InPlace ρ γ}
    {k : Outcome ExchangeError δ} (h : Follows Leaves (f x) (q ()) k view') :
    Follows Leaves x (InPlace.write f >>= q) k view' := h.of_run_eq rfl

/-- A movement on the ledger is followed where it returns, and leaves the exchange where it fails.
-/
theorem moves (hx : Leaves x) {f : Exchange ρ → Outcome LedgerError Ledger}
    {q : Unit → InPlace ρ γ} {k : Ledger → Outcome ExchangeError δ}
    (h : ∀ l, (f x).Returns l → Follows Leaves { x with ledger := l } (q ()) (k l) view') :
    Follows Leaves x (InPlace.moves f >>= q) (liftM (f x) >>= k) view' := by
  have hlift : (liftM (f x) : Outcome ExchangeError Ledger).run =
      Except.mapError .ledger <$> (f x).run := rfl
  have hstep : Follows Leaves x (InPlace.moves f) (liftM (f x))
      fun l => ({ x with ledger := l }, ()) := by
    rcases hf : (f x).run with abort | e | l
    · refine .aborts (by rw [hlift, hf]; rfl) ?_
      show ((f x).run >>= _) = _
      rw [hf]
      rfl
    · refine .fails (by rw [hlift, hf]; rfl) ?_ hx
      show ((f x).run >>= _) = _
      rw [hf]
      rfl
    · refine .returns (by rw [returns_def, hlift, hf]; rfl) ?_
      show ((f x).run >>= _) = _
      rw [hf]
      rfl
  exact hstep.bind fun l hl => h l (returns_liftLedger.1 hl)

/-- An operation on the ledger ends the computation. -/
theorem moves_pure (hx : Leaves x) {f : Exchange ρ → Outcome LedgerError Ledger}
    {k : Ledger → δ} {view : δ → Exchange ρ × Unit}
    (h : ∀ l, view (k l) = ({ x with ledger := l }, ())) :
    Follows Leaves x (InPlace.moves f) (do return k (← f x)) view := by
  rw [← bind_pure (InPlace.moves f)]
  exact .moves hx fun l _ => .pure (h l)

/-! ### Whole operations -/

/-- A snapshot makes up for whatever a failed computation has written. -/
theorem atomically (h : Follows (fun z => z.restore x = x) x p o view) :
    Follows (fun z => z = x) x (atomically p) o view := by
  cases h with
  | returns ho hp =>
    refine .returns ho ?_
    show (p.run.run x >>= _) = _
    rw [hp]
    rfl
  | fails ho hp hz =>
    refine .fails ho ?_ hz
    show (p.run.run x >>= _) = _
    rw [hp]
    rfl
  | aborts ho hp =>
    refine .aborts ho ?_
    show (p.run.run x >>= _) = _
    rw [hp]
    rfl

theorem run_attempt {y : Exchange ρ} {r : Except ExchangeError α}
    (h : p.run.run x = .ok (r, y)) : (attempt p).run.run x = .ok (.ok r, y) := by
  show (p.run.run x >>= _) = _
  rw [h]
  rfl

theorem run_attempt_abort {a : Abort} (h : p.run.run x = .error a) :
    (attempt p).run.run x = .error a := by
  show (p.run.run x >>= _) = _
  rw [h]
  rfl

/-- A change that leaves nothing behind when it fails is a committed one. -/
theorem announce_start {body : InPlace ρ Event.Payload}
    {change : Outcome ExchangeError (Exchange.Change ρ)} {now : Int}
    (h : Follows (fun z => z = x) x body change id) :
    (announce now body).start x = x.commit now change := by
  unfold start announce Exchange.commit
  cases h with
  | @returns b ho hp =>
    rw [run_bind_ok hp, ho]
    rfl
  | fails ho hp hz =>
    rw [run_bind_error hp, ho, hz]
    rfl
  | aborts ho hp =>
    rw [run_bind_abort hp, ho]
    rfl

end Follows

variable {x : Exchange ρ} {Leaves : Exchange ρ → Prop}

/-! ## Administration follows -/

/-- Started in place, `init` answers and leaves what it does by value. -/
theorem init_start (now : Int) (signers : Signers) (owner : Account) (connected : Token) :
    (init now signers owner connected).start x = x.init now signers owner connected := by
  apply Follows.announce_start
  unfold Exchange.initChange
  refine .access (by rfl) fun _ _ => .peek ?_
  split
  · exact .throw_bind (by rfl) _
  · exact .access (by rfl) fun _ _ => .write (.pure (by rfl))

theorem setOwner_start (now : Int) (signers : Signers) (owner : Account) :
    (setOwner now signers owner).start x = x.setOwner now signers owner := by
  apply Follows.announce_start
  unfold Exchange.setOwnerChange
  exact .access (by rfl) fun _ _ => .access (by rfl) fun _ _ => .write (.pure (by rfl))

theorem connect_start (now : Int) (signers : Signers) (smart : Token) (balance : Asset)
    (weight : Decimal) :
    (connect now signers smart balance weight).start x =
      x.connect now signers smart balance weight := by
  apply Follows.announce_start
  unfold Exchange.connectChange
  refine .access (by rfl) fun _ _ => .atomically ?_
  refine .access (by rfl) fun c _ => .access (by rfl) fun _ _ => .access (by rfl) fun _ _ => ?_
  dsimp only
  split
  · exact .throw_bind (by rfl) _
  split
  · exact .throw_bind (by rfl) _
  cases hweight : Weight.ofDecimal? weight with
  | none => exact .throw (by rfl) _
  | some weight =>
    refine .peek ?_
    split
    · exact .throw_bind (by rfl) _
    -- from here on the connector is there, and the deposit may fail
    · exact .write (.moves (by rfl) fun _ _ => .pure (by rfl))

theorem setDefaultPolicy_follows (hx : Leaves x) (c : Configuration) (rate : Int)
    (fixed : Option Asset) :
    Follows Leaves x (setDefaultPolicy c rate fixed) (x.setDefaultPolicy c rate fixed) id :=
  .access hx fun _ _ => .write (.pure (by rfl))

theorem setPolicy_follows (hx : Leaves x) (rate : Int) (fixed : Option Asset) (smart : Token) :
    Follows Leaves x (setPolicy rate fixed smart) (x.setPolicy rate fixed smart) id := by
  unfold setPolicy Exchange.setPolicy
  split
  · refine .peek ?_
    split
    · exact .write (.pure (by rfl))
    · exact .throw hx _
  · exact .access hx fun _ _ => .peek (.write (.pure (by rfl)))

theorem setCharge_start (now : Int) (signers : Signers) (rate : Int) (fixed : Option Asset)
    (target : Option Token) :
    (setCharge now signers rate fixed target).start x =
      x.setCharge now signers rate fixed target := by
  apply Follows.announce_start
  unfold Exchange.setChargeChange
  refine .access (by rfl) fun _ _ => .atomically ?_
  refine .access (by rfl) fun c _ => ?_
  have hpolicy : Follows (fun z => z.restore x = x) x
      (match target with
        | none => setDefaultPolicy c rate fixed
        | some smart => setPolicy rate fixed smart)
      (match target with
        | none => x.setDefaultPolicy c rate fixed
        | some smart => x.setPolicy rate fixed smart) id := by
    cases target with
    | none => exact setDefaultPolicy_follows (by rfl) c rate fixed
    | some smart => exact setPolicy_follows (by rfl) rate fixed smart
  cases fixed with
  | none => exact hpolicy
  | some fixed => exact .access (by rfl) fun _ _ => hpolicy

/-! ## Conversions follow -/

section

variable {y : Exchange ρ} {sender owner : Account} {fee : Asset} {plan : Plan}

theorem payFee_follows (hx : Leaves x) :
    Follows Leaves x (payFee owner fee) (x.payFee owner fee) (fun y => (y, ())) := by
  unfold payFee Exchange.payFee
  split
  · exact .moves_pure hx fun _ => rfl
  · exact .pure (by rfl)

variable [Reserve ρ]

/-- What a claim has written, failed or not. -/
theorem run_claim {value : Asset} {claimed : ClaimResult ρ}
    (h : Reserve.claim x.reserve x.ledger x.contract value = .ok claimed) :
    (claim value).run.run x = .ok (claimed.payout.mapError .reserve,
      { x with ledger := claimed.ledger, reserve := claimed.reserve }) := by
  show (Reserve.claim x.reserve x.ledger x.contract value >>= _) = _
  rw [h]
  rcases claimed with ⟨e | payout, _, _⟩
  · rfl
  · rfl

/-- A claim writes even where it fails, so any ledger and any reserve may be left. -/
theorem redeem_follows (hx : ∀ ledger reserve, Leaves { x with ledger, reserve }) :
    Follows Leaves x (redeem plan) (x.redeem plan) (fun y => (y, ())) := by
  unfold redeem Exchange.redeem
  rcases hclaim : Reserve.claim x.reserve x.ledger x.contract plan.pay with abort | claimed
  · refine .aborts rfl (Follows.run_bind_abort ?_)
    show (Reserve.claim x.reserve x.ledger x.contract plan.pay >>= _) = _
    rw [hclaim]
    rfl
  · have hrun := run_claim hclaim
    obtain ⟨e | payout, ledger, reserve⟩ := claimed
    · exact .fails rfl (Follows.run_bind_error hrun) (hx ledger reserve)
    · -- the reserve has paid, and its payout may be too little
      refine Follows.of_run_eq (x := { x with ledger, reserve }) ?_ (Follows.run_bind_ok hrun)
      refine Follows.access (hx ledger reserve)
        (f := fun _ => liftM (Amount.add plan.receive.amount plan.fee.amount)) fun needed _ => ?_
      split
      · exact .fails rfl rfl (hx ledger reserve)
      · exact .pure rfl

/-- Taking tokens in may leave a changed ledger behind even where it fails. -/
theorem takeIn_follows (hx : ∀ ledger reserve, Leaves { x with ledger, reserve }) :
    Follows Leaves x (takeIn plan) (x.takeIn plan) (fun y => (y, ())) := by
  unfold takeIn Exchange.takeIn
  split
  · exact redeem_follows hx
  · exact .moves_pure (hx x.ledger x.reserve) fun _ => rfl

/-- Every step of a settlement may fail after the connector was written. -/
theorem settle_follows (c : Connector)
    (hx : ∀ connectors ledger reserve, Leaves { x with connectors, ledger, reserve }) :
    Follows Leaves x (settle sender c plan) (x.settle sender c plan) id := by
  unfold settle Exchange.settle
  refine .access (hx x.connectors x.ledger x.reserve) fun conf _ => ?_
  refine .access (f := fun _ => liftM (c.withDelta plan.balanceDelta))
    (hx x.connectors x.ledger x.reserve) fun c' _ => .write ?_
  refine .moves (hx _ x.ledger x.reserve) fun paid _ => ?_
  cases plan.direction with
  | buy =>
    refine .bind (payFee_follows (hx _ paid x.reserve)) fun y hy => ?_
    obtain ⟨charged, _, rfl⟩ := Exchange.returns_payFee.1 hy
    exact .moves (hx _ charged x.reserve) fun _ _ => .pure rfl
  | sell =>
    refine .bind (takeIn_follows (hx _)) fun y hy => ?_
    obtain ⟨taken, reserve, _, rfl⟩ := Exchange.returns_takeIn.1 hy
    refine .bind (payFee_follows (hx _ taken reserve)) fun z hz => ?_
    obtain ⟨charged, _, rfl⟩ := Exchange.returns_payFee.1 hz
    exact .moves (hx _ charged reserve) fun _ _ => .pure rfl

/-- Up to what a rollback restores, a conversion in place follows the one by value. -/
theorem conversion_follows (sender : Account) (given wanted : Asset) :
    Follows (fun z => z.restore x = x) x (conversion sender given wanted)
      (x.conversion sender given wanted) id := by
  unfold conversion Exchange.conversion
  refine .access (by rfl) fun planned _ => ?_
  exact .bind (settle_follows planned.2 fun _ _ _ => rfl) fun _ _ => .pure rfl

/-- A conversion in place, rolled back where it fails, is the conversion by value. -/
theorem convert_start (now : Int) (signers : Signers) (sender : Account) (given wanted : Asset) :
    (convert now signers sender given wanted).start x =
      x.convert now signers sender given wanted := by
  have hconversion := (conversion_follows (x := x) sender given wanted).atomically
  unfold convert start Exchange.convert
  rcases hcheck : (x.checkRequest signers sender given wanted).run with abort | e | u
  · rw [Follows.run_bind_abort (Follows.run_access_abort hcheck)]
    rfl
  · rw [Follows.run_bind_error (Follows.run_access hcheck)]
    rfl
  · rw [Follows.run_bind_ok (Follows.run_access hcheck)]
    cases hconversion with
    | returns ho hp =>
      rw [Follows.run_bind_ok (Follows.run_attempt hp), ho]
      rfl
    | fails ho hp hz =>
      -- the log is written after the snapshot is back
      rw [Follows.run_bind_ok (Follows.run_attempt hp), ho, hz]
      rfl
    | aborts ho hp =>
      rw [Follows.run_bind_abort (Follows.run_attempt_abort hp), ho]
      rfl

end

end InPlace
end BondingCurve
