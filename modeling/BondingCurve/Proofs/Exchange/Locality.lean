import BondingCurve.Proofs.Exchange.Success
import BondingCurve.Proofs.Ledger.Locality

/-!
# What a conversion looks at

A conversion reads the settings, the policies, the reserve, one connector, the registration of its
smart token, and the balances of whoever asks for it. Two solvent exchanges that agree on these
(`Exchange.Agrees`) plan it alike and answer it alike (`Agrees.convert_answer`), whatever the
contract and the owner hold in the one and in the other: what the contract pays out in a settlement
without a redemption it has.
-/

namespace BondingCurve

open Outcome

/-- Balances and supplies move, the rest of the register stays. -/
theorem Ledger.Effect.sameRegister {l l' : Ledger} {δ : Account → Token → ℤ} {σ : TokenKey → ℤ}
    (h : l.Effect l' δ σ) : l.SameRegister l' := by
  refine ⟨fun t => ?_, h.frozen⟩
  rw [h.registration? t, Option.map_map]
  rfl

namespace Exchange

variable {ρ : Type} {x y : Exchange ρ} {sender owner : Account} {given wanted : Asset}
  {conf : Configuration} {c : Connector} {p : Plan} {reg : Registration}

/-! ## Exchanges that agree -/

/-- The smart token of a request: what is wanted for connected tokens, or given for them. -/
def traded? (x : Exchange ρ) (given wanted : Asset) : Option Token :=
  match x.configuration.get? with
  | none => none
  | some conf =>
    if conf.isConnected given.token then some wanted.token
    else if conf.isConnected wanted.token then some given.token
    else none

/-- To a conversion of `smart?` by `sender` both exchanges look the same. -/
structure Agrees (x y : Exchange ρ) (sender : Account) (smart? : Option Token) : Prop where
  settings : y.settings = x.settings
  configuration : y.configuration = x.configuration
  charges : y.charges = x.charges
  reserve : y.reserve = x.reserve
  register : x.ledger.SameRegister y.ledger
  balance : ∀ t, y.ledger.balanceOf sender t = x.ledger.balanceOf sender t
  connector : ∀ t ∈ smart?, y.connector? t = x.connector? t
  registration : ∀ t ∈ smart?, y.ledger.registration? t = x.ledger.registration? t

/-- A request is routed to the token that it trades. -/
theorem Routes.traded? {direction : Direction} (h : x.Routes given wanted conf direction c) :
    x.traded? given wanted = some c.smart := by
  have hdirects := h.directs
  rw [Exchange.traded?, h.configuration]
  cases direction with
  | buy => simp [Configuration.isConnected, hdirects.1, hdirects.2]
  | sell =>
    obtain ⟨hgiven, hwanted, hsmart⟩ := hdirects
    simp [Configuration.isConnected, Ne.symm hgiven, hwanted, hsmart]

/-! ## What a plan looks at -/

section Plans

variable [Reserve ρ] {direction : Direction} {mode : Mode} {supply : Amount}

omit [Reserve ρ] in
/-- What a request asks the curve for: an input without its fee, or an output with it. -/
def asked (x : Exchange ρ) (c : Connector) (given wanted : Asset) :
    Direction → Mode → Except Abort Amount
  | .buy, .market =>
    return (← (x.effectivePolicy c.smart).charge given.amount .nonRequired).net
  | .sell, .market => .ok given.amount
  | .buy, .exact => .ok wanted.amount
  | .sell, .exact =>
    return (← (x.effectivePolicy c.smart).charge wanted.amount .required).gross

omit [Reserve ρ] in
/-- What is asked of a request is an amount, where it is positive. -/
theorem asked_inRange (hgiven : Amount.InRange given.amount)
    (hwanted : Amount.InRange wanted.amount) {amount : Amount} (hpos : 0 < amount)
    (h : x.asked c given wanted direction mode = .ok amount) : Amount.InRange amount := by
  cases direction <;> cases mode
  · obtain ⟨charged, hcharged, rfl⟩ := Abort.map_eq_ok.1 h
    obtain ⟨hfee, hnet⟩ := FeePolicy.charge_nonRequired hcharged
    refine ⟨le_trans (by decide) hpos.le, le_trans ?_ hgiven.2⟩
    rw [hnet]
    exact Int.sub_le_self _ hfee
  · exact Except.ok.inj h ▸ hwanted
  · exact Except.ok.inj h ▸ hgiven
  · obtain ⟨charged, hcharged, rfl⟩ := Abort.map_eq_ok.1 h
    rw [(FeePolicy.charge_required hcharged).2.2]
    exact ⟨le_max_left _ _, max_le (by decide) (min_le_left _ _)⟩

/-- A planner reads the reserve when it evaluates what is asked, and nowhere else. -/
theorem planBy_eq_of_evaluate (hpolicy : y.effectivePolicy c.smart = x.effectivePolicy c.smart)
    (h : ∀ {amount}, x.asked c given wanted direction mode = .ok amount →
      y.evaluate c direction mode supply amount = x.evaluate c direction mode supply amount) :
    y.planBy c supply given wanted direction mode =
      x.planBy c supply given wanted direction mode := by
  cases direction <;> cases mode
  · simp only [planBy, planBuy, hpolicy]
    refine bind_congr_of_returns fun {charged} hcharged => ?_
    rw [returns_liftPure] at hcharged
    rw [h (Abort.map_eq_ok.2 ⟨charged, hcharged, rfl⟩)]
  · simp only [planBy, planBuyExact, hpolicy, h rfl]
  · simp only [planBy, planSell, hpolicy, h rfl]
  · simp only [planBy, planSellExact, hpolicy]
    refine bind_congr_of_returns fun {charged} hcharged => ?_
    rw [returns_liftPure] at hcharged
    rw [h (Abort.map_eq_ok.2 ⟨charged, hcharged, rfl⟩)]

/-- A plan reads the route, the supply and the policy besides. -/
theorem plan_eq_of_evaluate (hroute : y.route given wanted = x.route given wanted)
    (hsupply : ∀ {direction c}, (x.route given wanted).Returns (direction, c) →
      y.ledger.supply c.smart = x.ledger.supply c.smart)
    (hpolicy : ∀ t, y.effectivePolicy t = x.effectivePolicy t)
    (h : ∀ {direction mode c reg amount}, mode.Fits given wanted →
      (x.route given wanted).Returns (direction, c) →
      x.ledger.registration? c.smart = some reg →
      x.asked c given wanted direction mode = .ok amount →
      y.evaluate c direction mode reg.supply amount =
        x.evaluate c direction mode reg.supply amount) :
    y.plan given wanted = x.plan given wanted := by
  rw [plan_eq_bind_planBy, plan_eq_bind_planBy, hroute]
  refine bind_congr_of_returns fun {mode} hmode => ?_
  refine bind_congr_of_returns fun {routed} hroutes => ?_
  obtain ⟨direction, c⟩ := routed
  dsimp only
  rw [hsupply hroutes]
  refine bind_congr_of_returns fun {supply} hreturned => ?_
  obtain ⟨reg, hreg, rfl⟩ := Ledger.returns_supply.1 (returns_liftLedger.1 hreturned)
  dsimp only
  rw [planBy_eq_of_evaluate (hpolicy c.smart)
    (h (Mode.returns_ofRequest.1 hmode) hroutes hreg)]

end Plans

namespace Agrees

variable {smart? : Option Token}

theorem contract (h : x.Agrees y sender smart?) : y.contract = x.contract := by
  rw [Exchange.contract, h.settings, Exchange.contract]

/-- Exchanges that agree are set up alike. -/
theorem requireConfiguration_eq (h : x.Agrees y sender smart?) :
    y.requireConfiguration = x.requireConfiguration := by
  rw [requireConfiguration, h.configuration, requireConfiguration]

/-- Exchanges that agree hear the same requests. -/
theorem checkRequest_eq (h : x.Agrees y sender smart?) (signers : Signers) :
    y.checkRequest signers sender given wanted = x.checkRequest signers sender given wanted := by
  rw [checkRequest, h.requireConfiguration_eq, checkRequest]

/-- Exchanges that agree route a request alike. -/
theorem route_eq (h : x.Agrees y sender (x.traded? given wanted)) :
    y.route given wanted = x.route given wanted := by
  unfold route
  rw [h.requireConfiguration_eq]
  refine bind_congr_of_returns fun {conf} hconf => ?_
  rw [returns_requireConfiguration] at hconf
  by_cases hgiven : conf.isConnected given.token = true
  · have hrow := h.connector wanted.token (by simp [traded?, hconf, hgiven])
    simp [hgiven, hrow]
  · by_cases hwanted : conf.isConnected wanted.token = true
    · have hrow := h.connector given.token (by simp [traded?, hconf, hgiven, hwanted])
      simp [hgiven, hwanted, hrow]
    · -- without a connected token on either side there is no connector to look up
      simp [hgiven, hwanted]

/-- Exchanges that agree charge alike. -/
theorem effectivePolicy_eq (h : x.Agrees y sender smart?) (smart : Token) :
    y.effectivePolicy smart = x.effectivePolicy smart := by
  rw [effectivePolicy, policy?, h.charges, h.configuration, effectivePolicy, policy?]

variable [Reserve ρ]

/-- Exchanges that agree evaluate alike, at the same connector and supply. -/
theorem evaluate_eq (h : x.Agrees y sender smart?) (c : Connector) (direction : Direction)
    (mode : Mode) (supply amount : Amount) :
    y.evaluate c direction mode supply amount = x.evaluate c direction mode supply amount := by
  have hrate : y.administeredRate c = x.administeredRate c := by
    rw [administeredRate, h.reserve, administeredRate]
  unfold evaluate chooseOutcome
  rw [hrate]

/-- Exchanges that agree plan alike. -/
theorem plan_eq (h : x.Agrees y sender (x.traded? given wanted)) :
    y.plan given wanted = x.plan given wanted := by
  refine plan_eq_of_evaluate h.route_eq ?_ h.effectivePolicy_eq fun _ _ _ _ => h.evaluate_eq ..
  intro direction c hroute
  obtain ⟨conf, hroutes⟩ := returns_route hroute
  rw [Ledger.supply, h.registration c.smart hroutes.traded?, Ledger.supply]

end Agrees

/-! ## Legs on both sides -/

/-- The same legs have led to the ledger `l` in `x` and to `l'` in `y`. -/
structure Alongside (x y : Exchange ρ) (l l' : Ledger) : Prop where
  consistent : l.Consistent
  consistent' : l'.Consistent
  effects : ∃ δ σ, x.ledger.Effect l δ σ ∧ y.ledger.Effect l' δ σ

namespace Alongside

variable {l l' m m' : Ledger} {s r : Account} {v : Asset} {memo : String}
  {smart? : Option Token}

theorem start (hx : x.WellFormed) (hy : y.WellFormed) : x.Alongside y x.ledger y.ledger :=
  ⟨hx.ledger, hy.ledger, 0, 0, Ledger.effect_refl _, Ledger.effect_refl _⟩

theorem transfer (h : x.Alongside y l l') (hm : (l.transfer s r v memo).Returns m)
    (hm' : (l'.transfer s r v memo).Returns m') : x.Alongside y m m' := by
  obtain ⟨hl, hl', δ, σ, heffect, heffect'⟩ := h
  exact ⟨hl.transfer hm, hl'.transfer hm', _, _, heffect.trans (Ledger.transfer_effect hm),
    heffect'.trans (Ledger.transfer_effect hm')⟩

theorem retire (h : x.Alongside y l l') (hm : (l.retire s v memo).Returns m)
    (hm' : (l'.retire s v memo).Returns m') : x.Alongside y m m' := by
  obtain ⟨hl, hl', δ, σ, heffect, heffect'⟩ := h
  exact ⟨hl.retire hm, hl'.retire hm', _, _, heffect.trans (Ledger.retire_effect hm),
    heffect'.trans (Ledger.retire_effect hm')⟩

theorem feePaid {fee : Asset} (h : x.Alongside y l l') (hcontract : y.contract = x.contract)
    (hfee : 0 ≤ fee.amount) (hm : x.FeePaid l owner fee m) (hm' : y.FeePaid l' owner fee m') :
    x.Alongside y m m' := by
  obtain ⟨hl, hl', δ, σ, heffect, heffect'⟩ := h
  have hpaid' := hm'.effect hfee
  rw [hcontract] at hpaid'
  exact ⟨hl.moves hm.moves, hl'.moves hm'.moves, _, _, heffect.trans (hm.effect hfee),
    heffect'.trans hpaid'⟩

/-- Whatever moved on both sides, the registers are still the same. -/
theorem sameRegister (h : x.Alongside y l l') (hxy : x.Agrees y sender smart?) :
    l.SameRegister l' := by
  obtain ⟨_, _, _, _, heffect, heffect'⟩ := h
  exact heffect.sameRegister.symm.trans (hxy.register.trans heffect'.sameRegister)

/-- And so is what the trader has. -/
theorem balanceOf_eq (h : x.Alongside y l l') (hxy : x.Agrees y sender smart?) (t : Token) :
    l'.balanceOf sender t = l.balanceOf sender t := by
  obtain ⟨_, _, _, _, heffect, heffect'⟩ := h
  rw [heffect'.balanceOf, heffect.balanceOf, hxy.balance]

theorem registration?_eq {t : Token} (h : x.Alongside y l l')
    (ht : y.ledger.registration? t = x.ledger.registration? t) :
    l'.registration? t = l.registration? t := by
  obtain ⟨_, _, _, _, heffect, heffect'⟩ := h
  rw [heffect'.registration?, heffect.registration?, ht]

section Bind

variable {α β : Type} {S : α → β → Prop} {u w : Exchange ρ}
  {f : Exchange ρ → Outcome ExchangeError α} {g : Exchange ρ → Outcome ExchangeError β}

/-- A transfer does alike on both ledgers where the sender has the same funds. -/
theorem transfer_alike (h : x.Alongside y l l') (hxy : x.Agrees y sender smart?)
    (hfunds : l.SameFunds l' s v) :
    Alike (fun _ _ => True) (l.transfer s r v memo) (l'.transfer s r v memo) :=
  h.consistent.transfer_alike h.consistent' (h.sameRegister hxy) hfunds

/-- A fee that both contracts can afford is paid on both sides or on neither. -/
theorem bind_payFee {fee : Asset} (h : x.Alongside y u.ledger w.ledger)
    (hxy : x.Agrees y sender smart?) (hu : u.settings = x.settings)
    (hw : w.settings = y.settings) (hfee : 0 ≤ fee.amount)
    (hfunds : fee.amount ≤ u.ledger.balanceOf x.contract fee.token)
    (hfunds' : fee.amount ≤ w.ledger.balanceOf y.contract fee.token)
    (hfg : ∀ {m m'}, x.FeePaid u.ledger owner fee m → y.FeePaid w.ledger owner fee m' →
      x.Alongside y m m' → Alike S (f { u with ledger := m }) (g { w with ledger := m' })) :
    Alike S (u.payFee owner fee >>= f) (w.payFee owner fee >>= g) := by
  have hcontract := hxy.contract
  have hends : Alike (fun _ _ => True) (u.payFee owner fee) (w.payFee owner fee) := by
    rw [hcontract] at hfunds'
    unfold payFee
    rw [contract, contract, hw, hu, hxy.settings]
    by_cases hpos : fee.isPositive = true
    · simp only [hpos, if_true]
      refine .bind (h.transfer_alike hxy (.inr ⟨hfunds, hfunds'⟩)).liftLedger fun _ _ _ => ?_
      exact .pure trivial
    · simp only [hpos]
      exact .pure trivial
  refine hends.bind fun hz hz' _ => ?_
  obtain ⟨m, hm, rfl⟩ := returns_payFee.1 hz
  obtain ⟨m', hm', rfl⟩ := returns_payFee.1 hz'
  rw [FeePaid, contract, hu] at hm
  rw [FeePaid, contract, hw] at hm'
  exact hfg hm hm' (h.feePaid hcontract hfee hm hm')

/-- Tokens that both contracts hold are burned on both sides or on neither. -/
theorem bind_takeIn [Reserve ρ] (h : x.Alongside y u.ledger w.ledger)
    (hxy : x.Agrees y sender smart?) (hu : u.settings = x.settings)
    (hw : w.settings = y.settings) (hno : p.overrideApplied = false)
    (hfunds : p.pay.amount ≤ u.ledger.balanceOf x.contract p.pay.token)
    (hfunds' : p.pay.amount ≤ w.ledger.balanceOf y.contract p.pay.token)
    (hfg : ∀ {m m'}, (u.ledger.retire x.contract p.pay convertMemo).Returns m →
      (w.ledger.retire y.contract p.pay convertMemo).Returns m' → x.Alongside y m m' →
      Alike S (f { u with ledger := m }) (g { w with ledger := m' })) :
    Alike S (u.takeIn p >>= f) (w.takeIn p >>= g) := by
  have hcontract := hxy.contract
  have hburns : Alike (fun _ _ => True) (u.ledger.retire x.contract p.pay convertMemo)
      (w.ledger.retire y.contract p.pay convertMemo) := by
    rw [hcontract] at hfunds' ⊢
    exact Ledger.retire_alike (h.sameRegister hxy) (.inr ⟨hfunds, hfunds'⟩)
  have hu' : u.contract = x.contract := by
    rw [contract, hu, contract]
  have hw' : w.contract = y.contract := by
    rw [contract, hw, contract]
  simp only [takeIn, hno, Bool.false_eq_true, if_false, bind_assoc, pure_bind, hu', hw']
  refine .bind hburns.liftLedger fun {m m'} hm hm' _ => ?_
  rw [returns_liftLedger] at hm hm'
  exact hfg hm hm' (h.retire hm (hcontract ▸ hm'))

end Bind

end Alongside

/-! ## Settlements -/

/-- The settlement of one plan ends alike in solvent exchanges that agree, if nothing is redeemed:
the trader has the same in both, and the contract what it pays out. -/
theorem Agrees.settle_alike [Reserve ρ] {smart? : Option Token} (hx : x.WellFormed)
    (hy : y.WellFormed) (hsx : x.Solvent) (hsy : y.Solvent) (h : x.Agrees y sender smart?)
    (hsender : sender ≠ x.contract) (hno : p.overrideApplied = false)
    (hp : x.Plans given wanted conf c reg p) (hp' : y.Plans given wanted conf c reg p) :
    Alike (fun r r' => r.2 = r'.2) (x.settle sender c p) (y.settle sender c p) := by
  have hcontract := h.contract
  have hsender' : sender ≠ y.contract := hcontract ▸ hsender
  have hstart := Alongside.start hx hy
  unfold settle
  rw [h.requireConfiguration_eq, hcontract]
  refine .bind_self fun {conf'} hconf => .bind_self fun {moved} _ => ?_
  obtain rfl : conf' = conf :=
    Option.some.inj ((returns_requireConfiguration.1 hconf).symm.trans hp.configuration)
  -- the payment
  refine .bind (hstart.transfer_alike h (.inl (h.balance _))).liftLedger
    fun {paid paid'} hpaid hpaid' _ => ?_
  rw [returns_liftLedger] at hpaid hpaid'
  have halong := hstart.transfer hpaid hpaid'
  rw [← hcontract] at hpaid'
  cases hd : p.direction with
  | buy =>
    -- the fee, which is part of the payment
    refine halong.bind_payFee h rfl rfl hp.fee_nonneg (hp.fee_le_paid hx hsx hsender hd hpaid)
      (hp'.fee_le_paid hy hsy hsender' hd hpaid') fun _ _ halong => ?_
    -- the bought tokens; nothing has touched their supply or what the trader has of them
    have hregistration := halong.registration?_eq (t := p.receive.token)
      (by rw [(hp.buy_tokens hd).2.2, hp'.registration, hp.registration])
    refine .bind (Ledger.issue_alike hregistration (halong.sameRegister h).frozen
      (halong.balanceOf_eq h _)).liftLedger fun _ _ _ => ?_
    exact .pure rfl
  | sell =>
    -- the burn of what was paid
    refine halong.bind_takeIn h rfl rfl hno (hx.ledger.le_balanceOf_receiver hsender.symm hpaid)
      (hy.ledger.le_balanceOf_receiver hsender'.symm hpaid') fun hburns hburns' halong => ?_
    -- the fee, which is in custody
    refine halong.bind_payFee h rfl rfl hp.fee_nonneg
      (hp.fee_le_burned hx hsx hd hno hpaid hburns)
      (hp'.fee_le_burned hy hsy hd hno hpaid' hburns') fun {charged charged'} hcharged hcharged'
        halong => ?_
    -- the rest, which is there as well
    have hreceive := hp.receive_le_charged hx hsx hd hno hpaid hburns hcharged
    have hreceive' := hp'.receive_le_charged hy hsy hd hno hpaid' hburns' hcharged'
    have hdelivers : Alike (fun _ _ => True)
        (charged.transfer x.contract sender p.receive convertMemo)
        (charged'.transfer y.contract sender p.receive convertMemo) := by
      rw [hcontract] at hreceive' ⊢
      exact halong.transfer_alike h (.inr ⟨hreceive, hreceive'⟩)
    refine .bind hdelivers.liftLedger fun _ _ _ => ?_
    exact .pure rfl

/-! ## Conversions -/

section Conversion

variable [Reserve ρ] {now : Int} {signers : Signers}

/-- A plan for a token without a reserve redeems nothing. -/
theorem Plans.not_overrideApplied (hp : x.Plans given wanted conf c reg p)
    (hreserve : ∀ t ∈ x.traded? given wanted, Reserve.hasReserve x.reserve t = false) :
    p.overrideApplied = false := by
  by_contra ho
  have hhas := hp.administered (Bool.not_eq_false _ ▸ ho)
  rw [hreserve c.smart hp.traded?] at hhas
  cases hhas

variable (hx : x.WellFormed) (hy : y.WellFormed) (hsx : x.Solvent) (hsy : y.Solvent)
  (h : x.Agrees y sender (x.traded? given wanted)) (hsender : sender ≠ x.contract)
  (hreserve : ∀ t ∈ x.traded? given wanted, Reserve.hasReserve x.reserve t = false)
include hx hy hsx hsy h hsender hreserve

/-- Exchanges that agree answer a conversion alike, with the same receipt. -/
theorem Agrees.conversion_alike :
    Alike (fun r r' => r.2 = r'.2) (x.conversion sender given wanted)
      (y.conversion sender given wanted) := by
  unfold conversion
  rw [h.plan_eq]
  refine .bind_self fun {planned} hplan => ?_
  obtain ⟨p, c⟩ := planned
  have hplan' := hplan
  rw [← h.plan_eq] at hplan'
  obtain ⟨conf, reg, hp, _⟩ := returns_plan (fun hc => hx.balance_le hc) hplan
  obtain ⟨conf', reg', hp', _⟩ := returns_plan (fun hc => hy.balance_le hc) hplan'
  -- both plans are for the same registration of the same token
  obtain rfl : conf' = conf := by
    have hconf := hp'.configuration
    rw [h.configuration, hp.configuration] at hconf
    exact (Option.some.inj hconf).symm
  obtain rfl : reg' = reg := by
    have hreg := hp'.registration
    rw [h.registration c.smart hp.traded?, hp.registration] at hreg
    exact (Option.some.inj hreg).symm
  have hno := hp.not_overrideApplied hreserve
  refine .bind (h.settle_alike hx hy hsx hsy hsender hno hp hp') fun _ _ hb => ?_
  exact .pure (by rw [hb])

/-- Exchanges that agree on what a request looks at give it the same answer, or none for the same
cause. -/
theorem Agrees.convert_answer :
    (y.convert now signers sender given wanted).map (·.answer) =
      (x.convert now signers sender given wanted).map (·.answer) := by
  unfold convert
  rw [h.checkRequest_eq]
  rcases (x.checkRequest signers sender given wanted).run with abort | e | u
  · rfl
  · rfl
  · have halike := h.conversion_alike hx hy hsx hsy hsender hreserve
    cases halike with
    | @returns r r' hr hr' heq =>
      obtain ⟨z, receipt⟩ := r
      obtain ⟨z', receipt'⟩ := r'
      obtain rfl : receipt = receipt' := heq
      simp only [returns_def.1 hr, returns_def.1 hr']
      rfl
    | fails he he' =>
      simp only [fails_def.1 he, fails_def.1 he']
      rfl
    | aborts ha ha' =>
      simp only [aborts_def.1 ha, aborts_def.1 ha']
      rfl

end Conversion

end Exchange
end BondingCurve
