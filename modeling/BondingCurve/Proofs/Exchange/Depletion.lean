import BondingCurve.Proofs.Decimal.Precision
import BondingCurve.Proofs.Exchange.CurveInvariant

/-!
# When a connector is emptied

A connector without a balance converts nothing any more, so whoever still holds its smart token is
stranded. Of all conversions only a market sale can bring a balance to zero, and it does exactly
when the share of the balance that should stay behind has no digit among 28 decimals
(`Curve.Vanishes`): when all of the supply is sold, or when the power underflows. Tokens are left
behind then if not all of them were sold, or if a reserve paid for less than all of them
(`convert_strands_iff`).
-/

namespace BondingCurve

open Outcome

/-! ## The curve -/

namespace Curve

/-- The share of its balance that a connector keeps in a sale. -/
def keptShare (supply : Amount) (weight : Decimal) (sold : Amount) : Outcome CurveError Decimal := do
  let rest ← oneMinus sold supply
  power rest (← Decimal.one.divOrAbort weight)

/-- Nothing of the share that a connector keeps in a sale is left in decimals. -/
def Vanishes (supply : Amount) (weight : Decimal) (sold : Amount) : Prop :=
  ∃ share, (keptShare supply weight sold).Returns share ∧ share.coefficient = 0

variable {balance supply sold : Amount} {w share : Decimal} {c : Conversion}

/-- A sale pays for the share that is not kept. -/
theorem returns_sell (h : (sell balance supply w sold).Returns c) :
    0 < sold ∧ sold ≤ supply ∧ ∃ share loss result : Decimal,
      (keptShare supply w sold).Returns share ∧ Decimal.one.sub share = .ok loss ∧
      (Decimal.ofInt balance).mul loss = .ok result ∧ (Conversion.truncated result).Returns c := by
  simp only [sell, returns_bind, returns_checkState, returns_ite, not_returns_throw,
    false_and, exists_false, and_false, false_or, returns_lift, returns_orOverflow] at h
  obtain ⟨-, ⟨-, -, hsold⟩, hle, rest, hrest, inverse, hinverse, share, hshare, loss, hloss, result,
    hresult, h⟩ := h
  refine ⟨hsold, not_lt.1 hle, share, loss, result, ?_, Decimal.subOrAbort_eq_ok hloss, hresult, h⟩
  simp only [keptShare, returns_bind, returns_lift]
  exact ⟨rest, hrest, inverse, hinverse, hshare⟩

/-- What is kept is not negative and has 28 decimals at most. -/
theorem keptShare_mem (hsold : 0 < sold) (hle : sold ≤ supply) (hsupply : supply ≤ Amount.greatest)
    (h : (keptShare supply w sold).Returns share) :
    0 ≤ share.coefficient ∧ share.scale ≤ Decimal.maxScale := by
  simp only [keptShare, returns_bind, returns_lift] at h
  obtain ⟨rest, hrest, inverse, -, h⟩ := h
  refine ⟨?_, ?_⟩
  · rw [← Decimal.toRat_nonneg_iff]
    exact power_nonneg (oneMinus_nonneg hsold.le hle hrest) h
  · have hrest_scale : rest.scale ≤ Decimal.maxScale := by
      obtain ⟨q, hq, hrest⟩ := Abort.bind_eq_ok.1 hrest
      have hvalid : (Decimal.ofInt sold).Valid :=
        Decimal.valid_of_inRange (Ledger.inRange_of_nonneg hsold.le (hle.trans hsupply))
      have hq_valid := Decimal.div_valid (Decimal.divOrAbort_eq_ok hq) hvalid
      exact Decimal.oneSub_scale_le hq_valid.scale_le (Decimal.subOrAbort_eq_ok hrest)
    rw [power, returns_ite] at h
    rcases h with ⟨-, h⟩ | ⟨-, h⟩
    · rw [← returns_pure.1 h]
      exact Nat.zero_le _
    · exact Decimal.pow_scale_le hrest_scale (returns_orOverflow.1 h)

/-- Where the kept share vanishes, the sale is paid with the whole balance, and nothing of the
result was cut off. -/
theorem Vanishes.sell (hv : Vanishes supply w sold) (hbalance : balance ≤ Amount.greatest)
    (h : (sell balance supply w sold).Returns c) :
    c.amount = balance ∧ c.theoretical.toRat = balance := by
  have hpos := (sell_evaluation h).1.balance_pos
  obtain ⟨-, -, share, loss, result, hshare, hloss, hresult, hc⟩ := returns_sell h
  obtain ⟨share', hshare', hzero⟩ := hv
  obtain rfl := hshare.unique hshare'
  obtain rfl := Decimal.oneSub_of_coefficient_eq_zero hzero hloss
  have hvalid : (Decimal.ofInt balance).Valid :=
    Decimal.valid_of_inRange (Ledger.inRange_of_nonneg hpos.le hbalance)
  have hvalue : result.toRat = balance := by
    have hrounds := Decimal.mul_rounds hresult (Decimal.toRat_ofInt_nonneg hpos.le) (by simp)
    rw [Decimal.toRat_one, mul_one] at hrounds
    rw [hrounds.toRat_eq hvalid rfl, Decimal.toRat_ofInt]
  obtain ⟨htheoretical, houtcome⟩ := Conversion.truncated_isOutcome hc
  have hsame : c.theoretical.toRat = balance := by
    rw [htheoretical, Decimal.toRat_max, Decimal.toRat_zero, hvalue, max_eq_left]
    exact_mod_cast hpos.le
  refine ⟨?_, hsame⟩
  rw [houtcome.amount_eq, hsame]
  exact Int.floor_intCast balance

/-- Where it does not, something stays behind, however the product is rounded. -/
theorem sell_amount_lt (hv : ¬Vanishes supply w sold) (hbalance : balance ≤ Amount.greatest)
    (hsupply : supply ≤ Amount.greatest) (h : (sell balance supply w sold).Returns c) :
    c.amount < balance := by
  have hpos := (sell_evaluation h).1.balance_pos
  obtain ⟨hsold, hle, share, loss, result, hshare, hloss, hresult, hc⟩ := returns_sell h
  obtain ⟨hnonneg, hscale⟩ := keptShare_mem hsold hle hsupply hshare
  have hshare_pos : 0 < share.coefficient :=
    hnonneg.lt_of_ne' fun hzero => hv ⟨share, hshare, hzero⟩
  have hlt : result.toRat < balance :=
    Decimal.ofInt_mul_lt hpos hbalance (Decimal.oneSub_scale_le hscale hloss)
      (Decimal.oneSub_lt hscale hshare_pos hloss) hresult
  obtain ⟨htheoretical, houtcome⟩ := Conversion.truncated_isOutcome hc
  rw [houtcome.amount_eq, htheoretical, Decimal.toRat_max, Decimal.toRat_zero]
  show ⌊max result.toRat 0⌋ < balance
  rw [Int.floor_lt]
  exact max_lt hlt (by exact_mod_cast hpos)

theorem sell_amount_eq_balance_iff (hbalance : balance ≤ Amount.greatest)
    (hsupply : supply ≤ Amount.greatest) (h : (sell balance supply w sold).Returns c) :
    c.amount = balance ↔ Vanishes supply w sold := by
  constructor
  · intro hamount
    by_contra hv
    exact (sell_amount_lt hv hbalance hsupply h).ne hamount
  · intro hv
    exact (hv.sell hbalance h).1

end Curve

/-! ## What a whole result leaves unused -/

namespace Conversion

/-- A part that is the whole is all of it. -/
theorem realizedRatio_self {part whole r : Decimal} (heq : part.toRat = whole.toRat)
    (hpos : 0 < whole.toRat) (h : realizedRatio part whole = .ok r) : r.toRat = 1 := by
  unfold realizedRatio at h
  split at h
  · cases h
    exact Decimal.toRat_one
  · obtain ⟨q, hq, h⟩ := Abort.bind_eq_ok.1 h
    cases h
    have hrounds := Decimal.div_rounds (Decimal.divOrAbort_eq_ok hq) (heq ▸ hpos.le) hpos.le
    have hone : q.toRat = 1 := by
      rw [heq, div_self hpos.ne'] at hrounds
      exact hrounds.toRat_eq (d := .one) (Decimal.valid_ofInt (by decide)) Decimal.toRat_one
    rw [Decimal.toRat_min, hone, Decimal.toRat_one, min_self]

/-- Nothing is unused of an input that was realized in full. -/
theorem unusedShare_of_ratio {c : Conversion} {input u : Amount} (hinput : 0 ≤ input)
    (hratio : c.ratio.toRat = 1) (h : c.unusedShare input = .ok u) : u = 0 := by
  obtain ⟨lost, unused, hlost, hunused, rfl⟩ := unusedShare_eq_ok h
  have hlost_le : lost.toRat ≤ (0 : ℕ) := by
    apply Decimal.add_le hlost
    rw [Decimal.toRat_neg, Decimal.toRat_one, hratio, Nat.cast_zero, add_neg_cancel]
  have hunused_le : unused.toRat ≤ (0 : ℕ) := by
    apply Decimal.mul_le hunused
    rw [Nat.cast_zero] at hlost_le ⊢
    exact mul_nonpos_of_nonneg_of_nonpos (Decimal.toRat_ofInt_nonneg hinput) hlost_le
  have hfloor : ⌊unused.toRat⌋ ≤ 0 := by
    have hmono := Int.floor_mono hunused_le
    rwa [Nat.cast_zero, Int.floor_zero] at hmono
  apply max_eq_right
  unfold Amount.ofInt?
  split
  · exact hfloor
  · exact le_rfl

end Conversion

/-! ## Plans -/

/-- Given smart tokens are sold for what they bring. -/
def Plan.IsMarketSale (p : Plan) : Prop := p.direction = .sell ∧ p.mode = .market

instance (p : Plan) : Decidable p.IsMarketSale := inferInstanceAs (Decidable (_ ∧ _))

namespace Exchange

section Plans

variable {ρ : Type} [Reserve ρ] {x : Exchange ρ} {c : Connector} {p : Plan} {conf : Configuration}
  {given wanted : Asset} {reg : Registration} {supply : Amount}

/-- The curve behind a market sale, and what of the input went back. -/
theorem planSell_drains (hbalance : c.balance.amount ≤ Amount.greatest)
    (hsupply : supply ≤ Amount.greatest) (h : (x.planSell c supply given wanted).Returns p) :
    given.amount ≤ supply ∧
    (c.balance.amount + p.balanceDelta = 0 ↔
      Curve.Vanishes supply c.weight.value given.amount) ∧
    (Curve.Vanishes supply c.weight.value given.amount → 0 < p.refund.amount →
      p.overrideApplied = true) := by
  obtain ⟨charged, curve, chosen, overrideApplied, unused, hevaluate, -, -, hunused, rfl⟩ :=
    returns_planSell h
  have heval := returns_evaluate hevaluate
  have hsell : (Curve.sell c.balance.amount supply c.weight.value given.amount).Returns curve :=
    heval.converts
  have hiff := Curve.sell_amount_eq_balance_iff hbalance hsupply hsell
  refine ⟨(Curve.sell_evaluation hsell).2.1, ?_, ?_⟩
  · rw [← hiff]
    show c.balance.amount + -curve.amount = 0 ↔ _
    rw [add_neg_eq_zero]
    exact eq_comm
  · -- the curve itself realizes all of a whole balance
    intro hv hrefund
    by_contra hno
    obtain rfl := heval.unreplaced (Bool.not_eq_true _ ▸ hno)
    obtain ⟨hamount, htheoretical⟩ := hv.sell hbalance hsell
    obtain ⟨hsold, -, _, _, result, -, -, -, hc⟩ := Curve.returns_sell hsell
    have hpos : (0 : ℚ) < c.balance.amount := by exact_mod_cast heval.evaluation.balance_pos
    have hratio : chosen.ratio.toRat = 1 := by
      refine Conversion.realizedRatio_self ?_ (htheoretical ▸ hpos) (Conversion.truncated_ratio hc)
      rw [Decimal.toRat_ofInt, hamount, htheoretical]
    have hzero := Conversion.unusedShare_of_ratio hsold.le hratio hunused
    exact hrefund.ne' hzero

/-- A connector is emptied by a market sale of which it should keep a share that vanishes, and by
no other plan. -/
theorem Plans.drains_iff (hx : x.WellFormed) (hp : x.Plans given wanted conf c reg p)
    (hplan : (x.planBy c reg.supply given wanted p.direction p.mode).Returns p) :
    c.balance.amount + p.balanceDelta = 0 ↔
      p.IsMarketSale ∧ Curve.Vanishes reg.supply c.weight.value given.amount := by
  have hbalance := (hx.fits hp.connector).balance_le
  have hsupply := hx.ledger.supply_le_greatest hp.registration
  have hpos := hp.balance_pos
  unfold Plan.IsMarketSale
  cases hd : p.direction with
  | buy =>
    -- a buy adds to the balance
    have hdelta := (hp.buys hd).1
    constructor
    · intro hzero
      linarith
    · intro hsale
      cases hsale.1.1
  | sell =>
    rw [hd] at hplan
    cases hm : p.mode with
    | market =>
      rw [hm] at hplan
      rw [(planSell_drains hbalance hsupply hplan).2.1]
      exact (and_iff_right ⟨rfl, rfl⟩).symm
    | exact =>
      -- the curve refuses to pay out a whole balance
      rw [hm] at hplan
      obtain ⟨charged, curve, chosen, overrideApplied, -, hevaluate, -, hp'⟩ :=
        returns_planSellExact hplan
      have hlt := Connector.convert_sell_exact (returns_evaluate hevaluate).converts
      have hdelta : p.balanceDelta = -charged.gross := by rw [hp']
      constructor
      · intro hzero
        linarith
      · intro hsale
        cases hsale.1.2

/-- Smart tokens are left behind an emptied connector if not all of them were sold, or if some were
handed back, which only a reserve's rate brings about. -/
theorem Plans.strands_iff (hx : x.WellFormed) (hp : x.Plans given wanted conf c reg p)
    (hplan : (x.planBy c reg.supply given wanted p.direction p.mode).Returns p) :
    c.balance.amount + p.balanceDelta = 0 ∧ 0 < reg.supply + p.minted ↔
      p.IsMarketSale ∧ Curve.Vanishes reg.supply c.weight.value given.amount ∧
        (given.amount < reg.supply ∨ p.overrideApplied = true ∧ 0 < p.refund.amount) := by
  rw [hp.drains_iff hx hplan, and_assoc, and_congr_right_iff]
  intro hsale
  rw [and_congr_right_iff]
  intro hv
  obtain ⟨hd, hm⟩ := hsale
  rw [hd, hm] at hplan
  have hsupply := hx.ledger.supply_le_greatest hp.registration
  obtain ⟨hle, -, hoverride⟩ := planSell_drains (hx.fits hp.connector).balance_le hsupply hplan
  -- what is burnt is what was sold, less what went back
  have hminted := Plan.minted_sell hd
  have hpay := hp.market hm
  have hrefund := hp.refund_nonneg
  constructor
  · intro hpos
    rcases hle.lt_or_eq with hlt | heq
    · exact .inl hlt
    · have hrefund_pos : 0 < p.refund.amount := by linarith
      exact .inr ⟨hoverride hv hrefund_pos, hrefund_pos⟩
  · intro hcase
    rcases hcase with hlt | ⟨-, hrefund_pos⟩
    · linarith
    · linarith

end Plans

/-! ## Conversions -/

variable {x y : Exchange Pool} {signers : Signers} {sender : Account} {given wanted : Asset}
  {receipt : Receipt}

/-- After a conversion that succeeds, the connector is empty if and only if it was a market sale of
which the connector should have kept a share that vanishes in decimals. Smart tokens are left behind
then if and only if it was a sale of less than all of them, or one at a reserve's rate of which some
were handed back. -/
theorem convert_strands_iff {now : Int} (hx : x.Reachable)
    (h : x.convert now signers sender given wanted = .ok ⟨.ok receipt, y⟩) :
    ∃ c c' reg reg', x.connector? receipt.plan.smart = some c ∧
      y.connector? receipt.plan.smart = some c' ∧
      x.ledger.registration? receipt.plan.smart = some reg ∧
      y.ledger.registration? receipt.plan.smart = some reg' ∧
      0 < c.balance.amount ∧ 0 < reg.supply ∧ 0 ≤ c'.balance.amount ∧ 0 ≤ reg'.supply ∧
      (c'.balance.amount = 0 ↔ receipt.plan.IsMarketSale ∧
        Curve.Vanishes reg.supply c.weight.value given.amount) ∧
      (c'.balance.amount = 0 ∧ 0 < reg'.supply ↔ receipt.plan.IsMarketSale ∧
        Curve.Vanishes reg.supply c.weight.value given.amount ∧
        (given.amount < reg.supply ∨ receipt.plan.overrideApplied = true ∧
          0 < receipt.plan.refund.amount)) := by
  obtain ⟨c, z, hconverts, rfl⟩ := convert_eq_ok.1 h
  have hwf := hx.wellFormed
  obtain ⟨conf, reg, hp, hplan, hconnectors, hreg'⟩ := hconverts.books_of_takenIn hwf
    fun htakes => by
      obtain ⟨payout, -, heffect, -⟩ := TakenIn.effect htakes
      exact ⟨_, heffect⟩
  have hy : (z.emit now (.converted (receipt.record sender))).WellFormed :=
    hwf.step (a := .convert now signers sender given wanted) trivial (.converts hconverts)
  have hdelta := (returns_settle hconverts.settles).2.1
  have hsupply : 0 ≤ reg.supply + receipt.plan.minted := hy.ledger.supply_nonneg hreg'
  refine ⟨c, c.moved receipt.plan.balanceDelta, reg,
    { reg with supply := reg.supply + receipt.plan.minted }, ?_, ?_, ?_, ?_, hp.balance_pos,
    hp.supply_pos, hdelta, hsupply, hp.drains_iff hwf hplan, hp.strands_iff hwf hplan⟩
  · rw [hp.smart_eq]
    exact hp.connector
  · show z.connectors.find? receipt.plan.smart.key = _
    rw [hp.smart_eq, hconnectors, Table.find?_insert_self]
  · rw [hp.smart_eq]
    exact hp.registration
  · rw [hp.smart_eq]
    exact hreg'

end Exchange

/-- A market whose whole supply is sold at a better rate than the curve's, to a reserve that can
redeem all of it. -/
def Sample.redeemable : List (Exchange.Action Pool) :=
  pledged 9999 ⟨1501, 4, false⟩ ++
    [.ledger (.issue Pool.defaultAccount ⟨1000, connected⟩ ""),
      .reserve ((Pool.empty Pool.defaultAccount).insert
        { derivative := smart, underlying := ⟨2000, connected⟩, rate := ⟨1501, 4, false⟩ })]

namespace Exchange

/-- Alice sells all there is to the reserve. It pays for all but five units, and the connector is
emptied as if it had paid for all. -/
theorem redeemed_sale_strands :
    ∃ (x y : Exchange Pool) (receipt : Receipt) (c c' : Connector) (reg reg' : Registration),
      x.Reachable ∧
      x.convert 0 [Sample.alice] Sample.alice ⟨9999, Sample.smart⟩ ⟨0, Sample.connected⟩ =
        .ok ⟨.ok receipt, y⟩ ∧
      x.connector? receipt.plan.smart = some c ∧ y.connector? receipt.plan.smart = some c' ∧
      x.ledger.registration? receipt.plan.smart = some reg ∧
      y.ledger.registration? receipt.plan.smart = some reg' ∧
      c'.balance.amount = 0 ∧ reg'.supply = 5 ∧
      Curve.Vanishes reg.supply c.weight.value 9999 ∧
      (9999 < reg.supply ∨ receipt.plan.overrideApplied = true ∧
        0 < receipt.plan.refund.amount) := by
  have hyields : Abort.Yields (inMemory.trace Sample.redeemable) fun r =>
      Abort.Yields (r.2.convert 0 [Sample.alice] Sample.alice ⟨9999, Sample.smart⟩
        ⟨0, Sample.connected⟩) fun reply => Abort.Yields reply.answer fun receipt =>
          (reply.exchange.connector? receipt.plan.smart).map (·.balance.amount) = some 0 ∧
          (reply.exchange.ledger.registration? receipt.plan.smart).map (·.supply) = some 5 := by
    decide +kernel
  obtain ⟨r, hr, ⟨_, y⟩, hconvert, receipt, rfl, hempty, hleft⟩ := hyields
  have hreach : r.2.Reachable := Sample.reachable_trace (by decide) hr
  obtain ⟨c, c', reg, reg', hc, hc', hreg, hreg', -, -, -, -, -, hiff⟩ :=
    convert_strands_iff hreach hconvert
  dsimp only at hempty hleft
  rw [hc', Option.map_some, Option.some.injEq] at hempty
  rw [hreg', Option.map_some, Option.some.injEq] at hleft
  obtain ⟨-, hv, hcase⟩ := hiff.1 ⟨hempty, by rw [hleft]; decide⟩
  exact ⟨r.2, y, receipt, c, c', reg, reg', hreach, hconvert, hc, hc', hreg, hreg', hempty, hleft,
    hv, hcase⟩

/-- Half of the supply is sold, and since `0.5 ^ 100` vanishes in decimals the connector is empty
while the other half is still there. -/
theorem underflow_strands :
    ∃ (x y : Exchange Pool) (receipt : Receipt) (c c' : Connector) (reg reg' : Registration),
      x.Reachable ∧
      x.convert 0 [Sample.alice] Sample.alice ⟨1, Sample.smart⟩ ⟨0, Sample.connected⟩ =
        .ok ⟨.ok receipt, y⟩ ∧
      receipt.plan.overrideApplied = false ∧
      x.connector? receipt.plan.smart = some c ∧ y.connector? receipt.plan.smart = some c' ∧
      x.ledger.registration? receipt.plan.smart = some reg ∧
      y.ledger.registration? receipt.plan.smart = some reg' ∧
      c.balance.amount = 1 ∧ reg.supply = 2 ∧ c'.balance.amount = 0 ∧ reg'.supply = 1 := by
  have hyields : Abort.Yields (inMemory.trace Sample.thinMarket) fun r =>
      Abort.Yields (r.2.convert 0 [Sample.alice] Sample.alice ⟨1, Sample.smart⟩
        ⟨0, Sample.connected⟩) fun reply => Abort.Yields reply.answer fun receipt =>
          receipt.plan.overrideApplied = false ∧
          r.2.connector? receipt.plan.smart =
            some ⟨Sample.smart, ⟨1, Sample.connected⟩, ⟨1, 2, false⟩⟩ ∧
          reply.exchange.connector? receipt.plan.smart =
            some ⟨Sample.smart, ⟨0, Sample.connected⟩, ⟨1, 2, false⟩⟩ ∧
          r.2.ledger.registration? receipt.plan.smart = some ⟨Sample.smart, 2, 1000000⟩ ∧
          reply.exchange.ledger.registration? receipt.plan.smart =
            some ⟨Sample.smart, 1, 1000000⟩ := by
    decide +kernel
  obtain ⟨r, hr, ⟨_, y⟩, hconvert, receipt, rfl, hno, hc, hc', hreg, hreg'⟩ := hyields
  exact ⟨r.2, y, receipt, _, _, _, _, Sample.reachable_trace (by decide) hr, hconvert, hno, hc, hc',
    hreg, hreg', rfl, rfl, rfl, rfl⟩

end Exchange
end BondingCurve
