import BondingCurve.Proofs.Curve.ErrorBound
import BondingCurve.Proofs.Exchange.Charging
import BondingCurve.Proofs.Exchange.Locality

/-!
# What the exact curve covers

A plan that redeems nothing moves whole units: what leaves the pool (`Plan.poolOut`) for what stays
in it (`Plan.poolIn`). It is covered when the exact curve gives that much for it (`Plan.IsCovered`).
Whole units favour the pool, since an output is cut down and an input is rounded up, and of the
input only what the cut left unused goes back. So a plan is covered where this room is larger than
the error of the decimals on the trader's side (`Plan.Follows.isCovered`), which has a bound that can
be worked out (`Connector.convert_close`). Where it is not, the plan may hand out more than the
exact curve gives, but only by parts in `10 ^ 24` (`Plan.Follows.poolOut_le`).
-/

namespace BondingCurve

open Outcome

/-! ## Room for an error -/

/-- The whole units of an outcome leave room for an error of `ε` in its result: the used part of a
market input has its share of a result that is less by `ε`, and the input of an exact conversion is
no less than a result that is more by `ε`. -/
def Conversion.Absorbs (c : Conversion) (ε : ℚ) (mode : Mode) (input unused : Amount) : Prop :=
  match mode with
  | .market => (input : ℚ) * c.amount ≤ (input - unused) * (c.theoretical.toRat - ε)
  | .exact => c.theoretical.toRat + ε ≤ c.amount

instance {c : Conversion} {ε : ℚ} {mode : Mode} {input unused : Amount} :
    Decidable (c.Absorbs ε mode input unused) :=
  match mode with
  | .market => inferInstanceAs (Decidable (_ ≤ _))
  | .exact => inferInstanceAs (Decidable (_ ≤ _))

/-- A refund leaves room for an error of `ε` unless the share that was cut off comes within a few
parts in `10 ^ 28` of the next unit of the input, or would with a result that is less by `ε`. -/
theorem Conversion.absorbs_of_floor_le {t : Decimal} {c : Conversion} {ε : ℚ} {input unused : Amount}
    (h : (Conversion.truncated t).Returns c) (hpos : 0 < c.amount) (hinput : 0 < input)
    (hin : Amount.InRange input) (hunused : c.unusedShare input = .ok unused)
    (hε : ε < c.theoretical.toRat)
    (hfloor : (⌊input * (1 - c.amount / c.theoretical.toRat) + 2 / 10 ^ 28 * input⌋ : ℚ) ≤
      input * (1 - c.amount / (c.theoretical.toRat - ε))) :
    c.Absorbs ε .market input unused := by
  have hle : (unused : ℚ) ≤ input * (1 - c.amount / (c.theoretical.toRat - ε)) := by
    refine le_trans ?_ hfloor
    exact_mod_cast Int.le_floor.2 (Conversion.unusedShare_close h hpos hinput hin hunused)
  have hresult : 0 < c.theoretical.toRat - ε := sub_pos.2 hε
  have hscaled := mul_le_mul_of_nonneg_right hle hresult.le
  rw [mul_assoc, sub_mul, one_mul, div_mul_cancel₀ _ hresult.ne'] at hscaled
  show (input : ℚ) * c.amount ≤ (input - unused) * (c.theoretical.toRat - ε)
  linarith

/-- The input of an exact conversion is rounded up, so it leaves room for a result that is right. -/
theorem Conversion.IsOutcome.absorbs_zero {c : Conversion} {input unused : Amount}
    (h : c.IsOutcome .exact) : c.Absorbs 0 .exact input unused := by
  show c.theoretical.toRat + 0 ≤ c.amount
  rw [add_zero]
  exact h.le_amount

/-- A decimal result of the curve is on the pool's side of the exact one, but for `ε`. -/
def Connector.IsFaithful (c : Connector) (ε : ℚ) (direction : Direction) (mode : Mode)
    (supply amount : Amount) (result : ℚ) : Prop :=
  let exact := Curve.exactResult direction mode c.balance.amount supply c.weight.value.toRat amount
  match mode with
  | .market => (result : ℝ) - ε ≤ exact
  | .exact => exact ≤ result + ε

namespace Plan

/-! ## Flows -/

/-- The units that leave the pool: what a buyer receives, or a seller and the owner. -/
def poolOut (p : Plan) : Amount :=
  match p.direction with
  | .buy => p.receive.amount
  | .sell => -p.balanceDelta

/-- The units that stay in the pool for them. -/
def poolIn (p : Plan) : Amount :=
  match p.direction with
  | .buy => p.balanceDelta
  | .sell => p.pay.amount

/-- What leaves the pool is within the exact curve at what stays in it. -/
def IsCovered (p : Plan) (c : Connector) (supply : Amount) : Prop :=
  (p.poolOut : ℝ) ≤ Curve.exactMarket p.direction c.balance.amount supply c.weight.value.toRat
    p.poolIn

/-- A plan moves the whole units of what the curve makes of `amount`, and `unused` of a market input
goes back. -/
structure Follows (p : Plan) (c : Connector) (supply amount unused : Amount) : Prop where
  converts : (c.convert p.direction p.mode supply amount).Returns p.curve
  flows : match p.mode with
    | .market => p.curve.unusedShare amount = .ok unused ∧ p.poolOut = p.curve.amount ∧
      p.poolIn = amount - unused
    | .exact => unused = 0 ∧ p.poolOut = amount ∧ p.poolIn = p.curve.amount

/-- The bound on the error of a plan's result. -/
def error (p : Plan) (c : Connector) (supply amount : Amount) : ℚ :=
  c.error p.direction p.mode supply amount p.curve.theoretical.toRat

/-- The whole units of a plan leave room for the error of its result on the trader's side. -/
structure IsFaithful (p : Plan) (c : Connector) (ε : ℚ) (supply amount unused : Amount) : Prop where
  curve : c.IsFaithful ε p.direction p.mode supply amount p.curve.theoretical.toRat
  whole : p.curve.Absorbs ε p.mode amount unused

end Plan

/-- What leaves a pool in excess of the exact curve, at most. -/
noncomputable def Curve.slack : Direction → (balance supply w poolOut : ℝ) → ℝ
  | .buy, _, supply, _, poolOut => (3 / 10 ^ 24 : ℚ) * (supply + poolOut)
  | .sell, balance, _, w, _ => (2 / 10 ^ 24 : ℚ) * (balance * w⁻¹)

/-! ## Plans follow the curve -/

namespace Exchange

variable {ρ : Type} [Reserve ρ] {x : Exchange ρ} {c : Connector} {p : Plan}
  {given wanted : Asset} {supply : Amount}

/-- Every planner follows the curve for what it is asked, unless it redeems. -/
theorem follows_planBy {direction : Direction} {mode : Mode} (hno : p.overrideApplied = false)
    (h : (x.planBy c supply given wanted direction mode).Returns p) :
    p.direction = direction ∧ p.mode = mode ∧
      ∃ amount unused, x.asked c given wanted direction mode = .ok amount ∧
        p.Follows c supply amount unused := by
  cases direction <;> cases mode
  · obtain ⟨charged, curve, chosen, overrideApplied, unused, excess, hcharged, hnet, hevaluate, -,
      hunused, -, rfl⟩ := returns_planBuy h
    have heval := returns_evaluate hevaluate
    obtain rfl : chosen = curve := heval.unreplaced hno
    exact ⟨rfl, rfl, charged.net, unused, Abort.map_eq_ok.2 ⟨charged, hcharged, rfl⟩,
      heval.converts, hunused, rfl, rfl⟩
  · obtain ⟨charged, curve, chosen, overrideApplied, hevaluate, -, rfl⟩ := returns_planBuyExact h
    have heval := returns_evaluate hevaluate
    obtain rfl : chosen = curve := heval.unreplaced hno
    exact ⟨rfl, rfl, wanted.amount, 0, rfl, heval.converts, rfl, rfl, rfl⟩
  · obtain ⟨charged, curve, chosen, overrideApplied, unused, hevaluate, -, -, hunused, rfl⟩ :=
      returns_planSell h
    have heval := returns_evaluate hevaluate
    obtain rfl : chosen = curve := heval.unreplaced hno
    exact ⟨rfl, rfl, given.amount, unused, rfl, heval.converts, hunused, Int.neg_neg _, rfl⟩
  · obtain ⟨charged, curve, chosen, overrideApplied, hcharged, hevaluate, -, rfl⟩ :=
      returns_planSellExact h
    have heval := returns_evaluate hevaluate
    obtain rfl : chosen = curve := heval.unreplaced hno
    exact ⟨rfl, rfl, charged.gross, 0, Abort.map_eq_ok.2 ⟨charged, hcharged, rfl⟩, heval.converts,
      rfl, Int.neg_neg _, rfl⟩

/-- Something leaves the pool of a plan that redeems nothing. -/
theorem Plans.poolOut_pos {conf : Configuration} {reg : Registration}
    (hp : x.Plans given wanted conf c reg p) (hno : p.overrideApplied = false) : 0 < p.poolOut := by
  unfold Plan.poolOut
  rcases hdirection : p.direction with _ | _
  · exact hp.receive_pos
  · have hpaid := hp.unredeemed hdirection hno
    have hreceive := hp.receive_pos
    have hfee := hp.fee_nonneg
    show 0 < -p.balanceDelta
    linarith

end Exchange

namespace Plan.Follows

open Curve

variable {p : Plan} {c : Connector} {supply amount unused : Amount} {ε : ℚ}

/-! ## Covered plans -/

section

variable (h : p.Follows c supply amount unused) (hw0 : 0 < c.weight.value.toRat)
  (hw1 : c.weight.value.toRat ≤ 1)
include h hw0 hw1

/-- What a market plan hands out is covered when it is within the used share of something that the
exact curve covers at the whole input: the curve is concave. -/
theorem le_exactMarket_of_share {g e : ℝ} (hmarket : p.mode = .market)
    (hshare : (amount : ℝ) * g ≤ (amount - unused) * e)
    (he : e ≤ exactMarket p.direction c.balance.amount supply c.weight.value.toRat amount) :
    g ≤ exactMarket p.direction c.balance.amount supply c.weight.value.toRat p.poolIn := by
  obtain ⟨hconverts, hflows⟩ := h
  have heval := Connector.convert_evaluation hconverts
  rw [hmarket] at hflows hconverts heval
  obtain ⟨hunused, -, hinto⟩ := hflows
  have hpos : (0 : ℝ) < amount := by exact_mod_cast heval.amount_pos
  have hunused0 : (0 : ℝ) ≤ unused := by exact_mod_cast Conversion.unusedShare_nonneg hunused
  have hunused1 : (unused : ℝ) ≤ amount := by
    exact_mod_cast Conversion.unusedShare_le heval.outcome heval.amount_pos.le hunused
  have hshare0 : (0 : ℝ) ≤ (amount - unused) / amount := div_nonneg (by linarith) hpos.le
  have hshare1 : ((amount : ℝ) - unused) / amount ≤ 1 := by
    rw [div_le_one hpos]
    linarith
  have hsold (hsell : p.direction = .sell) : (amount : ℝ) ≤ supply := by
    rw [hsell] at hconverts
    exact_mod_cast (Connector.convert_sell_market hconverts).1
  have hused : ((amount : ℝ) - unused) / amount * amount = p.poolIn := by
    rw [div_mul_cancel₀ _ hpos.ne', hinto, Int.cast_sub]
  calc g ≤ (amount - unused) / amount * e := by
        rwa [div_mul_eq_mul_div, le_div_iff₀' hpos]
    _ ≤ (amount - unused) / amount *
          exactMarket p.direction c.balance.amount supply c.weight.value.toRat amount :=
        mul_le_mul_of_nonneg_left he hshare0
    _ ≤ exactMarket p.direction c.balance.amount supply c.weight.value.toRat
          ((amount - unused) / amount * amount) :=
        share_le_exactMarket (by exact_mod_cast heval.balance_pos)
          (by exact_mod_cast heval.supply_pos) (by exact_mod_cast hw0) (by exact_mod_cast hw1)
          hpos.le hsold hshare0 hshare1
    _ = _ := by rw [hused]

/-- A plan whose whole units leave room for the error of its result is covered. -/
theorem isCovered (hinto : p.direction = .sell → p.poolIn ≤ supply)
    (hfaithful : p.IsFaithful c ε supply amount unused) : p.IsCovered c supply := by
  obtain ⟨hcurve, hwhole⟩ := hfaithful
  rcases hmode : p.mode with _ | _
  · rw [hmode] at hcurve hwhole
    have hout : p.poolOut = p.curve.amount := by
      have hflows := h.flows
      rw [hmode] at hflows
      exact hflows.2.1
    have hshare : (amount : ℚ) * p.curve.amount ≤
        (amount - unused) * (p.curve.theoretical.toRat - ε) := hwhole
    rw [IsCovered, hout]
    refine h.le_exactMarket_of_share hw0 hw1 hmode ?_ hcurve
    exact_mod_cast hshare
  · obtain ⟨hconverts, hflows⟩ := h
    rw [hmode] at hcurve hwhole hconverts hflows
    obtain ⟨-, hout, hinput⟩ := hflows
    have heval := Connector.convert_evaluation hconverts
    have hsold (hsell : p.direction = .sell) :
        (p.poolIn : ℝ) ≤ supply ∧ (amount : ℝ) ≤ c.balance.amount := by
      refine ⟨by exact_mod_cast hinto hsell, ?_⟩
      rw [hsell] at hconverts
      exact_mod_cast (Connector.convert_sell_exact hconverts).le
    have hwhole' : ((p.curve.theoretical.toRat : ℚ) : ℝ) + ε ≤ p.poolIn := by
      rw [hinput]
      exact_mod_cast hwhole
    rw [IsCovered, hout, le_exactMarket_iff (by exact_mod_cast heval.balance_pos)
      (by exact_mod_cast heval.supply_pos) (by exact_mod_cast hw0)
      (by rw [hinput]; exact_mod_cast heval.outcome.amount_nonneg)
      (by exact_mod_cast heval.amount_pos.le) hsold]
    exact le_trans hcurve hwhole'

end

/-! ## What is handed out in excess -/

/-- The error of every plan has a bound that is worked out from its result. -/
theorem isFaithful_error (h : p.Follows c supply amount unused) (hw : Ordinary c.weight.value)
    (hinBalance : Amount.InRange c.balance.amount) (hin : Amount.InRange amount) :
    c.IsFaithful (p.error c supply amount) p.direction p.mode supply amount
      p.curve.theoretical.toRat := by
  have hclose := abs_le.1 (Connector.convert_close hw hinBalance hin h.converts)
  unfold Connector.IsFaithful error
  generalize p.mode = mode at *
  cases mode with
  | market =>
    show (_ : ℝ) - _ ≤ _
    linarith [hclose.2]
  | exact =>
    show _ ≤ (_ : ℝ) + _
    linarith [hclose.1]

/-- The refund of a market plan takes no more than its share of the result, but for two parts in
`10 ^ 28` of the result. -/
theorem mul_poolOut_le (h : p.Follows c supply amount unused) (hmarket : p.mode = .market)
    (hpos : 0 < p.poolOut) (hin : Amount.InRange amount) :
    (amount : ℝ) * p.poolOut ≤ (amount - unused) * p.curve.theoretical.toRat +
      amount * (2 / 10 ^ 28 * p.curve.theoretical.toRat) := by
  obtain ⟨hconverts, hflows⟩ := h
  rw [hmarket] at hconverts hflows
  obtain ⟨hunused, hout, -⟩ := hflows
  have heval := Connector.convert_evaluation hconverts
  rw [hout] at hpos ⊢
  obtain ⟨t, ht⟩ := Connector.convert_ofResult hconverts
  have hclose := Conversion.unusedShare_close ht hpos heval.amount_pos hin hunused
  have hresult : (0 : ℚ) < p.curve.theoretical.toRat := by
    have hpos' : (0 : ℚ) < p.curve.amount := by exact_mod_cast hpos
    exact hpos'.trans_le heval.outcome.amount_le.1
  have hscaled := mul_le_mul_of_nonneg_right hclose hresult.le
  rw [add_mul, mul_assoc, sub_mul, one_mul, div_mul_cancel₀ _ hresult.ne'] at hscaled
  have hle : (amount : ℚ) * p.curve.amount ≤ (amount - unused) * p.curve.theoretical.toRat +
      amount * (2 / 10 ^ 28 * p.curve.theoretical.toRat) := by linarith
  rw [← Rat.cast_le (K := ℝ)] at hle
  push_cast at hle
  exact hle

/-- A slack that holds the error of the result and of the refund holds all that a market plan hands
out in excess. -/
theorem poolOut_le_of_close {e s : ℝ} (h : p.Follows c supply amount unused)
    (hw : Ordinary c.weight.value) (hmarket : p.mode = .market) (hpos : 0 < p.poolOut)
    (hin : Amount.InRange amount) (he : 0 ≤ e)
    (hclose : p.curve.theoretical.toRat ≤
      exactMarket p.direction c.balance.amount supply c.weight.value.toRat amount + e)
    (hs : e + 2 / 10 ^ 28 * p.curve.theoretical.toRat ≤ s) :
    (p.poolOut : ℝ) ≤
      exactMarket p.direction c.balance.amount supply c.weight.value.toRat p.poolIn + s := by
  have heval := Connector.convert_evaluation h.converts
  have hrefund := h.mul_poolOut_le hmarket hpos hin
  have hflows := h.flows
  rw [hmarket] at hflows heval
  have hunused0 : (0 : ℝ) ≤ unused := by
    exact_mod_cast Conversion.unusedShare_nonneg hflows.1
  have hunused1 : (unused : ℝ) ≤ amount := by
    exact_mod_cast Conversion.unusedShare_le heval.outcome heval.amount_pos.le hflows.1
  rw [← sub_le_iff_le_add]
  refine h.le_exactMarket_of_share hw.pos hw.le_one hmarket ?_ le_rfl
  generalize exactMarket p.direction c.balance.amount supply c.weight.value.toRat amount = g at *
  -- the used part of the error is no more than all of it
  have hused := mul_le_mul_of_nonneg_left hclose (sub_nonneg.2 hunused1)
  have hexcess := mul_le_mul_of_nonneg_left hs (hunused0.trans hunused1)
  have herror := mul_nonneg hunused0 he
  linarith

section

variable (h : p.Follows c supply amount unused) (hw : Ordinary c.weight.value)
  (hin : Amount.InRange amount)
include h hw hin

/-- The slack of a market plan holds the error of its result, which was cut down by less than a
unit, and the two parts in `10 ^ 28` of its refund. -/
theorem poolOut_le_market (hmarket : p.mode = .market) (hpos : 0 < p.poolOut) :
    (p.poolOut : ℝ) ≤
      exactMarket p.direction c.balance.amount supply c.weight.value.toRat p.poolIn +
        slack p.direction c.balance.amount supply c.weight.value.toRat p.poolOut := by
  obtain ⟨hconverts, hflows⟩ := id h
  rw [hmarket] at hconverts hflows
  have heval := Connector.convert_evaluation hconverts
  have hsupply : (0 : ℝ) < supply := by exact_mod_cast heval.supply_pos
  have hbalance : (0 : ℝ) < c.balance.amount := by exact_mod_cast heval.balance_pos
  have hpos1 : (1 : ℝ) ≤ p.poolOut := by exact_mod_cast hpos
  have hresult : (p.curve.theoretical.toRat : ℝ) ≤ p.poolOut + 1 := by
    rw [hflows.2.1]
    exact_mod_cast heval.outcome.amount_le.2.le
  rcases hdirection : p.direction with _ | _ <;> rw [hdirection] at hconverts
  · have hclose := abs_le.1 (buy_close hw hin hconverts)
    have hexact : 0 ≤ ExactCurve.buy c.balance.amount supply c.weight.value.toRat amount :=
      ExactCurve.buy_nonneg hbalance.le hsupply.le hw.pos_real.le
        (by exact_mod_cast heval.amount_pos.le)
    rw [← hdirection]
    refine h.poolOut_le_of_close hw hmarket hpos hin (e := 1 / 10 ^ 24 * (supply +
      ExactCurve.buy c.balance.amount supply c.weight.value.toRat amount)) (by positivity) ?_ ?_
    · rw [hdirection, exactMarket]
      linarith [hclose.2]
    · rw [hdirection, slack]
      push_cast
      linarith [hclose.1]
  · have hclose := abs_le.1 (sell_close hw hin hconverts)
    have hle : (p.poolOut : ℝ) ≤ c.balance.amount := by
      rw [hflows.2.1]
      exact_mod_cast (Connector.convert_sell_market hconverts).2
    have hscale : (c.balance.amount : ℝ) ≤ c.balance.amount * (c.weight.value.toRat : ℝ)⁻¹ :=
      le_mul_of_one_le_right hbalance.le hw.one_le_inv
    rw [← hdirection]
    refine h.poolOut_le_of_close hw hmarket hpos hin (e := 1 / 10 ^ 24 * (c.balance.amount *
      (c.weight.value.toRat : ℝ)⁻¹)) (by linarith) ?_ ?_
    · rw [hdirection, exactMarket]
      linarith [hclose.2]
    · rw [hdirection, slack]
      push_cast
      linarith

/-- The slack of an exact plan holds what its requirement falls short on the exact curve. -/
theorem poolOut_le_exact (hinBalance : Amount.InRange c.balance.amount) (hexact : p.mode = .exact) :
    (p.poolOut : ℝ) ≤
      exactMarket p.direction c.balance.amount supply c.weight.value.toRat p.poolIn +
        slack p.direction c.balance.amount supply c.weight.value.toRat p.poolOut := by
  obtain ⟨hconverts, hflows⟩ := h
  rw [hexact] at hconverts hflows
  obtain ⟨-, hout, hinto⟩ := hflows
  rw [hout, hinto]
  rcases hdirection : p.direction with _ | _ <;> rw [hdirection] at hconverts
  · have hcovers := buyExact_covers hw hin hconverts
    rw [exactMarket, slack]
    push_cast
    linarith
  · have hcovers := (sellExact_covers hw hinBalance hconverts).2
    have hscale : 0 ≤ (c.balance.amount : ℝ) * (c.weight.value.toRat : ℝ)⁻¹ := by
      have hbalance : (0 : ℝ) < c.balance.amount := by
        exact_mod_cast (Connector.convert_evaluation hconverts).balance_pos
      have hweight := hw.pos_real
      positivity
    rw [exactMarket, slack]
    push_cast
    linarith

/-- A plan hands out no more than the exact curve gives for what stays in the pool, but for a slack
of some parts in `10 ^ 24`. -/
theorem poolOut_le (hinBalance : Amount.InRange c.balance.amount) (hpos : 0 < p.poolOut) :
    (p.poolOut : ℝ) ≤
      exactMarket p.direction c.balance.amount supply c.weight.value.toRat p.poolIn +
        slack p.direction c.balance.amount supply c.weight.value.toRat p.poolOut := by
  cases hmode : p.mode with
  | market => exact h.poolOut_le_market hw hin hmode hpos
  | exact => exact h.poolOut_le_exact hw hin hinBalance hmode

end

end Plan.Follows

end BondingCurve
