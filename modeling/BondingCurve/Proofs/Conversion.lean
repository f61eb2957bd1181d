import BondingCurve.Connector
import BondingCurve.Proofs.Decimal.Power
import BondingCurve.Proofs.Decimal.Quotient
import BondingCurve.Reserve.Rate

/-!
# Bounds of a conversion

`Conversion.IsOutcome` is what a curve and a flat rate promise of every conversion they return:
the result before rounding is not negative, the amount is that result cut down or rounded up, and
the realized ratio lies between zero and one. It follows that the unused share of an input is
never more than the input (`unusedShare_le`), and that a sale never asks for more than the pool
has (`Connector.convert_sell_market`).
-/

namespace BondingCurve

open Outcome

namespace Decimal

/-- A difference that does not abort is the difference. -/
theorem subOrAbort_eq_ok {a b r : Decimal} (h : a.subOrAbort b = .ok r) : a.sub b = .ok r :=
  Abort.mapError_eq_ok.1 h

/-- A product that does not abort is the product. -/
theorem mulOrAbort_eq_ok {a b r : Decimal} (h : a.mulOrAbort b = .ok r) : a.mul b = .ok r :=
  Abort.mapError_eq_ok.1 h

/-- A quotient that does not abort is the quotient. -/
theorem divOrAbort_eq_ok {a b r : Decimal} (h : a.divOrAbort b = .ok r) : a.div b = .ok r :=
  Abort.mapError_eq_ok.1 h

end Decimal

/-- What is returned instead of an overflow is the result of the arithmetic. -/
@[simp] theorem returns_orOverflow {r : Except Decimal.Fault Decimal} {d : Decimal} :
    (orOverflow r).Returns d ↔ r = .ok d := by
  rcases r with e | a <;> simp [orOverflow]

/-- A result made whole: an output is cut down, an input is rounded up. -/
def Mode.whole : Mode → ℚ → ℤ
  | .market, x => ⌊x⌋
  | .exact, x => ⌈x⌉

/-- Both ways to make a number whole keep the order. -/
theorem Mode.whole_mono {mode : Mode} {x y : ℚ} (h : x ≤ y) : mode.whole x ≤ mode.whole y := by
  cases mode
  · exact Int.floor_mono h
  · exact Int.ceil_mono h

/-- Both ways move with a whole number. -/
theorem Mode.whole_add_one {mode : Mode} {x : ℚ} : mode.whole (x + 1) = mode.whole x + 1 := by
  cases mode
  · exact Int.floor_add_one x
  · exact Int.ceil_add_one x

namespace Conversion

/-- What a conversion by `mode` promises. -/
structure IsOutcome (c : Conversion) (mode : Mode) : Prop where
  theoretical_nonneg : 0 ≤ c.theoretical.toRat
  amount_eq : c.amount = mode.whole c.theoretical.toRat
  amount_inRange : Amount.InRange c.amount
  ratio_nonneg : 0 ≤ c.ratio.toRat
  ratio_le_one : c.ratio.toRat ≤ 1

/-- The whole units of a result that is not negative are not negative. -/
theorem IsOutcome.amount_nonneg {c : Conversion} {mode : Mode} (h : c.IsOutcome mode) :
    0 ≤ c.amount := by
  rw [h.amount_eq]
  cases mode with
  | market => exact Int.floor_nonneg.2 h.theoretical_nonneg
  | exact => exact Int.ceil_nonneg h.theoretical_nonneg

/-- A market outcome is cut down by less than a unit. -/
theorem IsOutcome.amount_le {c : Conversion} (h : c.IsOutcome .market) :
    (c.amount : ℚ) ≤ c.theoretical.toRat ∧ c.theoretical.toRat < c.amount + 1 := by
  rw [h.amount_eq]
  exact ⟨Int.floor_le _, Int.lt_floor_add_one _⟩

/-- An exact outcome is rounded up. -/
theorem IsOutcome.le_amount {c : Conversion} (h : c.IsOutcome .exact) :
    c.theoretical.toRat ≤ c.amount := by
  rw [h.amount_eq]
  exact Int.le_ceil _

/-! ## Making a result whole -/

/-- Whole numbers become units when they are amounts. -/
@[simp] theorem returns_toUnits {n k : ℤ} :
    (toUnits (.ofInt n)).Returns k ↔ Amount.InRange n ∧ n = k := by
  rw [toUnits, Decimal.toAmount?_ofInt, Amount.ofInt?]
  by_cases h : Amount.InRange n <;> simp [h]

/-- A realized ratio lies between zero and one, however the division rounds. -/
theorem realizedRatio_mem {part whole r : Decimal} (hpart : 0 ≤ part.toRat)
    (hwhole : 0 ≤ whole.toRat) (h : realizedRatio part whole = .ok r) :
    0 ≤ r.toRat ∧ r.toRat ≤ 1 := by
  unfold realizedRatio at h
  split at h
  · cases h
    simp
  · obtain ⟨q, hq, h⟩ := Abort.bind_eq_ok.1 h
    cases h
    have hnonneg := Decimal.div_nonneg_of_nonneg (Decimal.divOrAbort_eq_ok hq) hpart hwhole
    rw [Decimal.toRat_min, Decimal.toRat_one]
    exact ⟨le_min hnonneg zero_le_one, min_le_right _ _⟩

/-- The share of a whole that a part of it makes can always be computed. -/
theorem exists_realizedRatio {part whole : Decimal} (hpart : 0 ≤ part.toRat)
    (hle : part.toRat ≤ whole.toRat) (hscale : part.scale ≤ whole.scale + Decimal.maxScale) :
    ∃ r, realizedRatio part whole = .ok r := by
  unfold realizedRatio
  split
  · exact ⟨_, rfl⟩
  · next hzero =>
    have hne : whole.coefficient ≠ 0 := fun h => hzero (beq_iff_eq.2 h)
    obtain ⟨r, hr⟩ := Decimal.exists_div hpart hle hne hscale
    exact ⟨r.min .one, by rw [Decimal.divOrAbort, hr]; rfl⟩

/-- A result is cut off at zero before it is made whole. -/
theorem max_zero_nonneg (d : Decimal) : 0 ≤ (d.max .zero).toRat := by
  rw [Decimal.toRat_max, Decimal.toRat_zero]
  exact le_max_right _ _

/-- A result that is cut down is an outcome of a market conversion. -/
theorem truncated_isOutcome {d : Decimal} {c : Conversion} (h : (truncated d).Returns c) :
    c.theoretical = d.max .zero ∧ c.IsOutcome .market := by
  simp only [truncated, returns_bind, Decimal.floor_eq, returns_toUnits, returns_lift,
    returns_pure] at h
  obtain ⟨amount, ⟨hin, rfl⟩, ratio, hratio, rfl⟩ := h
  have hnonneg := max_zero_nonneg d
  have hfloor := Decimal.toRat_ofInt_nonneg (Int.floor_nonneg.2 hnonneg)
  obtain ⟨h0, h1⟩ := realizedRatio_mem hfloor hnonneg hratio
  exact ⟨rfl, hnonneg, rfl, hin, h0, h1⟩

/-- A market conversion exists when its output is an amount. -/
theorem exists_truncated {d : Decimal} (hd : 0 ≤ d.toRat) (hin : Amount.InRange ⌊d.toRat⌋) :
    ∃ c, (truncated d).Returns c ∧ c.amount = ⌊d.toRat⌋ := by
  have hsame : (d.max .zero).toRat = d.toRat := by
    rw [Decimal.toRat_max, Decimal.toRat_zero, max_eq_left hd]
  have hfloor : (Decimal.ofInt ⌊d.toRat⌋).toRat ≤ (d.max .zero).toRat := by
    rw [Decimal.toRat_ofInt, hsame]
    exact Int.floor_le _
  have hnonneg := Decimal.toRat_ofInt_nonneg (Int.floor_nonneg.2 hd)
  obtain ⟨ratio, hratio⟩ := exists_realizedRatio hnonneg hfloor (Nat.zero_le _)
  refine ⟨⟨⌊d.toRat⌋, d.max .zero, ratio⟩, ?_, rfl⟩
  simp only [truncated, returns_bind, Decimal.floor_eq, returns_toUnits, returns_lift,
    returns_pure, hsame]
  exact ⟨_, ⟨hin, rfl⟩, ratio, hratio, rfl⟩

/-- A result that is rounded up is an outcome of an exact conversion. -/
theorem roundedUp_isOutcome {d : Decimal} {c : Conversion} (h : (roundedUp d).Returns c) :
    c.theoretical = d.max .zero ∧ c.IsOutcome .exact := by
  simp only [roundedUp, returns_bind, Decimal.ceil_eq, returns_toUnits, returns_lift,
    returns_pure] at h
  obtain ⟨amount, ⟨hin, rfl⟩, ratio, hratio, rfl⟩ := h
  have hnonneg := max_zero_nonneg d
  have hceil := Decimal.toRat_ofInt_nonneg (Int.ceil_nonneg hnonneg)
  obtain ⟨h0, h1⟩ := realizedRatio_mem hnonneg hceil hratio
  exact ⟨rfl, hnonneg, rfl, hin, h0, h1⟩

/-! ## The unused share -/

/-- The share that rounding lost, as a decimal between zero and one, times the input. -/
theorem unusedShare_eq_ok {c : Conversion} {input u : Amount} (h : c.unusedShare input = .ok u) :
    ∃ lost unused : Decimal, Decimal.one.sub c.ratio = .ok lost ∧
      (Decimal.ofInt input).mul lost = .ok unused ∧
      u = Max.max ((Amount.ofInt? ⌊unused.toRat⌋).getD 0) 0 := by
  obtain ⟨lost, hlost, h⟩ := Abort.bind_eq_ok.1 h
  obtain ⟨unused, hunused, h⟩ := Abort.bind_eq_ok.1 h
  cases h
  rw [Decimal.floor_eq, Decimal.toAmount?_ofInt]
  exact ⟨lost, unused, Decimal.subOrAbort_eq_ok hlost, Decimal.mulOrAbort_eq_ok hunused, rfl⟩

/-- An unused share is cut off at zero, so it is never owed. -/
theorem unusedShare_nonneg {c : Conversion} {input u : Amount}
    (h : c.unusedShare input = .ok u) : 0 ≤ u := by
  obtain ⟨-, -, -, -, rfl⟩ := unusedShare_eq_ok h
  exact le_max_right _ _

/-- Of an input no more than all of it is unused. -/
theorem unusedShare_le {c : Conversion} {mode : Mode} (hc : c.IsOutcome mode)
    {input u : Amount} (hinput : 0 ≤ input) (h : c.unusedShare input = .ok u) : u ≤ input := by
  obtain ⟨lost, unused, hlost, hunused, rfl⟩ := unusedShare_eq_ok h
  obtain ⟨n, rfl⟩ := Int.eq_ofNat_of_zero_le hinput
  have hlost_le : lost.toRat ≤ (1 : ℕ) :=
    Decimal.sub_le hlost hc.ratio_nonneg (by rw [Decimal.toRat_one, Nat.cast_one])
  have hexact : (Decimal.ofInt n).toRat * lost.toRat ≤ (n : ℚ) := by
    rw [Decimal.toRat_ofInt, Int.cast_natCast]
    rw [Nat.cast_one] at hlost_le
    exact mul_le_of_le_one_right (Nat.cast_nonneg n) hlost_le
  have hvalue : unused.toRat ≤ n := Decimal.mul_le hunused hexact
  have hfloor : ⌊unused.toRat⌋ ≤ n := by
    have := Int.floor_mono hvalue
    rwa [Int.floor_natCast] at this
  refine max_le ?_ hinput
  unfold Amount.ofInt?
  split
  · exact hfloor
  · exact hinput

end Conversion

/-! ## The curve -/

namespace Curve

/-- The curve works with positive amounts only. -/
@[simp] theorem returns_checkState {balance supply amount : Amount} {u : Unit} :
    (checkState balance supply amount).Returns u ↔ 0 < balance ∧ 0 < supply ∧ 0 < amount := by
  simp [checkState]

/-- A part of a whole leaves something that is not negative. -/
theorem oneMinus_nonneg {part whole : Amount} {r : Decimal} (hpart : 0 ≤ part)
    (hle : part ≤ whole) (h : oneMinus part whole = .ok r) : 0 ≤ r.toRat := by
  obtain ⟨q, hq, h⟩ := Abort.bind_eq_ok.1 h
  apply Decimal.sub_nonneg_of_le (Decimal.subOrAbort_eq_ok h)
  have hquotient : q.toRat ≤ 1 := by
    apply Decimal.div_le_one (Decimal.divOrAbort_eq_ok hq) (Decimal.toRat_ofInt_nonneg hpart)
    rw [Decimal.toRat_ofInt, Decimal.toRat_ofInt]
    exact_mod_cast hle
  rwa [← Decimal.toRat_one] at hquotient

/-- A power of a base that is not negative is not negative. -/
theorem power_nonneg {base exponent r : Decimal} (hbase : 0 ≤ base.toRat)
    (h : (power base exponent).Returns r) : 0 ≤ r.toRat := by
  rw [power, returns_ite] at h
  rcases h with ⟨-, h⟩ | ⟨-, h⟩
  · rw [← returns_pure.1 h, Decimal.toRat_zero]
  · rw [Decimal.toRat_nonneg_iff] at hbase ⊢
    exact Decimal.pow_nonneg hbase (returns_orOverflow.1 h)

/-- What every evaluation has checked and returns. -/
structure Evaluation (balance supply amount : Amount) (mode : Mode) (c : Conversion) : Prop where
  balance_pos : 0 < balance
  supply_pos : 0 < supply
  amount_pos : 0 < amount
  outcome : c.IsOutcome mode

/-- What a market buy returns is an outcome of its positive amounts. -/
theorem buy_evaluation {balance supply paid : Amount} {w : Decimal} {c : Conversion}
    (h : (buy balance supply w paid).Returns c) :
    Evaluation balance supply paid .market c := by
  simp only [buy, returns_bind, returns_checkState] at h
  obtain ⟨-, ⟨hb, hs, ha⟩, _, -, _, -, _, -, _, -, h⟩ := h
  exact ⟨hb, hs, ha, (Conversion.truncated_isOutcome h).2⟩

/-- So is what an exact buy returns. -/
theorem buyExact_evaluation {balance supply wanted : Amount} {w : Decimal} {c : Conversion}
    (h : (buyExact balance supply w wanted).Returns c) :
    Evaluation balance supply wanted .exact c := by
  simp only [buyExact, returns_bind, returns_checkState] at h
  obtain ⟨-, ⟨hb, hs, ha⟩, _, -, _, -, _, -, _, -, _, -, h⟩ := h
  exact ⟨hb, hs, ha, (Conversion.roundedUp_isOutcome h).2⟩

/-- An exact sale also leaves something of the balance. -/
theorem sellExact_evaluation {balance supply wanted : Amount} {w : Decimal} {c : Conversion}
    (h : (sellExact balance supply w wanted).Returns c) :
    Evaluation balance supply wanted .exact c ∧ wanted < balance := by
  simp only [sellExact, returns_bind, returns_checkState, returns_ite, not_returns_throw,
    false_and, exists_false, and_false, false_or] at h
  obtain ⟨-, ⟨hb, hs, ha⟩, hlt, _, -, _, -, _, -, _, -, h⟩ := h
  exact ⟨⟨hb, hs, ha, (Conversion.roundedUp_isOutcome h).2⟩, not_le.1 hlt⟩

/-- A market sale takes no more than the supply, and pays no more than the balance. -/
theorem sell_evaluation {balance supply sold : Amount} {w : Decimal} {c : Conversion}
    (h : (sell balance supply w sold).Returns c) :
    Evaluation balance supply sold .market c ∧ sold ≤ supply ∧ c.amount ≤ balance := by
  simp only [sell, returns_bind, returns_checkState, returns_ite, not_returns_throw,
    false_and, exists_false, and_false, false_or, returns_lift, returns_orOverflow] at h
  obtain ⟨-, ⟨hb, hs, ha⟩, hle, rest, hrest, e, -, shrunk, hshrunk, loss, hloss, result,
    hresult, h⟩ := h
  obtain ⟨htheoretical, houtcome⟩ := Conversion.truncated_isOutcome h
  have hrest0 : 0 ≤ rest.toRat := oneMinus_nonneg ha.le (not_lt.1 hle) hrest
  have hshrunk0 : 0 ≤ shrunk.toRat := power_nonneg hrest0 hshrunk
  have hloss1 : loss.toRat ≤ (1 : ℕ) :=
    Decimal.sub_le (Decimal.subOrAbort_eq_ok hloss) hshrunk0 (by simp)
  obtain ⟨n, rfl⟩ := Int.eq_ofNat_of_zero_le hb.le
  have hexact : (Decimal.ofInt n).toRat * loss.toRat ≤ (n : ℚ) := by
    rw [Nat.cast_one] at hloss1
    rw [Decimal.toRat_ofInt, Int.cast_natCast]
    exact mul_le_of_le_one_right (Nat.cast_nonneg n) hloss1
  have hvalue : c.theoretical.toRat ≤ n := by
    rw [htheoretical, Decimal.toRat_max, Decimal.toRat_zero]
    exact max_le (Decimal.mul_le hresult hexact) (Nat.cast_nonneg n)
  refine ⟨⟨hb, hs, ha, houtcome⟩, not_lt.1 hle, ?_⟩
  have hfloor := Int.floor_mono hvalue
  rw [Int.floor_natCast] at hfloor
  exact houtcome.amount_eq.trans_le hfloor

end Curve

namespace Connector

variable {c : Connector} {supply amount : Amount} {conversion : Conversion}

/-- Whatever is converted, the curve has answered for positive amounts. -/
theorem convert_evaluation {direction : Direction} {mode : Mode}
    (h : (c.convert direction mode supply amount).Returns conversion) :
    Curve.Evaluation c.balance.amount supply amount mode conversion := by
  cases direction <;> cases mode
  · exact Curve.buy_evaluation h
  · exact Curve.buyExact_evaluation h
  · exact (Curve.sell_evaluation h).1
  · exact (Curve.sellExact_evaluation h).1

/-- A sale is paid from the connector's balance. -/
theorem convert_sell_market (h : (c.convert .sell .market supply amount).Returns conversion) :
    amount ≤ supply ∧ conversion.amount ≤ c.balance.amount :=
  (Curve.sell_evaluation h).2

/-- A sale never asks for the whole balance. -/
theorem convert_sell_exact (h : (c.convert .sell .exact supply amount).Returns conversion) :
    amount < c.balance.amount :=
  (Curve.sellExact_evaluation h).2

end Connector

/-! ## Administered rates -/

/-- A flat rate promises what a curve does. -/
theorem Rate.convert_isOutcome {direction : Direction} {mode : Mode} {given : Amount}
    {rate : Decimal} {c : Conversion} (h : (Rate.convert direction mode given rate).Returns c) :
    c.IsOutcome mode := by
  simp only [Rate.convert, returns_bind, returns_ite, not_returns_throw, false_and, exists_false,
    and_false, false_or] at h
  obtain ⟨_, _, h⟩ := h
  -- a market conversion is cut down and an exact one rounded up, whatever the direction
  cases mode with
  | market =>
    cases direction <;>
    · obtain ⟨_, _, h⟩ := returns_bind.1 h
      exact (Conversion.truncated_isOutcome h).2
  | exact =>
    cases direction <;>
    · obtain ⟨_, _, h⟩ := returns_bind.1 h
      exact (Conversion.roundedUp_isOutcome h).2

end BondingCurve
