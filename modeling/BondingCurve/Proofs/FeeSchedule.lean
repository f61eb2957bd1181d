import BondingCurve.Proofs.Fee

/-!
# The fee as integer arithmetic

A fee is worked out with a decimal product that is cut down, read as an amount and summed with
saturation. Of all that nothing is seen from outside. `feeOn_eq_schedule` says that every amount
bears the fee of `FeePolicy.schedule`, where the share is a quotient of unbounded integers, and
`feeOn_exact` what follows for the two charges: a fee grows with its value and by no more than it.
-/

namespace BondingCurve
namespace FeePolicy

variable {p : FeePolicy} {value value' : Amount} {mode : ChargeMode}

/-- The fee over the integers: the rate's share of a value rounded down and the fixed part, no
more than the greatest amount and one unit at least. -/
def schedule (p : FeePolicy) (value : ℤ) : ℤ :=
  if p.isExempt ∨ value ≤ 0 then 0
  else max 1 (min Amount.greatest (value * p.rate.value / 1000 + max p.fixed 0))

theorem schedule_of_free (h : p.isExempt ∨ value ≤ 0) : p.schedule value = 0 := if_pos h

theorem schedule_of_charged (h : ¬(p.isExempt ∨ value ≤ 0)) :
    p.schedule value = max 1 (p.regular value) := by
  obtain ⟨-, hpos⟩ := not_or.1 h
  have hshare : 0 ≤ value * p.rate.value / 1000 :=
    Int.ediv_nonneg (mul_nonneg (not_le.1 hpos).le (Int.natCast_nonneg _)) (by decide)
  rw [schedule, if_neg h, regular, Amount.addSaturating_of_nonneg hshare (le_max_right _ _)]

/-- The product with a rate of no more than the whole has room in a decimal. -/
theorem exists_share (hp : p.Bounded) (hvalue : 0 ≤ value) (hle : value ≤ Amount.greatest) :
    ∃ share, (Decimal.ofInt value).mulOrAbort p.rate.fraction = .ok share := by
  have hrate : p.rate.fraction.toRat ≤ 1 := by
    have : (p.rate.value : ℚ) ≤ 1000 := by exact_mod_cast hp
    rw [PerMille.fraction, Decimal.toRat, Decimal.powTen_cast]
    norm_num
    linarith
  have hnonneg : 0 ≤ p.rate.fraction.toRat := Decimal.toRat_nonneg_iff.2 (Int.natCast_nonneg _)
  have hproduct : (Decimal.ofInt value).toRat * p.rate.fraction.toRat ≤ (Decimal.bound : ℚ) - 1 :=
    calc (Decimal.ofInt value).toRat * p.rate.fraction.toRat
        ≤ (Decimal.ofInt value).toRat :=
          mul_le_of_le_one_right (Decimal.toRat_ofInt_nonneg hvalue) hrate
      _ = (value : ℚ) := Decimal.toRat_ofInt value
      _ ≤ (Amount.greatest : ℤ) := by exact_mod_cast hle
      _ ≤ (Decimal.bound : ℚ) - 1 := by
          have hroom : Amount.greatest + 1 ≤ (Decimal.bound : ℤ) := by decide
          have : ((Amount.greatest : ℤ) : ℚ) + 1 ≤ Decimal.bound := by exact_mod_cast hroom
          linarith
  obtain ⟨share, hshare⟩ :=
    Decimal.exists_mul (Decimal.toRat_ofInt_nonneg hvalue) hnonneg hproduct
  exact ⟨share, Abort.mapError_eq_ok.2 hshare⟩

/-- Every amount bears the fee of the schedule, and none aborts. -/
theorem feeOn_eq_schedule (hp : p.Bounded) (hle : value ≤ Amount.greatest) :
    p.feeOn value = .ok (p.schedule value) := by
  by_cases hfree : p.isExempt ∨ value ≤ 0
  · rw [schedule_of_free hfree, feeOn, if_pos hfree]
    rfl
  · obtain ⟨hcharges, hvalue⟩ := not_or.1 hfree
    have hpos : 0 < value := not_le.1 hvalue
    obtain ⟨share, hshare⟩ := exists_share hp hpos.le hle
    obtain ⟨fee, hfee⟩ : ∃ fee, p.feeOn value = .ok fee := by
      rw [feeOn, if_neg hfree]
      exact ⟨_, Abort.bind_eq_ok.2 ⟨share, hshare, rfl⟩⟩
    rw [hfee, feeOn_eq hp hcharges hpos hle hfee, schedule_of_charged hfree, max_comm]
    rfl

theorem schedule_nonneg (p : FeePolicy) (value : Amount) : 0 ≤ p.schedule value := by
  rw [schedule]
  split
  · exact le_rfl
  · exact le_trans (by decide) (le_max_left _ _)

theorem schedule_le (p : FeePolicy) (value : Amount) : p.schedule value ≤ Amount.greatest := by
  rw [schedule]
  split
  · decide
  · exact max_le (by decide) (min_le_left _ _)

/-- A fee grows with its value, and by no more than it. -/
theorem schedule_mono (hp : p.Bounded) (hvalue : 1 ≤ value) (hle : value ≤ value') :
    p.schedule value ≤ p.schedule value' ∧
      p.schedule value' ≤ p.schedule value + (value' - value) := by
  by_cases hexempt : p.isExempt
  · rw [schedule_of_free (.inl hexempt), schedule_of_free (.inl hexempt)]
    exact ⟨le_rfl, by linarith⟩
  · have hcharged {v : Amount} (hv : 1 ≤ v) : ¬(p.isExempt ∨ v ≤ 0) :=
      not_or.2 ⟨hexempt, not_le.2 (lt_of_lt_of_le (by decide) hv)⟩
    rw [schedule_of_charged (hcharged hvalue), schedule_of_charged (hcharged (hvalue.trans hle))]
    obtain ⟨hmono, hgap⟩ := regular_mono hp (le_trans (by decide) hvalue) hle
    have hleast := le_max_left 1 (p.regular value)
    have hregular := le_max_right 1 (p.regular value)
    exact ⟨max_le_max_left 1 hmono, max_le (by linarith) (by linarith)⟩

/-! ## Two policies -/

theorem isExempt_iff : p.isExempt ↔ p.rate.value = 0 ∧ p.fixed = 0 := by
  simp [isExempt, PerMille.isZero]

/-- Of two policies that charge a value, the one with no smaller a rate and no smaller a fixed part
charges no less. -/
theorem schedule_le_of_charged {q : FeePolicy} (hrate : p.rate.value ≤ q.rate.value)
    (hfixed : p.fixed ≤ q.fixed) (hp : ¬(p.isExempt ∨ value ≤ 0))
    (hq : ¬(q.isExempt ∨ value ≤ 0)) : p.schedule value ≤ q.schedule value := by
  have hvalue : 0 ≤ value := (not_le.1 (not_or.1 hp).2).le
  have hshare : value * p.rate.value / 1000 ≤ value * q.rate.value / 1000 :=
    Int.ediv_le_ediv (by decide) (mul_le_mul_of_nonneg_left (by exact_mod_cast hrate) hvalue)
  rw [schedule, schedule, if_neg hp, if_neg hq]
  exact max_le_max_left 1 (min_le_min_left _ (add_le_add hshare (max_le_max_right 0 hfixed)))

/-- The first policy charges one unit for a fixed part below zero, which the second one has not,
and so the second one charges nothing. -/
def WaivedBy (p q : FeePolicy) (value : Amount) : Prop :=
  0 < value ∧ p.fixed < 0 ∧ q.isExempt

theorem schedule_of_waivedBy {q : FeePolicy} (hrate : p.rate.value ≤ q.rate.value)
    (h : p.WaivedBy q value) : p.schedule value = 1 ∧ q.schedule value = 0 := by
  obtain ⟨hvalue, hfixed, hexempt⟩ := h
  refine ⟨?_, schedule_of_free (.inl hexempt)⟩
  have hzero : p.rate.value = 0 := Nat.le_zero.1 ((isExempt_iff.1 hexempt).1 ▸ hrate)
  -- the sign of the fixed part makes the policy one that charges, and adds nothing to its fee
  have hcharged : ¬(p.isExempt ∨ value ≤ 0) :=
    not_or.2 ⟨fun hfree => hfixed.ne (isExempt_iff.1 hfree).2, not_le.2 hvalue⟩
  rw [schedule, if_neg hcharged, hzero, max_eq_right hfixed.le]
  simp

/-- A policy with no smaller a rate and no smaller a fixed part charges no less, unless it waives
the unit that the other one charges for a fixed part below zero. -/
theorem schedule_le_schedule_iff {q : FeePolicy} (hrate : p.rate.value ≤ q.rate.value)
    (hfixed : p.fixed ≤ q.fixed) : p.schedule value ≤ q.schedule value ↔ ¬p.WaivedBy q value := by
  constructor
  · intro hle hwaived
    obtain ⟨hone, hzero⟩ := schedule_of_waivedBy hrate hwaived
    rw [hone, hzero] at hle
    exact absurd hle (by decide)
  · intro hkept
    by_cases hp : p.isExempt ∨ value ≤ 0
    · rw [schedule_of_free hp]
      exact schedule_nonneg q value
    · obtain ⟨hcharges, hvalue⟩ := not_or.1 hp
      refine schedule_le_of_charged hrate hfixed hp (not_or.2 ⟨fun hexempt => ?_, hvalue⟩)
      -- below a policy with neither part, only the fixed part can be what makes one charge
      obtain ⟨hnorate, hnofixed⟩ := isExempt_iff.1 hexempt
      have hzero : p.rate.value = 0 := Nat.le_zero.1 (hnorate ▸ hrate)
      have hne : p.fixed ≠ 0 := fun hnone => hcharges (isExempt_iff.2 ⟨hzero, hnone⟩)
      exact hkept ⟨not_le.1 hvalue, lt_of_le_of_ne (hnofixed ▸ hfixed) hne, hexempt⟩

/-! ## Charges -/

/-- A charge over the integers. A value with its fee on top stops at the greatest amount. -/
def split (p : FeePolicy) (value : ℤ) : ChargeMode → Charge
  | .nonRequired => ⟨value, p.schedule value, value - p.schedule value⟩
  | .required => ⟨min Amount.greatest (value + p.schedule value), p.schedule value, value⟩

/-- Every amount is charged as the schedule has it, and none aborts. -/
theorem charge_eq_split (hp : p.Bounded) (hvalue : Amount.InRange value) :
    p.charge value mode = .ok (p.split value mode) := by
  rw [charge, feeOn_eq_schedule hp hvalue.2]
  cases mode with
  | nonRequired => rfl
  | required =>
    have hsum : value.addSaturating (p.schedule value) =
        min Amount.greatest (value + p.schedule value) := by
      have hleast : Amount.least ≤ value + p.schedule value :=
        hvalue.1.trans (le_add_of_nonneg_right (schedule_nonneg p value))
      exact max_eq_right (le_min (by decide) hleast)
    rw [split, ← hsum]
    rfl

/-- What is left of an amount is an amount: a fee is taken from a positive value only. -/
theorem net_inRange (hvalue : Amount.InRange value) :
    Amount.InRange (value - p.schedule value) := by
  refine ⟨?_, le_trans (sub_le_self _ (schedule_nonneg p value)) hvalue.2⟩
  rcases le_or_gt value 0 with hnone | hpos
  · rw [schedule_of_free (.inr hnone), sub_zero]
    exact hvalue.1
  · have hfee := schedule_le p value
    have hleast : Amount.least ≤ -Amount.greatest := by decide
    linarith

theorem gross_inRange (hvalue : Amount.InRange value) :
    Amount.InRange (min Amount.greatest (value + p.schedule value)) :=
  ⟨le_min (by decide) (hvalue.1.trans (le_add_of_nonneg_right (schedule_nonneg p value))),
    min_le_left _ _⟩

/-- Under a rate of no more than the whole, the fee on every amount is the schedule's. So it grows
with the value and by no more than the value does, every charge is carried out within the range of
amounts and splits its value without a rest, and neither what is left of a value nor a value with
its fee on top decreases as the value grows. Only the latter can be cut off, at the greatest
amount. -/
theorem feeOn_exact (hp : p.Bounded) :
    (∀ value, Amount.InRange value → p.feeOn value = .ok (p.schedule value)) ∧
    (∀ v v', 1 ≤ v → v ≤ v' → v' ≤ Amount.greatest →
      p.schedule v ≤ p.schedule v' ∧ p.schedule v' ≤ p.schedule v + (v' - v)) ∧
    (∀ value, Amount.InRange value → ∃ out onTop,
      p.charge value .nonRequired = .ok out ∧ p.charge value .required = .ok onTop ∧
      out.gross = value ∧ out.fee = p.schedule value ∧ out.net + out.fee = out.gross ∧
      onTop.net = value ∧ onTop.fee = p.schedule value ∧
      (onTop.net + onTop.fee = onTop.gross ∨
        onTop.gross = Amount.greatest ∧ Amount.greatest < onTop.net + onTop.fee) ∧
      ∀ n ∈ [out.fee, out.net, onTop.gross], Amount.InRange n) ∧
    (∀ v v' out out' onTop onTop', 1 ≤ v → v ≤ v' → v' ≤ Amount.greatest →
      p.charge v .nonRequired = .ok out → p.charge v' .nonRequired = .ok out' →
      p.charge v .required = .ok onTop → p.charge v' .required = .ok onTop' →
      out.net ≤ out'.net ∧ onTop.gross ≤ onTop'.gross) := by
  refine ⟨fun value hvalue => feeOn_eq_schedule hp hvalue.2,
    fun v v' hv hle _ => schedule_mono hp hv hle, fun value hvalue => ?_,
    fun v v' out out' onTop onTop' hv hle hgreatest hout hout' honTop honTop' => ?_⟩
  · refine ⟨_, _, charge_eq_split hp hvalue, charge_eq_split hp hvalue, rfl, rfl,
      sub_add_cancel _ _, rfl, rfl, ?_, ?_⟩
    · -- the value with its fee is an amount, or it is cut off
      rcases le_or_gt (value + p.schedule value) Amount.greatest with hfits | hover
      · exact .inl (min_eq_right hfits).symm
      · exact .inr ⟨min_eq_left hover.le, hover⟩
    · intro n hn
      simp only [List.mem_cons, List.not_mem_nil, or_false] at hn
      rcases hn with rfl | rfl | rfl
      · exact ⟨le_trans (by decide) (schedule_nonneg p value), schedule_le p value⟩
      · exact net_inRange hvalue
      · exact gross_inRange hvalue
  · have hrange {w : Amount} (hw : 1 ≤ w) (hle : w ≤ Amount.greatest) : Amount.InRange w :=
      ⟨le_trans (by decide) hw, hle⟩
    rw [charge_eq_split hp (hrange hv (hle.trans hgreatest))] at hout honTop
    rw [charge_eq_split hp (hrange (hv.trans hle) hgreatest)] at hout' honTop'
    cases hout; cases hout'; cases honTop; cases honTop'
    obtain ⟨hmono, hgap⟩ := schedule_mono hp hv hle
    show v - p.schedule v ≤ v' - p.schedule v' ∧
      min Amount.greatest (v + p.schedule v) ≤ min Amount.greatest (v' + p.schedule v')
    exact ⟨by linarith, min_le_min_left _ (add_le_add hle hmono)⟩

/-- Five thousandths and a fixed part of a hundred. With its fee on top, the greatest amount is
cut off. -/
theorem five_thousandths_exact :
    (⟨⟨5⟩, 100⟩ : FeePolicy).Bounded ∧ (⟨⟨5⟩, 100⟩ : FeePolicy).feeOn 1000199 = .ok 5100 ∧
      ∃ c, (⟨⟨5⟩, 100⟩ : FeePolicy).charge Amount.greatest .required = .ok c ∧
        c.gross = Amount.greatest ∧ c.fee = 46116860184273979 := by
  have hp : (⟨⟨5⟩, 100⟩ : FeePolicy).Bounded := (by decide : 5 ≤ PerMille.greatest)
  have hexact := feeOn_exact hp
  refine ⟨hp, hexact.1 1000199 (by decide), ?_⟩
  obtain ⟨_, c, -, hc, -, -, -, hnet, hfee, hgross, hrange⟩ :=
    hexact.2.2.1 Amount.greatest (by decide)
  have hschedule : (⟨⟨5⟩, 100⟩ : FeePolicy).schedule Amount.greatest = 46116860184273979 := by
    decide
  refine ⟨c, hc, ?_, hfee.trans hschedule⟩
  rcases hgross with hsum | ⟨hcut, -⟩
  · -- the whole sum is no amount
    have hin : Amount.InRange c.gross := hrange _ (by simp)
    rw [← hsum, hnet, hfee, hschedule] at hin
    exact absurd hin (by decide)
  · exact hcut

end FeePolicy
end BondingCurve
