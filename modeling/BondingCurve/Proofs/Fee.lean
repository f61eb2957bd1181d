import BondingCurve.Fee
import BondingCurve.Proofs.Decimal.Grid

/-!
# Fees

A fee is never negative, and a charge splits its value without a rest. Only the gross value of a
charge on top can be cut off, at the greatest amount.
-/

namespace BondingCurve
namespace Amount

theorem addSaturating_of_nonneg {m n : Amount} (hm : 0 ≤ m) (hn : 0 ≤ n) :
    m.addSaturating n = min greatest (m + n) :=
  max_eq_right (le_min (by decide) (le_trans (by decide) (Int.add_nonneg hm hn)))

/-- A saturating sum of amounts that are not negative is the sum, or the greatest amount. -/
theorem addSaturating_cases {m n : Amount} (hm : 0 ≤ m) (hn : 0 ≤ n) :
    m.addSaturating n = m + n ∨ m.addSaturating n = greatest ∧ greatest < m + n := by
  rw [addSaturating_of_nonneg hm hn]
  rcases le_or_gt (m + n) greatest with h | h
  · exact .inl (min_eq_right h)
  · exact .inr ⟨min_eq_left h.le, h⟩

/-- A saturating sum grows with its terms, and by no more than they do. -/
theorem addSaturating_mono {m m' n : Amount} (hm : 0 ≤ m) (hn : 0 ≤ n) (hle : m ≤ m') :
    m.addSaturating n ≤ m'.addSaturating n ∧ m'.addSaturating n - m.addSaturating n ≤ m' - m := by
  rw [addSaturating_of_nonneg hm hn, addSaturating_of_nonneg (hm.trans hle) hn]
  refine ⟨min_le_min_left greatest (by linarith), ?_⟩
  rcases le_total greatest (m + n) with hover | hbelow
  · rw [min_eq_left hover]
    have := min_le_left greatest (m' + n)
    linarith
  · rw [min_eq_right hbelow]
    have := min_le_right greatest (m' + n)
    linarith

end Amount

namespace FeePolicy

variable {p : FeePolicy} {value fee : Amount} {c : Charge}

theorem feeOn_nonneg (h : p.feeOn value = .ok fee) : 0 ≤ fee := by
  unfold feeOn at h
  split at h
  · rw [Abort.pure_eq_ok] at h
    exact h.le
  · simp only [Abort.bind_eq_ok, Abort.pure_eq_ok] at h
    obtain ⟨_, share, _, rfl⟩ := h
    -- whatever the share is, one unit is the least
    exact le_trans (by decide) (le_max_right _ leastFee)

/-- A rate of no more than the whole. -/
def Bounded (p : FeePolicy) : Prop := p.rate.value ≤ PerMille.greatest

/-- The rate's share of a value is exact: it has three decimals, and room for them. -/
theorem floor_share {share : Decimal} (hp : p.Bounded) (hvalue : 0 ≤ value)
    (hle : value ≤ Amount.greatest) (h : (Decimal.ofInt value).mul p.rate.fraction = .ok share) :
    share.floor = .ofInt (value * p.rate.value / 1000) := by
  let exact : Decimal := { coefficient := value * p.rate.value, scale := 3 }
  have hproduct : value * p.rate.value ≤ Amount.greatest * 1000 :=
    mul_le_mul hle (by exact_mod_cast hp) (Int.natCast_nonneg _) (hvalue.trans hle)
  have hnonneg : 0 ≤ value * (p.rate.value : ℤ) := mul_nonneg hvalue (Int.natCast_nonneg _)
  have hvalid : exact.Valid := by
    refine ⟨?_, (by decide : 3 ≤ Decimal.maxScale), nofun⟩
    have hbound : Amount.greatest * 1000 < (Decimal.bound : ℤ) := by decide
    show (value * p.rate.value : ℤ).natAbs < Decimal.bound
    zify
    rw [abs_of_nonneg hnonneg]
    exact hproduct.trans_lt hbound
  have hexact : exact.toRat = (Decimal.ofInt value).toRat * p.rate.fraction.toRat := by
    rw [Decimal.toRat_mul_toRat, Decimal.toRat, Decimal.powTen_cast]
    rfl
  have hshare : share.toRat = exact.toRat := by
    rw [hexact]
    have hrate : 0 ≤ p.rate.fraction.toRat := Decimal.toRat_nonneg_iff.2 (Int.natCast_nonneg _)
    exact (Decimal.mul_rounds h (Decimal.toRat_ofInt_nonneg hvalue) hrate).toRat_eq hvalid hexact
  rw [Decimal.floor_eq, hshare, Decimal.toRat, Rat.floor_intCast_div_natCast]
  rfl

/-- The rate's share of a value and the fixed part. -/
def regular (p : FeePolicy) (value : Amount) : Amount :=
  Amount.addSaturating (value * p.rate.value / 1000) (Max.max p.fixed 0)

/-- The fee on a value of a policy that charges something. -/
theorem feeOn_eq (hp : p.Bounded) (hcharges : ¬p.isExempt) (hvalue : 0 < value)
    (hle : value ≤ Amount.greatest) (h : p.feeOn value = .ok fee) :
    fee = Max.max (p.regular value) leastFee := by
  have hcond : ¬(p.isExempt = true ∨ value ≤ 0) := by
    rintro (hexempt | hnone)
    · exact hcharges hexempt
    · exact absurd hvalue (not_lt.2 hnone)
  rw [feeOn, if_neg hcond] at h
  simp only [Abort.bind_eq_ok, Abort.pure_eq_ok] at h
  obtain ⟨share, hshare, rfl⟩ := h
  have hin : Amount.InRange (value * p.rate.value / 1000) := by
    have hproduct : value * p.rate.value ≤ value * 1000 :=
      mul_le_mul_of_nonneg_left (by exact_mod_cast hp) hvalue.le
    have hnonneg : 0 ≤ value * (p.rate.value : ℤ) :=
      mul_nonneg hvalue.le (Int.natCast_nonneg _)
    refine ⟨le_trans (by decide) (Int.ediv_nonneg hnonneg (by decide)), le_trans ?_ hle⟩
    exact Int.ediv_le_of_le_mul (by decide) hproduct
  rw [floor_share hp hvalue.le hle (Abort.mapError_eq_ok.1 hshare), Decimal.toAmount?_ofInt,
    Amount.ofInt?, if_pos hin, Option.getD_some, regular]

theorem regular_mono {value' : Amount} (hp : p.Bounded) (hvalue : 0 ≤ value)
    (hle : value ≤ value') :
    p.regular value ≤ p.regular value' ∧
      p.regular value' - p.regular value ≤ value' - value := by
  have hrate : (p.rate.value : ℤ) ≤ 1000 := by exact_mod_cast hp
  have hrate0 : (0 : ℤ) ≤ p.rate.value := Int.natCast_nonneg _
  have hnonneg : 0 ≤ value * p.rate.value / 1000 :=
    Int.ediv_nonneg (mul_nonneg hvalue hrate0) (by decide)
  have hshare : value * p.rate.value / 1000 ≤ value' * p.rate.value / 1000 :=
    Int.ediv_le_ediv (by decide) (mul_le_mul_of_nonneg_right hle hrate0)
  -- the share grows by no more than the value
  have hgap : value' * p.rate.value / 1000 ≤ value * p.rate.value / 1000 + (value' - value) := by
    rw [← Int.add_mul_ediv_right _ _ (by decide)]
    refine Int.ediv_le_ediv (by decide) ?_
    have := mul_le_mul_of_nonneg_left hrate (sub_nonneg.2 hle)
    linarith
  obtain ⟨hmono, hsum⟩ := Amount.addSaturating_mono hnonneg (le_max_right p.fixed 0) hshare
  exact ⟨hmono, hsum.trans (by linarith)⟩

/-- A greater value bears a greater fee, and leaves more after it. -/
theorem feeOn_mono {value' fee' : Amount} (hp : p.Bounded) (hvalue : 0 < value)
    (hle : value ≤ value') (hgreatest : value' ≤ Amount.greatest)
    (h : p.feeOn value = .ok fee) (h' : p.feeOn value' = .ok fee') :
    fee ≤ fee' ∧ value - fee ≤ value' - fee' := by
  by_cases hexempt : p.isExempt
  · have hnone {n f : Amount} (hf : p.feeOn n = .ok f) : f = 0 := by
      rw [feeOn, if_pos (.inl hexempt), Abort.pure_eq_ok] at hf
      exact hf.symm
    rw [hnone h, hnone h', sub_zero, sub_zero]
    exact ⟨le_rfl, hle⟩
  · rw [feeOn_eq hp hexempt hvalue (hle.trans hgreatest) h,
      feeOn_eq hp hexempt (hvalue.trans_le hle) hgreatest h']
    obtain ⟨hmono, hgap⟩ := regular_mono hp hvalue.le hle
    have hregular := le_max_left (p.regular value) leastFee
    have hleast := le_max_right (p.regular value) leastFee
    have hmax : Max.max (p.regular value') leastFee ≤
        Max.max (p.regular value) leastFee + (value' - value) :=
      max_le (by linarith) (by linarith)
    exact ⟨max_le_max_right leastFee hmono, by linarith⟩

/-- A fee out of a value: the rest of the value is what is left. -/
theorem charge_nonRequired (h : p.charge value .nonRequired = .ok c) :
    0 ≤ c.fee ∧ c.net = value - c.fee := by
  obtain ⟨fee, hfee, h⟩ := Abort.bind_eq_ok.1 h
  rw [Abort.pure_eq_ok] at h
  subst h
  exact ⟨feeOn_nonneg hfee, rfl⟩

/-- A fee on top of a value. -/
theorem charge_required (h : p.charge value .required = .ok c) :
    0 ≤ c.fee ∧ c.net = value ∧ c.gross = value.addSaturating c.fee := by
  obtain ⟨fee, hfee, h⟩ := Abort.bind_eq_ok.1 h
  rw [Abort.pure_eq_ok] at h
  subst h
  exact ⟨feeOn_nonneg hfee, rfl, rfl⟩

/-! ## Greater values -/

/-- Of a greater value more is left after the fee, if anything is left of the smaller one. -/
theorem net_mono {value' : Amount} {c' : Charge} (hp : p.Bounded) (hle : value ≤ value')
    (hgreatest : value' ≤ Amount.greatest) (h : p.charge value .nonRequired = .ok c)
    (h' : p.charge value' .nonRequired = .ok c') (hnet : 0 < c.net) : c.net ≤ c'.net := by
  have hfee := (charge_nonRequired h).1
  obtain ⟨fee, hfeeOn, h⟩ := Abort.bind_eq_ok.1 h
  obtain ⟨fee', hfeeOn', h'⟩ := Abort.bind_eq_ok.1 h'
  rw [Abort.pure_eq_ok] at h h'
  subst h h'
  dsimp only at hfee hnet
  have hvalue : 0 < value := by linarith
  exact (feeOn_mono hp hvalue hle hgreatest hfeeOn hfeeOn').2

/-- With its fee on top, a greater value is greater. -/
theorem gross_mono {value' : Amount} {c' : Charge} (hp : p.Bounded) (hvalue : 0 ≤ value)
    (hle : value ≤ value') (hgreatest : value' ≤ Amount.greatest)
    (h : p.charge value .required = .ok c) (h' : p.charge value' .required = .ok c') :
    0 ≤ c.gross ∧ c.gross ≤ c'.gross := by
  obtain ⟨fee, hfee, h⟩ := Abort.bind_eq_ok.1 h
  obtain ⟨fee', hfee', h'⟩ := Abort.bind_eq_ok.1 h'
  rw [Abort.pure_eq_ok] at h h'
  subst h h'
  dsimp only
  have hfee0 := feeOn_nonneg hfee
  have hmono : fee ≤ fee' := by
    rcases hvalue.eq_or_lt with hzero | hpos
    · -- nothing is charged on nothing
      rw [feeOn, if_pos (.inr hzero.ge), Abort.pure_eq_ok] at hfee
      exact hfee ▸ feeOn_nonneg hfee'
    · exact (feeOn_mono hp hpos hle hgreatest hfee hfee').1
  rw [Amount.addSaturating_of_nonneg hvalue hfee0,
    Amount.addSaturating_of_nonneg (hvalue.trans hle) (hfee0.trans hmono)]
  exact ⟨le_min (by decide) (Int.add_nonneg hvalue hfee0),
    min_le_min_left _ (Int.add_le_add hle hmono)⟩

end FeePolicy
end BondingCurve
