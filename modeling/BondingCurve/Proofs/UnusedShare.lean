import BondingCurve.Proofs.Curve.Evaluation

/-!
# The unused share of an amount

Making a result whole takes a share of it, and `unusedShare` is that share of an amount, cut down to
whole units. It can always be worked out: the realized share is a valid decimal between zero and one
(`ofResult_sharing`), so nothing in it overflows (`exists_unusedShare`). The product is rounded half
to even, and such a rounding keeps the order of what is rounded, also where a larger product is cut
to fewer decimals. So a larger amount has the larger unused share (`unusedShare_mono`). Of an output
of one unit or more at most half was cut off (`half_le_ratio`), so at most half of an amount is
unused (`two_mul_unusedShare_le`). Two roundings apart, it is no more than the share of the result that
was cut off (`unusedShare_close`).
-/

namespace BondingCurve

open Outcome

namespace Conversion

variable {t : Decimal} {c : Conversion} {mode : Mode} {x y u v : Amount}

/-! ## The realized share -/

/-- The realized share is a share: a valid decimal between nothing and the whole. -/
structure Sharing (c : Conversion) : Prop where
  valid : c.ratio.Valid
  nonneg : 0 ≤ c.ratio.toRat
  le_one : c.ratio.toRat ≤ 1

theorem realizedRatio_valid {part whole r : Decimal} (hpart : part.Valid)
    (h : realizedRatio part whole = .ok r) : r.Valid := by
  unfold realizedRatio at h
  split at h
  · cases h
    exact Decimal.valid_one
  · obtain ⟨q, hq, h⟩ := Abort.bind_eq_ok.1 h
    cases h
    unfold Decimal.min
    split
    · exact Decimal.valid_one
    · exact Decimal.div_valid (Decimal.divOrAbort_eq_ok hq) hpart

theorem max_zero_valid (ht : t.Valid) : (t.max .zero).Valid := by
  unfold Decimal.max
  split
  · exact Decimal.valid_ofInt (by decide)
  · exact ht

theorem ofResult_isOutcome (h : (Curve.ofResult mode t).Returns c) :
    c.theoretical = t.max .zero ∧ c.IsOutcome mode := by
  cases mode with
  | market => exact truncated_isOutcome h
  | exact => exact roundedUp_isOutcome h

/-- The realized share of a cut-down result is that of the amount in the result. -/
theorem truncated_ratio (h : (truncated t).Returns c) :
    realizedRatio (.ofInt c.amount) c.theoretical = .ok c.ratio := by
  simp only [truncated, returns_bind, returns_lift, returns_pure] at h
  obtain ⟨amount, -, ratio, hratio, rfl⟩ := h
  exact hratio

theorem ofResult_sharing (ht : t.Valid) (h : (Curve.ofResult mode t).Returns c) : c.Sharing := by
  have houtcome := (ofResult_isOutcome h).2
  refine ⟨?_, houtcome.ratio_nonneg, houtcome.ratio_le_one⟩
  cases mode with
  | market =>
    -- the part is the amount
    exact realizedRatio_valid (Decimal.valid_of_inRange houtcome.amount_inRange) (truncated_ratio h)
  | exact =>
    -- the part is the result
    simp only [Curve.ofResult, roundedUp, returns_bind, returns_lift, returns_pure] at h
    obtain ⟨amount, -, ratio, hratio, rfl⟩ := h
    exact realizedRatio_valid (max_zero_valid ht) hratio

/-- Cutting down a result of one unit or more takes at most half of it. -/
theorem half_le_ratio (h : (truncated t).Returns c) (hpos : 0 < c.amount) :
    c.ratio.Valid ∧ 1 / 2 ≤ c.ratio.toRat := by
  have houtcome := (truncated_isOutcome h).2
  have hratio := truncated_ratio h
  refine ⟨realizedRatio_valid (Decimal.valid_of_inRange houtcome.amount_inRange) hratio, ?_⟩
  have hone : (1 : ℚ) ≤ c.amount := by exact_mod_cast hpos
  obtain ⟨hle, hlt⟩ := houtcome.amount_le
  unfold realizedRatio at hratio
  split at hratio
  · rw [← Except.ok.inj hratio, Decimal.toRat_one]
    norm_num
  · obtain ⟨q, hq, hratio⟩ := Abort.bind_eq_ok.1 hratio
    -- one half is a decimal, so no rounding passes it
    have hhalf : (⟨5, 1, false⟩ : Decimal).toRat = 1 / 2 := by
      rw [Decimal.toRat, Decimal.powTen_cast]
      norm_num
    have hge := (Decimal.div_rounds (Decimal.divOrAbort_eq_ok hq)
      (Decimal.toRat_ofInt_nonneg hpos.le)
      houtcome.theoretical_nonneg).ge (d := ⟨5, 1, false⟩) ⟨by decide, by decide, by decide⟩
    rw [hhalf, Decimal.toRat_ofInt, div_le_div_iff₀ two_pos (by linarith)] at hge
    rw [← Except.ok.inj hratio, Decimal.toRat_min, Decimal.toRat_one]
    exact le_min (hge (by linarith)) (by norm_num)

/-! ## The unused share exists -/

theorem unusedShare_of_mul {lost unused : Decimal}
    (hlost : Decimal.one.subOrAbort c.ratio = .ok lost)
    (hunused : (Decimal.ofInt x).mul lost = .ok unused) :
    c.unusedShare x = .ok (max ((Amount.ofInt? ⌊unused.toRat⌋).getD 0) 0) := by
  have hmul : (Decimal.ofInt x).mulOrAbort lost = .ok unused := Abort.mapError_eq_ok.2 hunused
  refine Abort.bind_eq_ok.2 ⟨lost, hlost, Abort.bind_eq_ok.2 ⟨unused, hmul, ?_⟩⟩
  rw [Decimal.floor_eq, Decimal.toAmount?_ofInt]
  rfl

/-- Of an amount that is not negative the unused share is a product, rounded once to a decimal and
then cut down. -/
theorem exists_nearest (hc : c.Sharing) (hx : 0 ≤ x) (hin : Amount.InRange x) :
    ∃ unused : Decimal, unused.Nearest (x * (1 - c.ratio.toRat)) ∧
      c.unusedShare x = .ok ⌊unused.toRat⌋ := by
  obtain ⟨lost, hlost, hvalue⟩ := Curve.exists_oneSub hc.valid hc.nonneg hc.le_one
  have h0 : 0 ≤ lost.toRat := by linarith [hc.le_one]
  have h1 : lost.toRat ≤ 1 := by linarith [hc.nonneg]
  have hx' : (0 : ℚ) ≤ x := by exact_mod_cast hx
  have hproduct : (Decimal.ofInt x).toRat * lost.toRat ≤ x := by
    rw [Decimal.toRat_ofInt]
    exact mul_le_of_le_one_right hx' h1
  obtain ⟨unused, hunused⟩ := Decimal.exists_mul (Decimal.toRat_ofInt_nonneg hx) h0
    (hproduct.trans ((Curve.cast_le_greatest hin).trans (by rw [Decimal.bound_eq]; norm_num)))
  have hnearest := Decimal.mul_nearest hunused (Decimal.toRat_ofInt_nonneg hx) h0
  have hrounds := Decimal.mul_rounds hunused (Decimal.toRat_ofInt_nonneg hx) h0
  have hle : unused.toRat ≤ x := by
    have hle := hrounds.le (Curve.amount_valid hin)
    rw [Decimal.toRat_ofInt] at hle hproduct
    exact hle hproduct
  have hnonneg : 0 ≤ ⌊unused.toRat⌋ := Int.floor_nonneg.2
    (hrounds.nonneg (mul_nonneg (Decimal.toRat_ofInt_nonneg hx) h0))
  have hfloor : Amount.InRange ⌊unused.toRat⌋ :=
    ⟨le_trans (by decide) hnonneg, (Int.floor_le_iff.2 (by linarith)).trans hin.2⟩
  rw [Decimal.toRat_ofInt, hvalue] at hnearest
  refine ⟨unused, hnearest, ?_⟩
  rw [unusedShare_of_mul hlost hunused, Amount.ofInt?, if_pos hfloor, Option.getD_some,
    max_eq_left hnonneg]

/-- Nothing of a negative amount is unused. -/
theorem unusedShare_of_nonpos (hc : c.Sharing) (hx : x ≤ 0) (hin : Amount.InRange x) :
    c.unusedShare x = .ok 0 := by
  obtain ⟨lost, hlost, hvalue⟩ := Curve.exists_oneSub hc.valid hc.nonneg hc.le_one
  have h0 : 0 ≤ lost.toRat := by linarith [hc.le_one]
  have h1 : lost.toRat ≤ 1 := by linarith [hc.nonneg]
  have hx' : (x : ℚ) ≤ 0 := by exact_mod_cast hx
  have hleast : (-10 ^ 19 : ℚ) ≤ x := by
    have := hin.1
    have hcast : ((Amount.least : ℤ) : ℚ) ≤ x := by exact_mod_cast this
    exact le_trans (by rw [Amount.least]; norm_num) hcast
  have hproduct : |(Decimal.ofInt x).toRat * lost.toRat| ≤ 10 ^ 19 := by
    rw [Decimal.toRat_ofInt, abs_mul, abs_of_nonpos hx', abs_of_nonneg h0]
    nlinarith
  obtain ⟨unused, hunused⟩ := Decimal.exists_mul_of_abs_le
    (hproduct.trans (by rw [Decimal.bound_eq]; norm_num))
  have hle : unused.toRat ≤ (0 : ℕ) := Decimal.mul_le hunused (by
    rw [Decimal.toRat_ofInt, Nat.cast_zero]
    exact mul_nonpos_of_nonpos_of_nonneg hx' h0)
  have hfloor : ⌊unused.toRat⌋ ≤ 0 := Int.floor_le_iff.2 (by push_cast at hle ⊢; linarith)
  rw [unusedShare_of_mul hlost hunused]
  refine congrArg Except.ok (max_eq_right ?_)
  unfold Amount.ofInt?
  split
  · exact hfloor
  · exact le_rfl

/-- The unused share of an amount can always be worked out. -/
theorem exists_unusedShare (hc : c.Sharing) (hin : Amount.InRange x) :
    ∃ u, c.unusedShare x = .ok u := by
  rcases le_total 0 x with hx | hx
  · obtain ⟨unused, -, h⟩ := exists_nearest hc hx hin
    exact ⟨_, h⟩
  · exact ⟨0, unusedShare_of_nonpos hc hx hin⟩

/-! ## Order and bounds -/

theorem unusedShare_le_max (hc : c.IsOutcome mode) (hsharing : c.Sharing) (hin : Amount.InRange x)
    (h : c.unusedShare x = .ok u) : u ≤ max x 0 := by
  rcases le_total 0 x with hx | hx
  · exact (unusedShare_le hc hx h).trans (le_max_left _ _)
  · rw [unusedShare_of_nonpos hsharing hx hin] at h
    exact (Except.ok.inj h).symm.trans_le (le_max_right _ _)

/-- A larger amount has the larger unused share. -/
theorem unusedShare_mono (hc : c.Sharing) (hxy : x ≤ y) (hx : Amount.InRange x)
    (hy : Amount.InRange y) (hu : c.unusedShare x = .ok u) (hv : c.unusedShare y = .ok v) :
    u ≤ v := by
  rcases le_total 0 x with hx0 | hx0
  · obtain ⟨unused, hnearest, h⟩ := exists_nearest hc hx0 hx
    obtain ⟨unused', hnearest', h'⟩ := exists_nearest hc (hx0.trans hxy) hy
    rw [hu] at h
    rw [hv] at h'
    rw [Except.ok.inj h, Except.ok.inj h']
    have h1 : 0 ≤ 1 - c.ratio.toRat := by linarith [hc.le_one]
    have hx' : (0 : ℚ) ≤ x := by exact_mod_cast hx0
    have hxy' : (x : ℚ) ≤ y := by exact_mod_cast hxy
    exact Int.floor_mono (hnearest.mono hnearest' (mul_nonneg hx' h1)
      (mul_le_mul_of_nonneg_right hxy' h1))
  · rw [unusedShare_of_nonpos hc hx0 hx] at hu
    exact (Except.ok.inj hu).symm.trans_le (unusedShare_nonneg hv)

/-- Of a share of one half and more, at most half of an amount is unused. -/
theorem two_mul_unusedShare_le (hc : c.Sharing) (hhalf : 1 / 2 ≤ c.ratio.toRat)
    (hin : Amount.InRange x) (h : c.unusedShare x = .ok u) : 2 * u ≤ max x 0 := by
  rcases le_total 0 x with hx | hx
  · obtain ⟨unused, hnearest, hfloor⟩ := exists_nearest hc hx hin
    have hx' : (0 : ℚ) ≤ x := by exact_mod_cast hx
    -- half of the amount is a decimal
    have hdecimal : (⟨5 * x, 1, false⟩ : Decimal).Valid := by
      have hroom : 5 * Amount.greatest < (Decimal.bound : ℤ) := by decide
      refine ⟨?_, (by decide : 1 ≤ Decimal.maxScale), nofun⟩
      show (5 * x).natAbs < Decimal.bound
      zify
      rw [abs_of_nonneg (by linarith)]
      linarith [hin.2]
    have hhalved : (⟨5 * x, 1, false⟩ : Decimal).toRat = x / 2 := by
      rw [Decimal.toRat, Decimal.powTen_cast]
      push_cast
      ring
    have hproduct : x * (1 - c.ratio.toRat) ≤ x / 2 := by nlinarith
    have hle := (hnearest.rounds (mul_nonneg hx' (by linarith [hc.le_one]))).le hdecimal
    rw [hhalved] at hle
    have hle := hle hproduct
    rw [h] at hfloor
    have hu : (u : ℚ) ≤ unused.toRat := by
      rw [Except.ok.inj hfloor]
      exact Int.floor_le _
    have htwice : ((2 * u : ℤ) : ℚ) ≤ (x : ℤ) := by
      push_cast
      linarith
    exact (Int.cast_le.1 htwice).trans (le_max_left _ _)
  · rw [unusedShare_of_nonpos hc hx hin] at h
    rw [← Except.ok.inj h]
    exact le_max_right _ _

/-- So something of a positive amount was used. -/
theorem unusedShare_lt (hc : c.Sharing) (hhalf : 1 / 2 ≤ c.ratio.toRat) (hpos : 0 < x)
    (hin : Amount.InRange x) (h : c.unusedShare x = .ok u) : u < x := by
  have hle := two_mul_unusedShare_le hc hhalf hin h
  rw [max_eq_left hpos.le] at hle
  linarith

/-! ## The cut-off share -/

/-- The realized share of a cut-down result falls short of the exact one by no more than its last
digit. -/
theorem ratio_ge (h : (truncated t).Returns c) (hpos : 0 < c.amount) :
    c.amount / c.theoretical.toRat - 1 / 10 ^ 28 ≤ c.ratio.toRat := by
  obtain ⟨hle, -⟩ := (truncated_isOutcome h).2.amount_le
  have hone : (0 : ℚ) < c.amount := by exact_mod_cast hpos
  have hquotient : (c.amount : ℚ) / c.theoretical.toRat ≤ 1 :=
    div_le_one_of_le₀ hle (hone.le.trans hle)
  have hratio := truncated_ratio h
  unfold realizedRatio at hratio
  split at hratio
  · rw [← Except.ok.inj hratio, Decimal.toRat_one]
    linarith
  · obtain ⟨q, hq, hratio⟩ := Abort.bind_eq_ok.1 hratio
    have hclose := Decimal.div_close (Decimal.divOrAbort_eq_ok hq)
    rw [Decimal.Close, Decimal.ulp, Decimal.toRat_ofInt, max_eq_left ((abs_of_nonneg
      (div_nonneg hone.le (hone.le.trans hle))).trans_le hquotient)] at hclose
    rw [← Except.ok.inj hratio, Decimal.toRat_min, Decimal.toRat_one]
    exact le_min (by linarith [(abs_le.1 hclose).1]) (by linarith)

/-- The unused share of an input is no more than the share of the result that was cut off, up to the
rounding of that share and of the product. -/
theorem unusedShare_close (h : (truncated t).Returns c) (hpos : 0 < c.amount) (hx : 0 < x)
    (hin : Amount.InRange x) (hu : c.unusedShare x = .ok u) :
    (u : ℚ) ≤ x * (1 - c.amount / c.theoretical.toRat) + 2 / 10 ^ 28 * x := by
  have houtcome := (truncated_isOutcome h).2
  have hsharing : c.Sharing :=
    ⟨(half_le_ratio h hpos).1, houtcome.ratio_nonneg, houtcome.ratio_le_one⟩
  obtain ⟨unused, hnearest, hfloor⟩ := exists_nearest hsharing hx.le hin
  rw [hu] at hfloor
  have hle : (u : ℚ) ≤ unused.toRat := by
    rw [Except.ok.inj hfloor]
    exact Int.floor_le _
  have hx1 : (1 : ℚ) ≤ x := by exact_mod_cast hx
  have hratio := ratio_ge h hpos
  have hproduct : (x : ℚ) * (1 - c.ratio.toRat) ≤ x := by
    nlinarith [hsharing.nonneg]
  have hclose := hnearest.abs_sub_le
  rw [Decimal.ulp] at hclose
  have hrounded : unused.toRat ≤ x * (1 - c.ratio.toRat) + 1 / 10 ^ 28 * x := by
    have hmax : max (1 / 10 ^ 28 / 2 : ℚ) (1 / 10 ^ 28 * (x * (1 - c.ratio.toRat))) ≤
        1 / 10 ^ 28 * x := max_le (by linarith) (by linarith)
    linarith [(abs_le.1 hclose).2]
  have hshare := mul_le_mul_of_nonneg_left hratio (by linarith : (0 : ℚ) ≤ x)
  linarith

end Conversion
end BondingCurve
