import BondingCurve.Proofs.Conversion
import BondingCurve.Proofs.Decimal.Accuracy

/-!
# The steps of an evaluation

Each evaluation of the curve starts from the share that an amount makes of one side of the pool.
The share is rounded to 28 decimals, or 28 digits if it is more than the whole, and one is added
or the share is taken off one (`exists_onePlus`, `exists_oneMinus`). Less than one, it has the
decimals that it needs, so the difference is not rounded again. The last step scales a share of
the other side and makes it whole (`exists_result`).
-/

namespace BondingCurve
namespace Curve

open Outcome
open Decimal (ulp ulp_pos bound_eq)

variable {part whole : Amount}

theorem amount_valid {n : Amount} (h : Amount.InRange n) : (Decimal.ofInt n).Valid :=
  Decimal.valid_of_inRange h

theorem cast_le_greatest {n : Amount} (h : Amount.InRange n) : (n : ℚ) ≤ 10 ^ 19 := by
  have hn : n ≤ (9223372036854775807 : ℤ) := h.2
  exact_mod_cast hn.trans (by norm_num)

/-- The share that a part makes of a whole. -/
theorem exists_share (hpart : 0 ≤ part) (hwhole : 0 < whole) (hin : Amount.InRange part) :
    ∃ q, (Decimal.ofInt part).divOrAbort (.ofInt whole) = .ok q ∧ q.Valid ∧
      q.Rounds ((part : ℚ) / whole) ∧ |q.toRat - part / whole| ≤ ulp * max 1 ((part : ℚ) / whole) := by
  have hpart' : (0 : ℚ) ≤ part := by exact_mod_cast hpart
  have hwhole' : (0 : ℚ) < whole := by exact_mod_cast hwhole
  obtain ⟨q, hq⟩ := Decimal.exists_div_of_scale_le (b := .ofInt whole) (amount_valid hin)
    (show whole ≠ 0 from hwhole.ne') le_rfl
  have hrounds := Decimal.div_rounds hq (Decimal.toRat_ofInt_nonneg hpart)
    (Decimal.toRat_ofInt_nonneg hwhole.le)
  have hclose := Decimal.div_close hq
  rw [Decimal.toRat_ofInt, Decimal.toRat_ofInt] at hrounds hclose
  rw [Decimal.Close, abs_of_nonneg (div_nonneg hpart' hwhole'.le)] at hclose
  exact ⟨q, by rw [Decimal.divOrAbort, hq]; rfl, Decimal.div_valid hq (amount_valid hin), hrounds,
    hclose⟩

/-- One more than a share, up to three units of the last digit. -/
theorem exists_onePlus (hpart : 0 ≤ part) (hwhole : 0 < whole) (hin : Amount.InRange part) :
    ∃ r, onePlus part whole = .ok r ∧ r.Valid ∧ 1 ≤ r.toRat ∧
      |r.toRat - (1 + part / whole)| ≤ 3 * ulp * (1 + part / whole) := by
  obtain ⟨q, hq, hvalid, hrounds, hclose⟩ := exists_share hpart hwhole hin
  have hpart' : (0 : ℚ) ≤ part := by exact_mod_cast hpart
  have hwhole' : (1 : ℚ) ≤ whole := by exact_mod_cast hwhole
  have hshare : (0 : ℚ) ≤ (part : ℚ) / whole := div_nonneg hpart' (by linarith)
  have hshare' : (part : ℚ) / whole ≤ 10 ^ 19 :=
    (div_le_self hpart' hwhole').trans (cast_le_greatest hin)
  have hq0 := hrounds.nonneg hshare
  have hmax : max 1 ((part : ℚ) / whole) ≤ 1 + part / whole := max_le (by linarith) (by linarith)
  have hulp : ulp = 1 / 10 ^ 28 := rfl
  generalize (part : ℚ) / whole = x at hshare hshare' hclose hmax ⊢
  have hq1 : |q.toRat - x| ≤ ulp * (1 + x) :=
    hclose.trans (mul_le_mul_of_nonneg_left hmax ulp_pos.le)
  obtain ⟨hlow, hhigh⟩ := abs_le.1 hq1
  rw [hulp] at hlow hhigh
  have habs : |1 + q.toRat| = 1 + q.toRat := abs_of_nonneg (by linarith)
  obtain ⟨r, hr⟩ := Decimal.exists_add (b := q) Decimal.valid_one hvalid (by
    rw [Decimal.toRat_one, habs, bound_eq]
    push_cast
    linarith)
  have hsum := Decimal.add_close Decimal.valid_one hvalid hr
  rw [Decimal.Close, Decimal.toRat_one, habs, max_eq_right (by linarith)] at hsum
  refine ⟨r, ?_, Decimal.add_valid Decimal.valid_one hvalid hr, ?_, ?_⟩
  · unfold onePlus
    rw [hq]
    show Decimal.one.addOrAbort q = .ok r
    rw [Decimal.addOrAbort, hr]
    rfl
  · have hge := (Decimal.add_rounds Decimal.valid_one hvalid (by rw [Decimal.toRat_one]; linarith) hr).ge
      Decimal.valid_one
    rw [Decimal.toRat_one] at hge
    exact hge (by linarith)
  · rw [abs_le] at hsum ⊢
    rw [hulp] at hsum ⊢
    constructor <;> linarith [hsum.1, hsum.2]

/-- What a share leaves of one, up to a unit of the 28th decimal. -/
theorem exists_oneMinus (hpart : 0 ≤ part) (hle : part ≤ whole) (hwhole : 0 < whole)
    (hin : Amount.InRange part) :
    ∃ r, oneMinus part whole = .ok r ∧ r.Valid ∧ 0 ≤ r.toRat ∧ r.toRat ≤ 1 ∧
      |r.toRat - (1 - part / whole)| ≤ ulp := by
  obtain ⟨q, hq, hvalid, hrounds, hclose⟩ := exists_share hpart hwhole hin
  have hshare : (0 : ℚ) ≤ (part : ℚ) / whole :=
    div_nonneg (by exact_mod_cast hpart) (by exact_mod_cast hwhole.le)
  have hshare' : (part : ℚ) / whole ≤ 1 :=
    div_le_one_of_le₀ (by exact_mod_cast hle) (by exact_mod_cast hwhole.le)
  have hq0 := hrounds.nonneg hshare
  have hq1 := hrounds.le Decimal.valid_one (by rwa [Decimal.toRat_one])
  rw [Decimal.toRat_one] at hq1
  rw [max_eq_left hshare', mul_one] at hclose
  obtain ⟨r, hr, hrvalid, hvalue⟩ := Decimal.sub_exact_of_lt Decimal.valid_one hvalid (by
    rw [Decimal.toRat_one, abs_of_nonneg (by linarith), bound_eq]
    push_cast
    linarith)
  rw [Decimal.toRat_one] at hvalue
  refine ⟨r, ?_, hrvalid, by linarith, by linarith, ?_⟩
  · unfold oneMinus
    rw [hq]
    show Decimal.one.subOrAbort q = .ok r
    rw [Decimal.subOrAbort, hr]
    rfl
  · rwa [hvalue, sub_sub_sub_cancel_left, abs_sub_comm]

/-- A share that is a decimal is not rounded. -/
theorem share_exact {d q : Decimal} (hpart : 0 ≤ part) (hwhole : 0 < whole)
    (hin : Amount.InRange part) (hd : d.Valid) (hvalue : d.toRat = 1 + part / whole)
    (hq : (Decimal.ofInt part).divOrAbort (.ofInt whole) = .ok q) :
    q.Valid ∧ q.toRat = part / whole := by
  obtain ⟨q', hq', hvalid, hrounds, -⟩ := exists_share hpart hwhole hin
  obtain rfl := Except.ok.inj (hq.symm.trans hq')
  have hx : (0 : ℚ) ≤ (part : ℚ) / whole :=
    div_nonneg (by exact_mod_cast hpart) (by exact_mod_cast hwhole.le)
  obtain ⟨e, -, he, hshare⟩ := Decimal.sub_one_exact hd (by linarith)
  rw [hvalue, add_sub_cancel_left] at hshare
  exact ⟨hvalid, hrounds.toRat_eq he hshare⟩

theorem onePlus_exact {d r : Decimal} (hpart : 0 ≤ part) (hwhole : 0 < whole)
    (hin : Amount.InRange part) (hd : d.Valid) (hvalue : d.toRat = 1 + part / whole)
    (h : onePlus part whole = .ok r) : r.toRat = 1 + part / whole := by
  obtain ⟨q, hq, hsum⟩ := Abort.bind_eq_ok.1 h
  obtain ⟨hvalid, hshare⟩ := share_exact hpart hwhole hin hd hvalue hq
  obtain ⟨r', hr', -, hexact⟩ := Decimal.add_exact Decimal.valid_one hvalid hd (by
    rw [hvalue, hshare, Decimal.toRat_one])
  obtain rfl := Except.ok.inj ((Abort.mapError_eq_ok.1 hsum).symm.trans hr')
  rw [hexact, hshare, Decimal.toRat_one]

/-- What is left of one is not rounded. -/
theorem exists_oneSub {d : Decimal} (hd : d.Valid) (h0 : 0 ≤ d.toRat) (h1 : d.toRat ≤ 1) :
    ∃ r, Decimal.one.subOrAbort d = .ok r ∧ r.toRat = 1 - d.toRat := by
  obtain ⟨r, hr, -, hvalue⟩ := Decimal.sub_exact_of_lt Decimal.valid_one hd (by
    rw [Decimal.toRat_one, abs_of_nonneg (by linarith), bound_eq]
    push_cast
    linarith)
  rw [Decimal.toRat_one] at hvalue
  exact ⟨r, by rw [Decimal.subOrAbort, hr]; rfl, hvalue⟩

theorem oneMinus_exact {d r : Decimal} (hpart : 0 ≤ part) (hle : part ≤ whole)
    (hwhole : 0 < whole) (hin : Amount.InRange part) (hd : d.Valid)
    (hvalue : d.toRat = 1 + part / whole) (h : oneMinus part whole = .ok r) :
    r.toRat = 1 - part / whole := by
  obtain ⟨q, hq, hrest⟩ := Abort.bind_eq_ok.1 h
  obtain ⟨hvalid, hshare⟩ := share_exact hpart hwhole hin hd hvalue hq
  have h0 : (0 : ℚ) ≤ (part : ℚ) / whole :=
    div_nonneg (by exact_mod_cast hpart) (by exact_mod_cast hwhole.le)
  have h1 : (part : ℚ) / whole ≤ 1 :=
    div_le_one_of_le₀ (by exact_mod_cast hle) (by exact_mod_cast hwhole.le)
  obtain ⟨r', hr', hexact⟩ := exists_oneSub hvalid (hshare ▸ h0) (hshare ▸ h1)
  rw [Except.ok.inj (hrest.symm.trans hr'), hexact, hshare]

/-! ## Results -/

/-- A result made whole by the rule of `mode`. -/
def ofResult : Mode → Decimal → Outcome CurveError Conversion
  | .market => Conversion.truncated
  | .exact => Conversion.roundedUp

theorem exists_ofResult (mode : Mode) {d : Decimal} (hd : d.Valid) (hnonneg : 0 ≤ d.toRat)
    (hin : Amount.InRange (mode.whole d.toRat)) :
    ∃ c, (ofResult mode d).Returns c ∧ c.theoretical.toRat = d.toRat ∧
      c.amount = mode.whole d.toRat := by
  have hsame : (d.max .zero).toRat = d.toRat := by
    rw [Decimal.toRat_max, Decimal.toRat_zero, max_eq_left hnonneg]
  cases mode with
  | market =>
    obtain ⟨c, hc, hamount⟩ := Conversion.exists_truncated hnonneg hin
    exact ⟨c, hc, by rw [(Conversion.truncated_isOutcome hc).1, hsame], hamount⟩
  | exact =>
    have hscale : (d.max .zero).scale ≤ Decimal.maxScale := by
      unfold Decimal.max
      split
      · exact Nat.zero_le _
      · exact hd.scale_le
    have hle : (d.max .zero).toRat ≤ (Decimal.ofInt ⌈d.toRat⌉).toRat := by
      rw [hsame, Decimal.toRat_ofInt]
      exact Int.le_ceil _
    obtain ⟨ratio, hratio⟩ := Conversion.exists_realizedRatio (hsame ▸ hnonneg) hle
      (hscale.trans (Nat.le_add_left _ _))
    refine ⟨⟨⌈d.toRat⌉, d.max .zero, ratio⟩, ?_, hsame, rfl⟩
    simp only [ofResult, Conversion.roundedUp, returns_bind, Decimal.ceil_eq,
      Conversion.returns_toUnits, returns_lift, returns_pure, hsame]
    exact ⟨_, ⟨hin, rfl⟩, ratio, hratio, rfl⟩

/-- What is at most the largest amount can be made whole. -/
theorem whole_inRange {mode : Mode} {x : ℚ} (hnonneg : 0 ≤ x) (hle : x ≤ Amount.greatest) :
    Amount.InRange (mode.whole x) := by
  have hleast : Amount.least ≤ 0 := by decide
  cases mode with
  | market => exact ⟨hleast.trans (Int.floor_nonneg.2 hnonneg),
      by exact_mod_cast (Int.floor_le x).trans hle⟩
  | exact => exact ⟨hleast.trans (Int.ceil_nonneg hnonneg), Int.ceil_le.2 hle⟩

/-- The last step of an evaluation: a share of one side of the pool, made whole. -/
theorem exists_result (mode : Mode) {side : Amount} {share : Decimal} (hside : 0 ≤ side)
    (hin : Amount.InRange side) (hnonneg : 0 ≤ share.toRat)
    (hfits : share.toRat ≤ 1 ∨
      side * share.toRat + ulp * max 1 (side * share.toRat) ≤ Amount.greatest) :
    ∃ d c, (orOverflow ((Decimal.ofInt side).mul share)).Returns d ∧
      d.Rounds (side * share.toRat) ∧
      |d.toRat - side * share.toRat| ≤ ulp * max 1 (side * share.toRat) ∧
      (ofResult mode d).Returns c ∧ c.theoretical.toRat = d.toRat ∧
      c.amount = mode.whole d.toRat := by
  have hside' : (0 : ℚ) ≤ side := by exact_mod_cast hside
  have hproduct : (0 : ℚ) ≤ side * share.toRat := mul_nonneg hside' hnonneg
  have hgreatest : (side : ℚ) ≤ Amount.greatest := by exact_mod_cast hin.2
  have hsmall : side * share.toRat ≤ Amount.greatest := by
    rcases hfits with hone | hfits
    · exact (mul_le_of_le_one_right hside' hone).trans hgreatest
    · linarith [mul_nonneg ulp_pos.le (zero_le_one.trans (le_max_left 1 (side * share.toRat)))]
  have hbound : ((Amount.greatest : ℤ) : ℚ) ≤ (Decimal.bound : ℚ) - 1 := by
    rw [bound_eq, show Amount.greatest = 9223372036854775807 from rfl]
    norm_num
  have hvalue : (Decimal.ofInt side).toRat = side := Decimal.toRat_ofInt side
  obtain ⟨d, hd⟩ := Decimal.exists_mul (Decimal.toRat_ofInt_nonneg hside) hnonneg
    (by rw [hvalue]; exact hsmall.trans hbound)
  have hrounds := Decimal.mul_rounds hd (Decimal.toRat_ofInt_nonneg hside) hnonneg
  have hclose := Decimal.mul_close hd
  rw [hvalue] at hrounds hclose
  rw [Decimal.Close, abs_of_nonneg hproduct] at hclose
  have hle : d.toRat ≤ Amount.greatest := by
    rcases hfits with hone | hfits
    · have hle := hrounds.le (amount_valid hin)
      rw [hvalue] at hle
      exact (hle (mul_le_of_le_one_right hside' hone)).trans hgreatest
    · linarith [(abs_le.1 hclose).2]
  obtain ⟨c, hc, htheoretical, hamount⟩ := exists_ofResult mode (Decimal.mul_valid hd)
    (hrounds.nonneg hproduct) (whole_inRange (hrounds.nonneg hproduct) hle)
  exact ⟨d, c, returns_orOverflow.2 hd, hrounds, hclose, hc, htheoretical, hamount⟩

/-- A result below zero is made whole as zero. -/
theorem ofResult_max_zero (mode : Mode) (d : Decimal) : ofResult mode (d.max .zero) = ofResult mode d := by
  have hidem : (d.max .zero).max .zero = d.max .zero := by
    unfold Decimal.max
    split
    · rw [if_neg (by decide)]
    · rfl
  cases mode <;> simp only [ofResult, Conversion.truncated, Conversion.roundedUp, hidem]

/-- The last step of an evaluation whose share may have come out a little below zero. -/
theorem exists_result_of_neg_one_le (mode : Mode) {side : Amount} {share : Decimal} (hside : 0 ≤ side)
    (hin : Amount.InRange side) (hlow : -1 ≤ share.toRat)
    (hfits : share.toRat ≤ 1 ∨
      side * share.toRat + ulp * max 1 (side * share.toRat) ≤ Amount.greatest) :
    ∃ d c, (orOverflow ((Decimal.ofInt side).mul share)).Returns d ∧ (ofResult mode d).Returns c := by
  by_cases hnonneg : 0 ≤ share.toRat
  · obtain ⟨d, c, hd, -, -, hc, -⟩ := exists_result mode hside hin hnonneg hfits
    exact ⟨d, c, hd, hc⟩
  have hside' : (0 : ℚ) ≤ side := by exact_mod_cast hside
  have hside19 := cast_le_greatest hin
  have hproduct : |(Decimal.ofInt side).toRat * share.toRat| ≤ 10 ^ 19 := by
    rw [Decimal.toRat_ofInt, abs_mul, abs_of_nonneg hside', abs_of_neg (not_le.1 hnonneg)]
    nlinarith
  obtain ⟨d, hd⟩ := Decimal.exists_mul_of_abs_le (hproduct.trans (by rw [bound_eq]; norm_num))
  have hclose := (Decimal.mul_close hd).trans
    (mul_le_mul_of_nonneg_left (max_le (by norm_num : (1 : ℚ) ≤ 10 ^ 19) hproduct) ulp_pos.le)
  have hd1 : d.toRat ≤ 1 := by
    have hneg : (Decimal.ofInt side).toRat * share.toRat ≤ 0 := by
      rw [Decimal.toRat_ofInt]
      exact mul_nonpos_of_nonneg_of_nonpos hside' (not_le.1 hnonneg).le
    rw [Decimal.ulp] at hclose
    linarith [(abs_le.1 hclose).2]
  have hvalid : (d.max .zero).Valid := by
    unfold Decimal.max
    split
    · exact Decimal.valid_ofInt (by decide)
    · exact Decimal.mul_valid hd
  have hmax0 : 0 ≤ (d.max .zero).toRat := Conversion.max_zero_nonneg d
  have hmax1 : (d.max .zero).toRat ≤ Amount.greatest := by
    rw [Decimal.toRat_max, Decimal.toRat_zero]
    exact (max_le hd1 zero_le_one).trans (by norm_num [Amount.greatest])
  obtain ⟨c, hc, -⟩ := exists_ofResult mode hvalid hmax0 (whole_inRange hmax0 hmax1)
  exact ⟨d, c, returns_orOverflow.2 hd, ofResult_max_zero mode d ▸ hc⟩

end Curve
end BondingCurve
