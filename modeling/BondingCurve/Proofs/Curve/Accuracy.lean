import BondingCurve.Connector
import BondingCurve.Proofs.Curve.Evaluation
import BondingCurve.Proofs.Decimal.PowerAccuracy
import BondingCurve.Proofs.ExactCurve
import Mathlib.Analysis.Convex.SpecificFunctions.Basic

/-!
# An evaluation is close to the exact curve

A growth is off by a share of it (`growth_within`), a shrunk rest by an amount of it
(`shrunk_close`). Under the reciprocal of a weight, either grows with the reciprocal. So what a buy
delivers is off by a part in `10 ^ 24` of the supply after it (`buy_close`), and what a sale delivers
by that part of the balance over the weight (`sell_close`).
-/

namespace BondingCurve

/-! ## Powers of a number that is not above one -/

/-- A power above one moves no faster than its exponent. -/
theorem abs_rpow_sub_rpow_le {a b p : ℝ} (ha0 : 0 ≤ a) (ha1 : a ≤ 1) (hb0 : 0 ≤ b) (hb1 : b ≤ 1)
    (hp : 1 ≤ p) : |a ^ p - b ^ p| ≤ p * |a - b| := by
  wlog hab : b ≤ a generalizing a b
  · rw [abs_sub_comm, abs_sub_comm a]
    exact this hb0 hb1 ha0 ha1 (le_of_not_ge hab)
  rcases ha0.eq_or_lt with rfl | ha
  · rw [le_antisymm hab hb0, sub_self, sub_self, abs_zero, mul_zero]
  have hbernoulli := one_add_mul_self_le_rpow_one_add (s := b / a - 1)
    (by linarith [div_nonneg hb0 ha0]) hp
  rw [add_sub_cancel, Real.div_rpow hb0 ha0, le_div_iff₀ (Real.rpow_pos_of_pos ha p)] at hbernoulli
  have hself : a ^ p ≤ a := by
    simpa using Real.rpow_le_rpow_of_exponent_ge ha ha1 hp
  have hslope : a ^ p * ((a - b) / a) ≤ a - b := by
    rw [← mul_div_assoc, div_le_iff₀ ha, mul_comm]
    exact mul_le_mul_of_nonneg_left hself (sub_nonneg.2 hab)
  have hsplit : (1 + p * (b / a - 1)) * a ^ p = a ^ p - p * (a ^ p * ((a - b) / a)) := by
    field_simp
    ring
  rw [abs_of_nonneg (sub_nonneg.2 (Real.rpow_le_rpow hb0 hab (by linarith))),
    abs_of_nonneg (sub_nonneg.2 hab)]
  linarith [mul_le_mul_of_nonneg_left hslope (by linarith : 0 ≤ p)]

/-- Nor does it move faster with its exponent than by one. -/
theorem abs_rpow_sub_rpow_exponent_le {z a b : ℝ} (hz0 : 0 ≤ z) (hz1 : z ≤ 1) (ha : 1 ≤ a)
    (hb : 1 ≤ b) : |z ^ a - z ^ b| ≤ |a - b| := by
  wlog hab : a ≤ b generalizing a b
  · rw [abs_sub_comm, abs_sub_comm a]
    exact this hb ha (le_of_not_ge hab)
  rcases hz0.eq_or_lt with rfl | hz
  · rw [Real.zero_rpow (by linarith), Real.zero_rpow (by linarith), sub_self, abs_zero]
    exact abs_nonneg _
  have hself : z ^ a ≤ z := by
    simpa using Real.rpow_le_rpow_of_exponent_ge hz hz1 ha
  have hlog : -Real.log z * z ≤ 1 := by
    have hle := mul_le_mul_of_nonneg_right (Real.one_sub_inv_le_log_of_pos hz) hz0
    rw [sub_mul, inv_mul_cancel₀ hz.ne'] at hle
    linarith
  have hloss : 1 - z ^ (b - a) ≤ (b - a) * -Real.log z := by
    rw [Real.rpow_def_of_pos hz]
    linarith [Real.add_one_le_exp (Real.log z * (b - a))]
  have hsplit : z ^ a - z ^ b = z ^ a * (1 - z ^ (b - a)) := by
    rw [mul_sub, mul_one, ← Real.rpow_add hz, add_sub_cancel]
  have hlog0 : 0 ≤ -Real.log z := neg_nonneg.2 (Real.log_nonpos hz0 hz1)
  rw [abs_of_nonneg (sub_nonneg.2 (Real.rpow_le_rpow_of_exponent_ge hz hz1 hab)), abs_sub_comm a,
    abs_of_nonneg (sub_nonneg.2 hab), hsplit]
  calc z ^ a * (1 - z ^ (b - a)) ≤ z ^ a * ((b - a) * -Real.log z) :=
        mul_le_mul_of_nonneg_left hloss (Real.rpow_nonneg hz0 a)
    _ ≤ z * ((b - a) * -Real.log z) :=
        mul_le_mul_of_nonneg_right hself (mul_nonneg (sub_nonneg.2 hab) hlog0)
    _ = (b - a) * (-Real.log z * z) := by ring
    _ ≤ (b - a) * 1 := mul_le_mul_of_nonneg_left hlog (sub_nonneg.2 hab)
    _ = b - a := mul_one _

/-- What is no more than a little above a number has a power that is no more than the exponent times
as much above its power. -/
theorem rpow_le_add {a b δ p : ℝ} (ha0 : 0 ≤ a) (ha1 : a ≤ 1) (hb0 : 0 ≤ b) (hb1 : b ≤ 1)
    (hp : 1 ≤ p) (hδ : 0 ≤ δ) (h : a ≤ b + δ) : a ^ p ≤ b ^ p + δ * p := by
  rcases le_total a b with hbelow | habove
  · have hmono := Real.rpow_le_rpow ha0 hbelow (by linarith : 0 ≤ p)
    linarith [mul_nonneg hδ (by linarith : 0 ≤ p)]
  · have hlipschitz := abs_rpow_sub_rpow_le ha0 ha1 hb0 hb1 hp
    rw [abs_of_nonneg (sub_nonneg.2 habove)] at hlipschitz
    have hscaled := mul_le_mul_of_nonneg_left (sub_le_iff_le_add'.2 h) (by linarith : 0 ≤ p)
    linarith [le_abs_self (a ^ p - b ^ p)]

/-! ## Weights -/

/-- A valid weight is positive in value. -/
theorem Weight.IsValid.pos {d : Decimal} (h : IsValid d) : 0 < d.toRat :=
  Decimal.toRat_zero ▸ Decimal.toRat_lt_toRat.2 h.1

/-- A valid weight is one at most. -/
theorem Weight.IsValid.le_one {d : Decimal} (h : IsValid d) : d.toRat ≤ 1 :=
  Decimal.toRat_one ▸ Decimal.toRat_le_toRat.2 h.2

namespace Curve

open Outcome
open Decimal (ulp ulp_pos bound_eq)

variable {part whole : Amount} {w k grown growth rest shrunk : Decimal}

/-- A weight above zero and not above one, whose reciprocal has 24 digits at most. -/
structure Ordinary (w : Decimal) : Prop where
  valid : w.Valid
  large : 2 / 10 ^ 24 ≤ w.toRat
  le_one : w.toRat ≤ 1

/-- An ordinary weight is positive. -/
theorem Ordinary.pos (h : Ordinary w) : 0 < w.toRat :=
  lt_of_lt_of_le (by norm_num) h.large

/-- The reciprocal of a weight as it is computed. -/
structure IsReciprocal (w k : Decimal) : Prop where
  valid : k.Valid
  one_le : 1 ≤ k.toRat
  close : |k.toRat - w.toRat⁻¹| ≤ ulp * w.toRat⁻¹

/-- A positive decimal up to one has a reciprocal, rounded in its last digit. -/
theorem exists_reciprocal (hw : w.Valid) (h0 : 0 < w.toRat) (h1 : w.toRat ≤ 1) :
    ∃ k, Decimal.one.divOrAbort w = .ok k ∧ IsReciprocal w k := by
  have hinv : 1 ≤ w.toRat⁻¹ := (one_le_inv₀ h0).2 h1
  obtain ⟨k, hk⟩ := Decimal.exists_div_of_quotient_le (a := Decimal.one) (b := w)
    (fun h => h0.ne' (Decimal.toRat_of_coefficient_eq_zero h))
    (by
      have hle : w.toRat⁻¹ ≤ ulp⁻¹ := inv_anti₀ ulp_pos (hw.ulp_le h0)
      rw [← Decimal.abs_toRat_div_toRat, Decimal.toRat_one, one_div,
        abs_of_nonneg (by linarith), bound_eq]
      refine hle.trans ?_
      norm_num [ulp])
    (Nat.zero_le _)
  have hrounds := Decimal.div_rounds hk (by rw [Decimal.toRat_one]; exact zero_le_one) h0.le
  have hclose := Decimal.div_close hk
  rw [Decimal.toRat_one, one_div] at hrounds hclose
  rw [Decimal.Close, abs_of_pos (inv_pos.2 h0), max_eq_right hinv] at hclose
  have hge := hrounds.ge Decimal.valid_one
  rw [Decimal.toRat_one] at hge
  exact ⟨k, by rw [Decimal.divOrAbort, hk]; rfl, Decimal.div_valid hk Decimal.valid_one, hge hinv,
    hclose⟩

/-- The reciprocal that the curve works with is rounded in its last digit only. -/
theorem isReciprocal (hw : w.Valid) (h0 : 0 < w.toRat) (h1 : w.toRat ≤ 1)
    (h : Decimal.one.divOrAbort w = .ok k) : IsReciprocal w k := by
  obtain ⟨k', hk', hreciprocal⟩ := exists_reciprocal hw h0 h1
  rwa [Except.ok.inj (h.symm.trans hk')] at *

/-- Its rounding makes a reciprocal hardly larger. -/
theorem IsReciprocal.le (h : IsReciprocal w k) (h0 : 0 < w.toRat) :
    k.toRat ≤ 1.0001 * w.toRat⁻¹ := by
  have hinv : 0 < w.toRat⁻¹ := inv_pos.2 h0
  have hclose := (abs_le.1 h.close).2
  rw [ulp] at hclose
  linarith

/-- The reciprocal of an ordinary weight is an exponent that powers can be taken to. -/
theorem IsReciprocal.le_of_ordinary (h : IsReciprocal w k) (hw : Ordinary w) :
    k.toRat ≤ 10 ^ 24 := by
  have hinv := inv_anti₀ (by norm_num) hw.large
  rw [inv_div] at hinv
  linarith [h.le hw.pos]

/-! The same over the real numbers. -/

theorem Ordinary.pos_real (h : Ordinary w) : (0 : ℝ) < w.toRat := by
  exact_mod_cast h.pos

theorem Ordinary.one_le_inv (h : Ordinary w) : (1 : ℝ) ≤ (w.toRat : ℝ)⁻¹ :=
  (one_le_inv₀ h.pos_real).2 (by exact_mod_cast h.le_one)

/-- An ordinary weight is not so small that its reciprocal outgrows the digits of a decimal. -/
theorem Ordinary.inv_le (h : Ordinary w) : (w.toRat : ℝ)⁻¹ ≤ 10 ^ 24 / 2 := by
  rw [← inv_div]
  refine inv_anti₀ (by norm_num) ?_
  have hlarge : ((2 / 10 ^ 24 : ℚ) : ℝ) ≤ w.toRat := by exact_mod_cast h.large
  push_cast at hlarge
  exact hlarge

theorem IsReciprocal.one_le_real (h : IsReciprocal w k) : (1 : ℝ) ≤ k.toRat := by
  exact_mod_cast h.one_le

theorem IsReciprocal.le_real (h : IsReciprocal w k) (h0 : 0 < w.toRat) :
    (k.toRat : ℝ) ≤ 1.0001 * (w.toRat : ℝ)⁻¹ := by
  have hle : (k.toRat : ℝ) ≤ ((1.0001 * w.toRat⁻¹ : ℚ) : ℝ) := by exact_mod_cast h.le h0
  push_cast at hle
  exact hle

/-- Over the real numbers the reciprocal is off by a part in `10 ^ 28`. -/
theorem IsReciprocal.close_real (h : IsReciprocal w k) :
    |(k.toRat : ℝ) - (w.toRat : ℝ)⁻¹| ≤ 1 / 10 ^ 28 * (w.toRat : ℝ)⁻¹ := by
  have hclose : |(k.toRat : ℝ) - (w.toRat : ℝ)⁻¹| ≤ ((ulp * w.toRat⁻¹ : ℚ) : ℝ) := by
    exact_mod_cast h.close
  rw [ulp] at hclose
  push_cast at hclose
  exact hclose

/-- A power for an exponent above zero. -/
theorem returns_power {b k r : Decimal} (hk : 0 < k.toRat) :
    (power b k).Returns r ↔ b.pow k = .ok r := by
  have hk0 : k.coefficient ≠ 0 := fun h => hk.ne' (Decimal.toRat_of_coefficient_eq_zero h)
  unfold power
  split
  · next hzero =>
    have hb0 : b.coefficient = 0 := by simpa [Decimal.isZero] using hzero
    have hpow : b.pow k = .ok .zero := by
      unfold Decimal.pow
      rw [if_neg hk0, if_pos hb0]
    rw [returns_pure, hpow, Except.ok.injEq]
  · exact returns_orOverflow

/-! ## Growth -/

/-- The growth of a side is a power that is right but for a small share of it. -/
theorem growth_within (hpart : 0 ≤ part) (hwhole : 0 < whole) (hin : Amount.InRange part)
    (hgrown : onePlus part whole = .ok grown) (hk : 0 < k.toRat) (hk24 : k.toRat ≤ 10 ^ 24)
    (h : (power grown k).Returns growth) :
    growth.Valid ∧
      Within (4 / 10 ^ 25 * (1 + k.toRat)) growth.toRat ((1 + part / whole : ℝ) ^ (k.toRat : ℝ)) := by
  obtain ⟨grown', hgrown', hvalid, hone, hclose⟩ := exists_onePlus hpart hwhole hin
  obtain rfl := Except.ok.inj (hgrown.symm.trans hgrown')
  rw [returns_power hk] at h
  obtain ⟨hgvalid, hpow⟩ := Decimal.pow_close hvalid (by linarith) hk hk24 h
  refine ⟨hgvalid, ?_⟩
  have hk' : (0 : ℝ) < k.toRat := by exact_mod_cast hk
  have hk24' : (k.toRat : ℝ) ≤ 10 ^ 24 := by exact_mod_cast hk24
  have hone' : (1 : ℝ) ≤ grown.toRat := by exact_mod_cast hone
  have hbase : (1 : ℝ) ≤ 1 + part / whole := by
    have hshare : (0 : ℝ) ≤ part / whole :=
      div_nonneg (by exact_mod_cast hpart) (by exact_mod_cast hwhole.le)
    linarith
  have hwithin : Within (3 / 10 ^ 28) grown.toRat (1 + part / whole) := by
    have hrat := Within.of_rat hclose
    rw [ulp] at hrat
    push_cast at hrat
    rwa [mul_one_div] at hrat
  have hexact := hwithin.rpow (k := k.toRat) (by norm_num) hk'.le (by linarith) (by linarith)
  rw [max_eq_right (Real.one_le_rpow hone' hk'.le)] at hpow
  have hcomputed : Within (3 / 10 ^ 25 * (1 + k.toRat)) growth.toRat
      ((grown.toRat : ℝ) ^ (k.toRat : ℝ)) := hpow
  refine (hcomputed.trans hexact (by positivity)).mono (Real.rpow_nonneg (by linarith) _) ?_
  have hproduct := mul_le_mul_of_nonneg_left (by linarith : 4 * ((k.toRat : ℝ) * (3 / 10 ^ 28)) ≤ 1 / 5)
    (by positivity : 0 ≤ 3 / 10 ^ 25 * (1 + (k.toRat : ℝ)))
  linarith

/-- Under the reciprocal of a weight the share of the error grows with the reciprocal. -/
theorem growth_reciprocal_within (hw : Ordinary w) (hk : IsReciprocal w k) (hpart : 0 ≤ part)
    (hwhole : 0 < whole) (hin : Amount.InRange part) (hgrown : onePlus part whole = .ok grown)
    (h : (power grown k).Returns growth) :
    growth.Valid ∧ Within (1 / 10 ^ 24 * (w.toRat : ℝ)⁻¹) growth.toRat
      ((1 + part / whole : ℝ) ^ (w.toRat : ℝ)⁻¹) := by
  have hk24 := hk.le_of_ordinary hw
  obtain ⟨hvalid, hgrowth⟩ := growth_within hpart hwhole hin hgrown
    (zero_lt_one.trans_le hk.one_le) hk24 h
  refine ⟨hvalid, ?_⟩
  have hpart' : (0 : ℝ) ≤ part := by exact_mod_cast hpart
  have hwhole' : (1 : ℝ) ≤ whole := by exact_mod_cast hwhole
  have hinv1 := hw.one_le_inv
  have hinv := hw.inv_le
  have hk1 := hk.one_le_real
  have hkle := hk.le_real hw.pos
  -- the exponent is the reciprocal only up to its rounding
  have hbase : (1 : ℝ) ≤ 1 + part / whole := by linarith [div_nonneg hpart' (by linarith : (0 : ℝ) ≤ whole)]
  have hbase' : (1 + part / whole : ℝ) ≤ 10 ^ 20 := by
    have hle : (part : ℝ) / whole ≤ part := div_le_self hpart' hwhole'
    have hgreatest : (part : ℝ) ≤ 10 ^ 19 := by exact_mod_cast cast_le_greatest hin
    linarith
  have hlog : |Real.log (1 + part / whole)| ≤ 47 := by
    have hle := Real.log_le_log (by linarith) hbase'
    rw [Real.log_pow] at hle
    push_cast at hle
    rw [abs_of_nonneg (Real.log_nonneg hbase)]
    linarith [Decimal.log_ten_mem.2]
  have hexponent : |Real.log (1 + part / whole) * (k.toRat - (w.toRat : ℝ)⁻¹)| ≤
      47 * (1 / 10 ^ 28 * (w.toRat : ℝ)⁻¹) := by
    rw [abs_mul]
    exact mul_le_mul hlog hk.close_real (abs_nonneg _) (by norm_num)
  have hrounded := Within.rpow_exponent (by linarith) hexponent (by linarith)
  refine (hgrowth.trans hrounded (by linarith)).mono (Real.rpow_nonneg (by linarith) _) ?_
  have hshare : 4 / 10 ^ 25 * (1 + (k.toRat : ℝ)) ≤ 8.1 / 10 ^ 25 * (w.toRat : ℝ)⁻¹ := by linarith
  have hproduct := mul_le_mul_of_nonneg_right (by linarith :
    4 / 10 ^ 25 * (1 + (k.toRat : ℝ)) ≤ 1 / 2) (by positivity :
    0 ≤ 2 * (47 * (1 / 10 ^ 28 * (w.toRat : ℝ)⁻¹)))
  linarith

/-! ## What is left -/

/-- A power of what is left of a side stays below one, so its error is an absolute one. -/
theorem shrunk_close (hrest : rest.Valid) (h0 : 0 ≤ rest.toRat) (h1 : rest.toRat ≤ 1)
    (hk : 0 < k.toRat) (hk24 : k.toRat ≤ 10 ^ 24) (h : (power rest k).Returns shrunk) :
    shrunk.Valid ∧
      |(shrunk.toRat : ℝ) - (rest.toRat : ℝ) ^ (k.toRat : ℝ)| ≤ 3 / 10 ^ 25 * (1 + k.toRat) := by
  rw [returns_power hk] at h
  obtain ⟨hvalid, hclose⟩ := Decimal.pow_close hrest h0 hk hk24 h
  have hpow : (rest.toRat : ℝ) ^ (k.toRat : ℝ) ≤ 1 :=
    Real.rpow_le_one (by exact_mod_cast h0) (by exact_mod_cast h1) (by exact_mod_cast hk.le)
  rw [max_eq_left hpow, mul_one] at hclose
  exact ⟨hvalid, hclose⟩

/-- Under the reciprocal of a weight the error grows with the reciprocal, the rounding of the rest
and of the exponent included. -/
theorem shrunk_reciprocal_close (hw : Ordinary w) (hk : IsReciprocal w k) (hrest : rest.Valid)
    (h0 : 0 ≤ rest.toRat) (h1 : rest.toRat ≤ 1) {y : ℝ} (hy0 : 0 ≤ y) (hy1 : y ≤ 1)
    (hclose : |(rest.toRat : ℝ) - y| ≤ 1 / 10 ^ 28) (h : (power rest k).Returns shrunk) :
    shrunk.Valid ∧
      |(shrunk.toRat : ℝ) - y ^ (w.toRat : ℝ)⁻¹| ≤ 7 / 10 ^ 25 * (w.toRat : ℝ)⁻¹ := by
  obtain ⟨hvalid, hshrunk⟩ := shrunk_close hrest h0 h1 (zero_lt_one.trans_le hk.one_le)
    (hk.le_of_ordinary hw) h
  refine ⟨hvalid, ?_⟩
  have hinv1 := hw.one_le_inv
  have hkle := hk.le_real hw.pos
  have h0' : (0 : ℝ) ≤ rest.toRat := by exact_mod_cast h0
  have h1' : (rest.toRat : ℝ) ≤ 1 := by exact_mod_cast h1
  have hexponent := (abs_rpow_sub_rpow_exponent_le h0' h1' hk.one_le_real hinv1).trans hk.close_real
  have hbase := abs_rpow_sub_rpow_le h0' h1' hy0 hy1 hinv1
  have hbase' := mul_le_mul_of_nonneg_left hclose (by linarith : 0 ≤ (w.toRat : ℝ)⁻¹)
  linarith [abs_sub_le (shrunk.toRat : ℝ) ((rest.toRat : ℝ) ^ (k.toRat : ℝ))
    ((rest.toRat : ℝ) ^ (w.toRat : ℝ)⁻¹), abs_sub_le (shrunk.toRat : ℝ)
    ((rest.toRat : ℝ) ^ (w.toRat : ℝ)⁻¹) (y ^ (w.toRat : ℝ)⁻¹)]

/-! ## Results -/

/-- Taking one off a growth rounds nothing. -/
theorem gain_eq {gain : Decimal} (hvalid : growth.Valid) (h0 : 0 ≤ growth.toRat)
    (h : growth.subOrAbort .one = .ok gain) : gain.toRat = growth.toRat - 1 := by
  obtain ⟨gain', hgain, -, hvalue⟩ := Decimal.sub_one_exact hvalid h0
  rwa [Except.ok.inj ((Abort.mapError_eq_ok.1 h).symm.trans hgain)]

/-- Taking what is left off one rounds nothing. -/
theorem loss_eq {loss : Decimal} (hvalid : shrunk.Valid) (h0 : 0 ≤ shrunk.toRat)
    (h8 : shrunk.toRat ≤ 8) (h : Decimal.one.subOrAbort shrunk = .ok loss) :
    loss.toRat = 1 - shrunk.toRat := by
  obtain ⟨loss', hloss, -, hvalue⟩ := Decimal.sub_exact_of_lt Decimal.valid_one hvalid (by
    have hle : |1 - shrunk.toRat| ≤ 7 := by
      rw [abs_le]
      constructor <;> linarith
    rw [Decimal.toRat_one, bound_eq]
    exact (mul_le_mul_of_nonneg_right hle (by norm_num)).trans_lt (by norm_num))
  rw [Decimal.toRat_one] at hvalue
  rwa [Except.ok.inj ((Abort.mapError_eq_ok.1 h).symm.trans hloss)]

/-- The last product and its rounding. A result below zero counts as zero, which is no further from
what is not negative. -/
theorem theoretical_close {side : Amount} {share d theoretical : Decimal} {x ε : ℝ} (hside : 0 < side)
    (hx : 0 ≤ x) (hshare : |(share.toRat : ℝ) - x| ≤ ε)
    (hd : (orOverflow ((Decimal.ofInt side).mul share)).Returns d)
    (htheoretical : theoretical = d.max .zero) :
    |(theoretical.toRat : ℝ) - side * x| ≤ side * ε + 1 / 10 ^ 28 * (1 + side * (x + ε)) := by
  have hside' : (0 : ℝ) < side := by exact_mod_cast hside
  have hε : 0 ≤ ε := (abs_nonneg _).trans hshare
  have hround := (Decimal.mul_close (returns_orOverflow.1 hd)).real
  rw [Decimal.toRat_ofInt] at hround
  push_cast at hround
  have hproduct : |(side : ℝ) * share.toRat - side * x| ≤ side * ε := by
    rw [← mul_sub, abs_mul, abs_of_pos hside']
    exact mul_le_mul_of_nonneg_left hshare hside'.le
  have hmax : max 1 |(side : ℝ) * share.toRat| ≤ 1 + side * (x + ε) := by
    have hsx : |(side : ℝ) * x| = side * x := abs_of_nonneg (by positivity)
    refine max_le (by linarith [mul_nonneg hside'.le (add_nonneg hx hε)]) ?_
    linarith [abs_sub_abs_le_abs_sub ((side : ℝ) * share.toRat) (side * x)]
  have hbelow : |(theoretical.toRat : ℝ) - side * x| ≤ |(d.toRat : ℝ) - side * x| := by
    have hsx : 0 ≤ (side : ℝ) * x := by positivity
    rw [htheoretical, Decimal.toRat_max, Decimal.toRat_zero, Rat.cast_max, Rat.cast_zero]
    rcases le_total (d.toRat : ℝ) 0 with hneg | hpos
    · rw [max_eq_right hneg, zero_sub, abs_neg, abs_of_nonneg hsx, abs_sub_comm]
      exact (by linarith : (side : ℝ) * x ≤ side * x - d.toRat).trans (le_abs_self _)
    · rw [max_eq_left hpos]
  refine hbelow.trans ((abs_sub_le _ ((side : ℝ) * share.toRat) _).trans ?_)
  linarith [mul_le_mul_of_nonneg_left hmax (by norm_num : (0 : ℝ) ≤ 1 / 10 ^ 28)]

variable {balance supply paid sold : Amount} {c : Conversion}

/-- What a buy delivers before it is cut off, up to a part in `10 ^ 24` of the supply after it. -/
theorem buy_close (hw : Ordinary w) (hin : Amount.InRange paid)
    (h : (buy balance supply w paid).Returns c) :
    |(c.theoretical.toRat : ℝ) - ExactCurve.buy balance supply w.toRat paid| ≤
      1 / 10 ^ 24 * (supply + ExactCurve.buy balance supply w.toRat paid) := by
  simp only [buy, returns_bind, returns_lift, returns_checkState] at h
  obtain ⟨-, ⟨hbalance, hsupply, hpaid⟩, grown, hgrown, growth, hgrowth, gain, hgain, d, hd, h⟩ := h
  have hw24 : w.toRat ≤ 10 ^ 24 := hw.le_one.trans (by norm_num)
  obtain ⟨hvalid, hwithin⟩ := growth_within hpaid.le hbalance hin hgrown hw.pos hw24 hgrowth
  have hgrowth0 : 0 ≤ growth.toRat := by
    obtain ⟨_, hgrown', -, hone, -⟩ := exists_onePlus hpaid.le hbalance hin
    obtain rfl := Except.ok.inj (hgrown.symm.trans hgrown')
    exact power_nonneg (by linarith) hgrowth
  have hsupply' : (1 : ℝ) ≤ supply := by exact_mod_cast hsupply
  have hbase : (1 : ℝ) ≤ 1 + paid / balance := by
    have hshare : (0 : ℝ) ≤ paid / balance :=
      div_nonneg (by exact_mod_cast hpaid.le) (by exact_mod_cast hbalance.le)
    linarith
  have hG : 1 ≤ (1 + paid / balance : ℝ) ^ (w.toRat : ℝ) :=
    Real.one_le_rpow hbase hw.pos_real.le
  rw [ExactCurve.buy]
  generalize (1 + paid / balance : ℝ) ^ (w.toRat : ℝ) = G at hwithin hG ⊢
  have hone : (w.toRat : ℝ) ≤ 1 := by exact_mod_cast hw.le_one
  have hshare : |(gain.toRat : ℝ) - (G - 1)| ≤ 8 / 10 ^ 25 * G := by
    rw [gain_eq hvalid hgrowth0 hgain]
    push_cast
    rw [sub_sub_sub_cancel_right]
    exact hwithin.mono (by linarith) (by linarith)
  have hclose := theoretical_close hsupply (by linarith) hshare hd
    (Conversion.truncated_isOutcome h).1
  refine hclose.trans ?_
  have hSG : 1 ≤ (supply : ℝ) * G := by nlinarith
  linarith

/-- What a sale delivers before it is cut off, up to a part in `10 ^ 24` of the balance over the
weight. -/
theorem sell_close (hw : Ordinary w) (hin : Amount.InRange sold)
    (h : (sell balance supply w sold).Returns c) :
    |(c.theoretical.toRat : ℝ) - ExactCurve.sell balance supply w.toRat sold| ≤
      1 / 10 ^ 24 * (balance * (w.toRat : ℝ)⁻¹) := by
  simp only [sell, returns_bind, returns_lift, returns_checkState, returns_ite, not_returns_throw,
    false_and, exists_false, and_false, false_or] at h
  obtain ⟨-, ⟨hbalance, hsupply, hsold⟩, hle, rest, hrest, k, hk, shrunk, hshrunk, loss, hloss, d,
    hd, h⟩ := h
  obtain ⟨rest', hrest', hvalid, h0, h1, hclose⟩ := exists_oneMinus hsold.le (not_lt.1 hle) hsupply hin
  obtain rfl := Except.ok.inj (hrest.symm.trans hrest')
  have hreciprocal := isReciprocal hw.valid hw.pos hw.le_one hk
  have hsupply' : (0 : ℝ) < supply := by exact_mod_cast hsupply
  have hbalance' : (1 : ℝ) ≤ balance := by exact_mod_cast hbalance
  have hy0 : (0 : ℝ) ≤ 1 - sold / supply := by
    rw [sub_nonneg, div_le_one hsupply']
    exact_mod_cast not_lt.1 hle
  have hy1 : (1 - sold / supply : ℝ) ≤ 1 := by
    have hshare : (0 : ℝ) ≤ sold / supply := div_nonneg (by exact_mod_cast hsold.le) hsupply'.le
    linarith
  have hclose' : |(rest.toRat : ℝ) - (1 - sold / supply)| ≤ 1 / 10 ^ 28 := by
    have hcast : |(rest.toRat : ℝ) - (1 - sold / supply)| ≤ ((ulp : ℚ) : ℝ) := by
      exact_mod_cast hclose
    rw [ulp] at hcast
    push_cast at hcast
    exact hcast
  obtain ⟨hsvalid, hsclose⟩ := shrunk_reciprocal_close hw hreciprocal hvalid h0 h1 hy0 hy1 hclose'
    hshrunk
  have hinv1 := hw.one_le_inv
  have hinv := hw.inv_le
  have hY0 : 0 ≤ (1 - sold / supply : ℝ) ^ (w.toRat : ℝ)⁻¹ := Real.rpow_nonneg hy0 _
  have hY1 : (1 - sold / supply : ℝ) ^ (w.toRat : ℝ)⁻¹ ≤ 1 :=
    Real.rpow_le_one hy0 hy1 (by linarith)
  rw [ExactCurve.sell]
  generalize (1 - sold / supply : ℝ) ^ (w.toRat : ℝ)⁻¹ = Y at hsclose hY0 hY1 ⊢
  have hshrunk0 : 0 ≤ shrunk.toRat := power_nonneg h0 hshrunk
  have hshrunk8 : shrunk.toRat ≤ 8 := by
    have hcast : (shrunk.toRat : ℝ) ≤ ((8 : ℚ) : ℝ) := by
      push_cast
      linarith [(abs_le.1 hsclose).2]
    exact_mod_cast hcast
  have hshare : |(loss.toRat : ℝ) - (1 - Y)| ≤ 7 / 10 ^ 25 * (w.toRat : ℝ)⁻¹ := by
    rw [loss_eq hsvalid hshrunk0 hshrunk8 hloss]
    push_cast
    rwa [sub_sub_sub_cancel_left, abs_sub_comm]
  refine (theoretical_close hbalance (by linarith) hshare hd
    (Conversion.truncated_isOutcome h).1).trans ?_
  have hscale : (balance : ℝ) ≤ balance * (w.toRat : ℝ)⁻¹ := by nlinarith
  have hY : (balance : ℝ) * (1 - Y) ≤ balance := by nlinarith
  linarith

end Curve
end BondingCurve
