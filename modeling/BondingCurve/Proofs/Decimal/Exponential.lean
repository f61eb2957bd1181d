import BondingCurve.Proofs.Decimal.Squaring
import BondingCurve.Proofs.Relative
import Mathlib.Analysis.Complex.ExponentialBounds

/-!
# The exponential is close to the exact one

The whole part of an exponent is a power of `e`, which is known to 28 decimals, the rest goes
through the series. Its terms are computed wide, so what counts is the first term that is left out,
and that is smaller than the last one that is not (`exp_sub_sum_le`).
-/

namespace BondingCurve
namespace Decimal

open Finset (range)
open Nat (factorial)

/-- Closeness over the real numbers. -/
theorem Close.real {r : Decimal} {x : ℚ} (h : r.Close x) :
    |(r.toRat : ℝ) - x| ≤ 1 / 10 ^ 28 * Max.max 1 |(x : ℝ)| := by
  rw [Close, ulp] at h
  have hcast : |(r.toRat : ℝ) - x| ≤ ((1 / 10 ^ 28 * Max.max 1 |x| : ℚ) : ℝ) := by
    exact_mod_cast h
  push_cast at hcast
  exact hcast

/-! ## The series -/

/-- What the exponential series leaves out is no more than the last term that it has. -/
theorem exp_sub_sum_le {x : ℝ} (h0 : 0 ≤ x) (h1 : x ≤ 1) {n : ℕ} (hn : 0 < n) :
    |(∑ m ∈ range (n + 1), x ^ m / factorial m) - Real.exp x| ≤ x ^ n / factorial n := by
  have hlow := Real.sum_le_exp_of_nonneg h0 (n + 1)
  have hhigh := Real.exp_bound' h0 h1 (show 0 < n + 1 from Nat.succ_pos n)
  have htail : x ^ (n + 1) * ((n + 1 : ℕ) + 1) / (factorial (n + 1) * (n + 1 : ℕ)) ≤
      x ^ n / factorial n := by
    have hn1 : (1 : ℝ) ≤ n := by exact_mod_cast hn
    have hfac : (0 : ℝ) < factorial n := by exact_mod_cast Nat.factorial_pos n
    rw [Nat.factorial_succ, div_le_div_iff₀ (by positivity) hfac, pow_succ]
    push_cast
    have hpow : 0 ≤ x ^ n * factorial n := by positivity
    have hfactor : x * (n + 1 + 1) ≤ (n + 1) * (n + 1) := by nlinarith
    calc x ^ n * x * (n + 1 + 1) * factorial n
        = x ^ n * factorial n * (x * (n + 1 + 1)) := by ring
      _ ≤ x ^ n * factorial n * ((n + 1) * (n + 1)) := mul_le_mul_of_nonneg_left hfactor hpow
      _ = x ^ n * ((n + 1) * factorial n * (n + 1)) := by ring
  rw [abs_le]
  constructor <;> linarith

/-- The state of the series: `term` is the term of order `n`, `sum` the sum up to it. -/
structure InExpSeries (x : ℚ) (n : ℕ) (term sum : Wide) : Prop where
  term_fine : term.IsFine
  sum_fine : sum.IsFine
  term_close : |term.toRat - x ^ n / factorial n| ≤ 5 * Wide.roundoff
  sum_close : |sum.toRat - ∑ m ∈ range (n + 1), x ^ m / factorial m| ≤
    5 * Wide.roundoff * (n + 1)

variable {x : Wide} {n : ℕ} {term sum : Wide}

/-- For an argument up to one no term of the series is larger than one. -/
theorem term_le_one {x : ℚ} (h0 : 0 ≤ x) (h1 : x ≤ 1) (n : ℕ) : x ^ n / factorial n ≤ 1 := by
  have hfac : (1 : ℚ) ≤ factorial n := by exact_mod_cast Nat.factorial_pos n
  exact div_le_one_of_le₀ ((pow_le_one₀ h0 h1).trans hfac) (by linarith)

/-- So no partial sum runs over the range of a wide number. -/
theorem sum_le_three {x : ℚ} (h0 : 0 ≤ x) (h1 : x ≤ 1) (n : ℕ) :
    ∑ m ∈ range n, x ^ m / factorial m ≤ 2.8 := by
  have hle := Real.sum_le_exp_of_nonneg (x := x) (by exact_mod_cast h0) n
  have hexp : Real.exp x ≤ Real.exp 1 := Real.exp_le_exp.2 (by exact_mod_cast h1)
  have hsum : ((∑ m ∈ range n, x ^ m / factorial m : ℚ) : ℝ) ≤ (2.8 : ℚ) := by
    push_cast
    linarith [Real.exp_one_lt_d9]
  exact_mod_cast hsum

/-- Dividing a term by its number halves its error, or better, and adds a rounding. -/
theorem expQuotient_close {x : ℚ} (h0 : 0 ≤ x) (h1 : x ≤ 1) (hn : 1 ≤ n) (hfine : term.IsFine)
    (hterm : |term.toRat - x ^ n / factorial n| ≤ 5 * Wide.roundoff) :
    |(term.divSmall (n + 1)).toRat - x ^ n / factorial (n + 1)| ≤ 3.5 * Wide.roundoff := by
  have hroundoff : Wide.roundoff ≤ 1 / 10 := by norm_num [Wide.roundoff]
  have hT0 : 0 ≤ x ^ n / factorial n := by positivity
  have hT1 := term_le_one h0 h1 n
  have hn' : (2 : ℚ) ≤ (n + 1 : ℕ) := by exact_mod_cast Nat.succ_le_succ hn
  have hpart {y z : ℚ} (hy : |y| ≤ z) : |y / (n + 1 : ℕ)| ≤ z / 2 := by
    rw [abs_div, Nat.abs_cast]
    exact div_le_div₀ ((abs_nonneg y).trans hy) hy (by norm_num) hn'
  have hquotient : |term.toRat / (n + 1 : ℕ)| ≤ 1 := by
    have hterm2 : |term.toRat| ≤ 2 := by
      have hclose := abs_le.1 hterm
      rw [abs_le]
      constructor <;> linarith
    linarith [hpart hterm2]
  have hdiv := (Wide.divSmall_close hfine (Nat.succ_pos n)).2
  rw [max_eq_left hquotient, mul_one] at hdiv
  have hnext := hpart hterm
  rw [sub_div, div_div, ← Nat.cast_mul, Nat.mul_comm, ← Nat.factorial_succ] at hnext
  linarith [abs_sub_le (term.divSmall (n + 1)).toRat (term.toRat / (n + 1 : ℕ))
    (x ^ n / factorial (n + 1))]

/-- A term is followed by the next one, at the same distance from the exact series. -/
theorem exists_expTerm (h0 : 0 ≤ x.toRat) (h1 : x.toRat ≤ 1) (hn : 1 ≤ n) (hfine : term.IsFine)
    (hterm : |term.toRat - x.toRat ^ n / factorial n| ≤ 5 * Wide.roundoff) :
    ∃ term', x.mul (term.divSmall (n + 1)) = .ok term' ∧ term'.IsFine ∧
      |term'.toRat - x.toRat ^ (n + 1) / factorial (n + 1)| ≤ 5 * Wide.roundoff := by
  have hclose := expQuotient_close h0 h1 hn hfine hterm
  generalize (term.divSmall (n + 1)) = quotient at hclose ⊢
  have hfactor : |x.toRat * quotient.toRat - x.toRat ^ (n + 1) / factorial (n + 1)| ≤
      3.5 * Wide.roundoff := by
    rw [pow_succ', mul_div_assoc, ← mul_sub, abs_mul, abs_of_nonneg h0]
    exact (mul_le_of_le_one_left (abs_nonneg _) h1).trans hclose
  have hle : |x.toRat * quotient.toRat| ≤ 1.1 := by
    have hexact0 : 0 ≤ x.toRat ^ (n + 1) / factorial (n + 1) := by positivity
    have hexact1 := term_le_one h0 h1 (n + 1)
    have hroundoff : Wide.roundoff ≤ 1 / 100 := by norm_num [Wide.roundoff]
    have hbounds := abs_le.1 hfactor
    rw [abs_le]
    constructor <;> linarith
  obtain ⟨term', hterm'⟩ := Wide.exists_mul (hle.trans_lt (by norm_num))
  obtain ⟨hfine', hmul⟩ := Wide.mul_close hterm'
  refine ⟨term', hterm', hfine', ?_⟩
  have hrounding := hmul.trans (mul_le_mul_of_nonneg_left
    (max_le (by norm_num : (1 : ℚ) ≤ 1.1) hle) Wide.roundoff_pos.le)
  linarith [abs_sub_le term'.toRat (x.toRat * quotient.toRat)
    (x.toRat ^ (n + 1) / factorial (n + 1)), Wide.roundoff_pos]

/-- The next term and the sum with it, which is not rounded. -/
theorem InExpSeries.next (h0 : 0 ≤ x.toRat) (h1 : x.toRat ≤ 1) (hn : 1 ≤ n)
    (hn100 : n < 100) (h : InExpSeries x.toRat n term sum) :
    ∃ term' sum', x.mul (term.divSmall (n + 1)) = .ok term' ∧ sum.add term' = .ok sum' ∧
      sum'.toRat = sum.toRat + term'.toRat ∧ InExpSeries x.toRat (n + 1) term' sum' := by
  obtain ⟨term', hterm', hfine', hnew⟩ := exists_expTerm h0 h1 hn h.term_fine h.term_close
  have hsum := abs_le.1 h.sum_close
  have hS := sum_le_three h0 h1 (n + 1)
  have hS0 : 0 ≤ ∑ m ∈ range (n + 1), x.toRat ^ m / factorial m :=
    Finset.sum_nonneg fun m _ => by positivity
  have hn100' : (n : ℚ) + 1 ≤ 100 := by exact_mod_cast hn100
  have hbudget : 5 * Wide.roundoff * (n + 1) ≤ 1 / 10 := by
    rw [Wide.roundoff]
    linarith
  have hsum3 : |sum.toRat| ≤ 3 := by
    rw [abs_le]
    constructor <;> linarith
  have hterm3 : |term'.toRat| ≤ 3 := by
    have hT0' : 0 ≤ x.toRat ^ (n + 1) / factorial (n + 1) := by positivity
    have hT1' := term_le_one h0 h1 (n + 1)
    have hnew' := abs_le.1 hnew
    rw [Wide.roundoff] at hnew'
    rw [abs_le]
    constructor <;> linarith
  obtain ⟨sum', hsum', hfine'', hvalue⟩ := Wide.add_exact h.sum_fine hfine' hsum3 hterm3
  refine ⟨term', sum', hterm', hsum', hvalue, hfine', hfine'', hnew, ?_⟩
  rw [Finset.sum_range_succ, hvalue, add_sub_add_comm]
  refine (abs_add_le _ _).trans ((add_le_add h.sum_close hnew).trans_eq ?_)
  push_cast
  ring

/-- The series is off by less than two units of the 28th decimal. -/
theorem InExpSeries.close (h0 : 0 ≤ x.toRat) (h1 : x.toRat ≤ 1) (hn : 1 ≤ n) (hn100 : n < 100)
    (h : InExpSeries x.toRat n term sum) (hlast : x.toRat ^ n / factorial n ≤ 1.5 * ulp) :
    |(sum.toRat : ℝ) - Real.exp x.toRat| ≤ 2 * ulp := by
  have htail := exp_sub_sum_le (x := x.toRat) (by exact_mod_cast h0) (by exact_mod_cast h1) hn
  have hsum : |(sum.toRat : ℝ) - ∑ m ∈ range (n + 1), (x.toRat : ℝ) ^ m / factorial m| ≤
      ((5 * Wide.roundoff * (n + 1) : ℚ) : ℝ) := by
    exact_mod_cast h.sum_close
  have hlast' : (x.toRat : ℝ) ^ n / factorial n ≤ ((1.5 * ulp : ℚ) : ℝ) := by
    exact_mod_cast hlast
  have hn100' : (n : ℝ) + 1 ≤ 100 := by exact_mod_cast hn100
  have hroundoff : 5 * (Wide.roundoff : ℝ) * (n + 1) ≤ 0.5 * (ulp : ℝ) := by
    rw [Wide.roundoff, ulp]
    push_cast
    linarith
  push_cast at hsum hlast'
  calc |(sum.toRat : ℝ) - Real.exp x.toRat|
      ≤ |(sum.toRat : ℝ) - ∑ m ∈ range (n + 1), (x.toRat : ℝ) ^ m / factorial m| +
        |∑ m ∈ range (n + 1), (x.toRat : ℝ) ^ m / factorial m - Real.exp x.toRat| :=
        abs_sub_le _ _ _
    _ ≤ 2 * ulp := by linarith

/-- The series ends at a small term, with a sum that no term has made smaller. -/
theorem exists_expSeries (h0 : 0 ≤ x.toRat) (h1 : x.toRat ≤ 1) {terms : ℕ} (hn : 1 ≤ n)
    (hterms : n + terms = 99) (hterm : term.IsNonneg) (h : InExpSeries x.toRat n term sum) :
    ∃ m last r, expSeries x terms (n + 1) term sum = .ok r ∧ InExpSeries x.toRat m last r ∧
      Nat.min 99 (n + 1) ≤ m ∧ m < 100 ∧ x.toRat ^ m / factorial m ≤ 1.5 * ulp ∧
      sum.toRat ≤ r.toRat := by
  induction terms generalizing n term sum with
  | zero =>
    obtain rfl : n = 99 := hterms
    refine ⟨99, term, sum, rfl, h, le_rfl, by decide, ?_, le_rfl⟩
    have hfac : (1 : ℚ) ≤ 1.5 * ulp * factorial 99 := by
      norm_num [ulp, Nat.factorial]
    rw [div_le_iff₀ (by positivity)]
    exact (pow_le_one₀ h0 h1).trans hfac
  | succ terms ih =>
    obtain ⟨term', sum', hterm', hsum, hvalue, hnext⟩ := h.next h0 h1 hn (by omega)
    have hnonneg : term'.IsNonneg :=
      Wide.mul_isNonneg (Wide.isNonneg_of_toRat h0) (Wide.divSmall_isNonneg _ hterm) hterm'
    have hle : sum.toRat ≤ sum'.toRat := by
      rw [hvalue]
      linarith [Wide.toRat_nonneg_of_isNonneg hnonneg]
    have hmin : Nat.min 99 (n + 1) ≤ n + 1 := Nat.min_le_right _ _
    unfold expSeries
    rw [hterm']
    show ∃ m last r, (do
      let sum ← sum.add term'
      if term'.isNegligible then return sum else expSeries x terms (n + 2) term' sum) = .ok r ∧ _
    rw [hsum]
    show ∃ m last r, (if term'.isNegligible then .ok sum' else expSeries x terms (n + 2) term' sum') =
      .ok r ∧ _
    split
    · next hsmall =>
      refine ⟨n + 1, term', sum', rfl, hnext, hmin, by omega, ?_, hle⟩
      have hlast := Wide.abs_toRat_le_of_isNegligible hsmall
      have hclose := hnext.term_close
      have hroundoff : 5 * Wide.roundoff ≤ 0.5 * ulp := by norm_num [Wide.roundoff, ulp]
      linarith [(abs_le.1 hclose).1, (abs_le.1 hlast).2]
    · obtain ⟨m, last, r, hr, hend, hm, hm100, hsmall, hge⟩ :=
        ih (by omega) (by omega) hnonneg hnext
      refine ⟨m, last, r, hr, hend, le_trans ?_ hm, hm100, hsmall, hle.trans hge⟩
      exact le_min (Nat.min_le_left _ _) (hmin.trans (Nat.le_succ _))

/-- The exponential of a number below one. -/
def fractionExp (rest : Wide) : Except Fault Wide :=
  if rest.coefficient = 0 then .ok Wide.one
  else do expSeries rest 98 2 rest (← Wide.one.add rest)

/-- The series of a number above zero, up to a small term. -/
theorem exists_fractionSum (hx : x.IsFine) (h0 : 0 < x.toRat) (h1 : x.toRat ≤ 1) :
    ∃ m last r, fractionExp x = .ok r ∧ InExpSeries x.toRat m last r ∧ 2 ≤ m ∧ m < 100 ∧
      x.toRat ^ m / factorial m ≤ 1.5 * ulp ∧ 1 + x.toRat ≤ r.toRat := by
  have hone3 : |Wide.one.toRat| ≤ 3 := by
    rw [Wide.toRat_one]
    norm_num
  have hx3 : |x.toRat| ≤ 3 := by
    rw [abs_of_pos h0]
    linarith
  obtain ⟨sum, hsum, hfine, hvalue⟩ := Wide.add_exact (by decide) hx hone3 hx3
  have hstart : InExpSeries x.toRat 1 x sum := by
    have hroundoff := Wide.roundoff_pos
    refine ⟨hx, hfine, ?_, ?_⟩
    · rw [pow_one, Nat.factorial_one, Nat.cast_one, div_one, sub_self, abs_zero]
      linarith
    · rw [hvalue, Wide.toRat_one]
      simp [Finset.sum_range_succ]
      linarith
  obtain ⟨m, last, r, hr, hend, hm, hm100, hsmall, hge⟩ := exists_expSeries h0.le h1 le_rfl
    (show 1 + 98 = 99 from rfl) (Wide.isNonneg_of_toRat h0.le) hstart
  rw [hvalue, Wide.toRat_one] at hge
  refine ⟨m, last, r, ?_, hend, hm, hm100, hsmall, hge⟩
  unfold fractionExp
  rw [if_neg (fun hzero => h0.ne' (Wide.toRat_of_coefficient_eq_zero hzero)), hsum]
  exact hr

/-- The exponential of a fraction exists, and is right but for two last digits. -/
theorem exists_fractionExp (hx : x.IsFine) (h0 : 0 ≤ x.toRat) (h1 : x.toRat ≤ 1) :
    ∃ r, fractionExp x = .ok r ∧ r.IsFine ∧ Within (2 * ulp) r.toRat (Real.exp x.toRat) := by
  have hulp : (0 : ℝ) < ulp := by exact_mod_cast ulp_pos
  have hexp : 1 ≤ Real.exp x.toRat := Real.one_le_exp (by exact_mod_cast h0)
  rcases h0.eq_or_lt with hzero | hpos
  · refine ⟨Wide.one, ?_, by decide, ?_⟩
    · exact if_pos (Wide.coefficient_eq_zero_of_toRat hzero.symm)
    · rw [← hzero, Wide.toRat_one, Rat.cast_zero, Real.exp_zero, Rat.cast_one]
      exact Within.refl (by linarith) zero_le_one
  · obtain ⟨m, last, r, hr, hend, hm, hm100, hsmall, -⟩ := exists_fractionSum hx hpos h1
    exact ⟨r, hr, hend.sum_fine, (hend.close h0 h1 (by omega) hm100 hsmall).trans
      (le_mul_of_one_le_right (by linarith) hexp)⟩

/-! ## Powers of `e` -/

/-- The constant that is used for `e` is right in all of its digits. -/
theorem e_within : Within (2 / 10 ^ 29) (e.toRat : ℝ) (Real.exp 1) := by
  have hbound := Real.exp_bound (x := 1) (by norm_num) (n := 30) (by norm_num)
  norm_num [Finset.sum_range_succ, Nat.factorial] at hbound
  have hvalue : (e.toRat : ℝ) = 27182818284590452353602874714 / 10 ^ 28 := by
    norm_num [e, toRat, powTen]
  have hexp := Real.exp_one_gt_d9
  rw [abs_le] at hbound
  rw [Within, hvalue, abs_le]
  constructor <;> linarith

theorem e_valid : e.Valid := ⟨by decide, by decide, by decide⟩

/-- A power of `e` has the error of `e` itself for each unit of the exponent. -/
theorem powBits_e {m : ℕ} {w : Wide} (hm : m < 2 ^ 64)
    (h : powBits Wide.mul Wide.one (Wide.ofDecimal e) m = .ok w) :
    w.IsFine ∧ Within (m / 10 ^ 28 + 1 / 10 ^ 28) w.toRat (Real.exp m) := by
  have he : (1 : ℚ) ≤ (Wide.ofDecimal e).toRat := by
    norm_num [e, toRat, powTen]
  have hb : |(Wide.ofDecimal e).toRat| ≤ (Wide.ofDecimal e).toRat := by
    rw [abs_of_nonneg (by linarith)]
  obtain ⟨hfine, hfollows⟩ := powBits_follows Wide.closeMul Wide.roundoff_pos.le he hb
    (by decide) Wide.toRat_one (Wide.isFine_ofDecimal e_valid) h
  have hm' : (m : ℚ) ≤ 18446744073709551616 := by exact_mod_cast hm.le
  have hsmall := one_add_pow_le (k := 2 * m) Wide.roundoff_pos.le (by
    rw [Wide.roundoff]
    push_cast
    linarith)
  have hround : (1 + Wide.roundoff) ^ (2 * m) - 1 ≤ 1 / 10 ^ 28 / 2 := by
    push_cast at hsmall
    rw [Wide.roundoff] at hsmall ⊢
    linarith
  have hpow : 0 ≤ (Wide.ofDecimal e).toRat ^ m := by positivity
  have hcomputed : Within (1 / 10 ^ 28 / 2) w.toRat ((e.toRat : ℝ) ^ m) := by
    have hle := Within.of_rat (hfollows.trans (mul_le_mul_of_nonneg_right hround hpow))
    rw [Wide.toRat_ofDecimal] at hle
    push_cast at hle
    exact hle
  have hm'' : (m : ℝ) ≤ 18446744073709551616 := by exact_mod_cast hm.le
  have hexact := e_within.rpow (k := m) (by norm_num) (Nat.cast_nonneg m) (by linarith)
    (Real.exp_pos 1)
  rw [Real.rpow_natCast, Real.rpow_natCast, ← Real.exp_nat_mul, mul_one] at hexact
  refine ⟨hfine, (hcomputed.trans hexact (by norm_num)).mono (Real.exp_pos _).le ?_⟩
  have hm0 : (0 : ℝ) ≤ m := Nat.cast_nonneg m
  linarith

/-- A whole power of `e` exists when it is within the range of a decimal. -/
theorem exists_powBits_e {m : ℕ} (hm : m < 2 ^ 64) (hexp : Real.exp m ≤ 3 * 10 ^ 28) :
    ∃ w, powBits Wide.mul Wide.one (Wide.ofDecimal e) m = .ok w := by
  have he : (1 : ℚ) ≤ (Wide.ofDecimal e).toRat := by
    norm_num [e, toRat, powTen]
  have hb : |(Wide.ofDecimal e).toRat| ≤ (Wide.ofDecimal e).toRat := by
    rw [abs_of_nonneg (by linarith)]
  refine exists_powBits Wide.closeMul Wide.roundoff_pos.le he hb (by decide) Wide.toRat_one
    (Wide.isFine_ofDecimal e_valid) ?_
  have hm' : (m : ℝ) ≤ 18446744073709551616 := by exact_mod_cast hm.le
  have hexact := e_within.rpow (k := m) (by norm_num) (Nat.cast_nonneg m) (by linarith)
    (Real.exp_pos 1)
  rw [Real.rpow_natCast, Real.rpow_natCast, ← Real.exp_nat_mul, mul_one] at hexact
  have hpow : (e.toRat : ℝ) ^ m ≤ 6 * 10 ^ 28 := by
    have hle := (hexact.mono (κ := 1) (Real.exp_pos _).le (by linarith)).le
    linarith
  have hround : (1 + Wide.roundoff) ^ (2 * m) ≤ 2 := by
    have hm'' : (m : ℚ) ≤ 18446744073709551616 := by exact_mod_cast hm.le
    refine (one_add_pow_le (k := 2 * m) Wide.roundoff_pos.le ?_).trans ?_
    · rw [Wide.roundoff]
      push_cast
      linarith
    · rw [Wide.roundoff]
      push_cast
      linarith
  rw [Wide.toRat_ofDecimal]
  have hpow' : e.toRat ^ m ≤ 6 * 10 ^ 28 := by exact_mod_cast hpow
  have hpos : 0 ≤ e.toRat ^ m := by
    rw [Wide.toRat_ofDecimal] at he
    positivity
  calc (1 + Wide.roundoff) ^ (2 * m) * e.toRat ^ m ≤ 2 * (6 * 10 ^ 28) := by gcongr
    _ ≤ 2 ^ 190 := by norm_num

/-! ## Whole part and rest -/

/-- The factors of an exponential: a power of `e` and the series. -/
structure ExpFactors (m : ℕ) (y : ℝ) (w s : Wide) : Prop where
  whole_lt : m < 2 ^ 64
  rest_nonneg : 0 ≤ y
  whole_within : Within (m / 10 ^ 28 + 1 / 10 ^ 28) w.toRat (Real.exp m)
  rest_within : Within (2 * ulp) s.toRat (Real.exp y)

variable {m : ℕ} {y : ℝ} {w s p : Wide}

/-- The power of `e` brings in no more than two parts in `10 ^ 9`. -/
theorem ExpFactors.share_le (h : ExpFactors m y w s) :
    0 ≤ (m : ℝ) / 10 ^ 28 ∧ (m : ℝ) / 10 ^ 28 ≤ 2 / 10 ^ 9 := by
  have hm : (m : ℝ) ≤ 18446744073709551616 := by exact_mod_cast h.whole_lt.le
  refine ⟨by positivity, ?_⟩
  rw [div_le_div_iff₀ (by positivity) (by positivity)]
  linarith

theorem ExpFactors.one_le (h : ExpFactors m y w s) : 1 ≤ Real.exp (m + y) :=
  Real.one_le_exp (add_nonneg (Nat.cast_nonneg m) h.rest_nonneg)

/-- The errors of the power and of the fraction add up. -/
theorem ExpFactors.factors_within (h : ExpFactors m y w s) :
    Within (m / 10 ^ 28 + 4 / 10 ^ 28) (w.toRat * s.toRat : ℚ) (Real.exp (m + y)) := by
  have hulp : (ulp : ℝ) = 1 / 10 ^ 28 := by norm_num [ulp]
  have hproduct := h.whole_within.mul h.rest_within (Real.exp_pos _).le (Real.exp_pos _).le
  obtain ⟨ht0, ht⟩ := h.share_le
  rw [← Real.exp_add, hulp] at hproduct
  push_cast
  exact hproduct.mono (Real.exp_pos _).le (by linarith)

/-- Their product is rounded once more. -/
theorem ExpFactors.product_within (h : ExpFactors m y w s) (hp : w.mul s = .ok p) :
    Within (m / 10 ^ 28 + 5 / 10 ^ 28) p.toRat (Real.exp (m + y)) := by
  have hroundoff : (Wide.roundoff : ℝ) = 1 / 10 ^ 49 := by norm_num [Wide.roundoff]
  obtain ⟨ht0, ht⟩ := h.share_le
  have hfactors := h.factors_within
  have hwide := Within.of_close (Wide.mul_close hp).2 Wide.roundoff_pos.le
    (by linarith [hfactors.half_le (by linarith) (Real.exp_pos _), h.one_le])
  rw [hroundoff] at hwide
  exact (hwide.trans hfactors (by norm_num)).mono (Real.exp_pos _).le (by linarith)

/-- And once more when it is cut down to a decimal. -/
theorem ExpFactors.narrow_within (h : ExpFactors m y w s) (hp : w.mul s = .ok p) {d : Decimal}
    (hd : p.narrow = .ok d) : Within (m / 10 ^ 28 + 2 / 10 ^ 27) d.toRat (Real.exp (m + y)) := by
  have hulp : (ulp : ℝ) = 1 / 10 ^ 28 := by norm_num [ulp]
  obtain ⟨ht0, ht⟩ := h.share_le
  have hproduct := h.product_within hp
  have hnarrow := Within.of_close (Wide.narrow_close hd).2 (by linarith [ulp_pos])
    (by linarith [hproduct.half_le (by linarith) (Real.exp_pos _), h.one_le])
  push_cast at hnarrow
  rw [hulp] at hnarrow
  exact (hnarrow.trans hproduct (by norm_num)).mono (Real.exp_pos _).le (by linarith)

/-- The exponential of `m + y`, brought together. -/
def scaleExp (m : ℕ) (s : Wide) : Except Fault Decimal :=
  if m = 0 then s.narrow
  else if m ≥ powTwo 64 then throw .overflow
  else do
    let w ← powBits Wide.mul Wide.one (Wide.ofDecimal e) m
    return (← (← w.mul s).narrow).normalize

/-- So the scaled exponential is right but for a part in `10 ^ 28` for each whole unit, and twenty
more. -/
theorem scaleExp_within {r : Decimal} (hy : 0 ≤ y)
    (hs : Within (2 * ulp) s.toRat (Real.exp y)) (h : scaleExp m s = .ok r) :
    r.Valid ∧ m < 2 ^ 64 ∧ Within (m / 10 ^ 28 + 2 / 10 ^ 27) r.toRat (Real.exp (m + y)) := by
  unfold scaleExp at h
  split at h
  · next hm =>
    have hulp : (ulp : ℝ) = 1 / 10 ^ 28 := by norm_num [ulp]
    obtain ⟨hvalid, hnarrow⟩ := Wide.narrow_close h
    have hexp : 1 ≤ Real.exp y := Real.one_le_exp hy
    rw [hulp] at hs
    have hnarrow' := Within.of_close hnarrow (by linarith [ulp_pos])
      (by linarith [hs.half_le (by norm_num) (by linarith)])
    push_cast at hnarrow'
    rw [hulp] at hnarrow'
    rw [hm, Nat.cast_zero, zero_add]
    exact ⟨hvalid, by decide, (hnarrow'.trans hs (by norm_num)).mono (by linarith) (by norm_num)⟩
  split at h
  · cases h
  · next hm =>
    obtain ⟨w, hw, h⟩ := Fault.bind_eq_ok.1 h
    obtain ⟨p, hp, h⟩ := Fault.bind_eq_ok.1 h
    obtain ⟨d, hd, h⟩ := Fault.bind_eq_ok.1 h
    cases h
    have hm' : m < 2 ^ 64 := Nat.not_le.1 hm
    have hfactors : ExpFactors m y w s := ⟨hm', hy, (powBits_e hm' hw).2, hs⟩
    rw [toRat_normalize]
    exact ⟨(Wide.narrow_close hd).1.normalize, hm', hfactors.narrow_within hp hd⟩

/-- A number whose exponential has a coefficient is small. -/
theorem lt_of_exp_le (h : Real.exp y ≤ 10 ^ 30) : y < 70 := by
  by_contra hge
  have htwo : (2.7 : ℝ) ^ 70 ≤ Real.exp 70 := by
    rw [show (70 : ℝ) = (70 : ℕ) * 1 by norm_num, Real.exp_nat_mul]
    exact pow_le_pow_left₀ (by norm_num) (by linarith [Real.exp_one_gt_d9]) 70
  have hle := Real.exp_le_exp.2 (le_of_not_gt hge)
  norm_num at htwo
  linarith

/-- It exists when the exact one is within the range of a decimal. -/
theorem exists_scaleExp (hy : 0 ≤ y) (hs : Within (2 * ulp) s.toRat (Real.exp y))
    (hle : Real.exp (m + y) ≤ 3 * 10 ^ 28) : ∃ r, scaleExp m s = .ok r := by
  have hnarrow {x : ℚ} {η : ℝ} (hx : Within η x (Real.exp (m + y))) (hη : η ≤ 1 / 10) :
      |x| < 2 ^ 95 := by
    have hexp := Real.exp_pos (m + y)
    have hx0 := hx.pos (by linarith) hexp
    have hxle : (x : ℝ) < ((2 ^ 95 : ℚ) : ℝ) := by
      have hxle := (hx.mono hexp.le hη).le
      push_cast
      linarith
    rw [abs_of_pos (by exact_mod_cast hx0)]
    exact_mod_cast hxle
  unfold scaleExp
  split
  · next hm =>
    rw [hm, Nat.cast_zero, zero_add] at hnarrow
    exact Wide.exists_narrow (hnarrow hs (by norm_num [ulp]))
  · have hm : (m : ℝ) < 70 := by linarith [lt_of_exp_le (hle.trans (by norm_num))]
    have hm70 : m < 70 := by exact_mod_cast hm
    have hm64 : m < 2 ^ 64 := hm70.trans (by norm_num)
    obtain ⟨w, hw⟩ := exists_powBits_e hm64 ((Real.exp_le_exp.2 (by linarith)).trans hle)
    have hfactors : ExpFactors m y w s := ⟨hm64, hy, (powBits_e hm64 hw).2, hs⟩
    obtain ⟨ht0, ht⟩ := hfactors.share_le
    obtain ⟨p, hp⟩ := Wide.exists_mul
      ((hnarrow hfactors.factors_within (by linarith)).trans (by norm_num))
    obtain ⟨d, hd⟩ := Wide.exists_narrow (hnarrow (hfactors.product_within hp) (by linarith))
    rw [if_neg (show ¬m ≥ powTwo 64 from Nat.not_le.2 hm64)]
    exact ⟨d.normalize, Fault.bind_eq_ok.2 ⟨w, hw, Fault.bind_eq_ok.2 ⟨p, hp,
      Fault.bind_eq_ok.2 ⟨d, hd, rfl⟩⟩⟩⟩

/-! ## Both signs -/

/-- The number split into its whole part and the rest. -/
theorem exists_fraction {x : Decimal} (hx : x.Valid) (h0 : 0 ≤ x.toRat) :
    ∃ rest, x.sub x.floor = .ok rest ∧ rest.Valid ∧ 0 ≤ rest.toRat ∧ rest.toRat ≤ 1 ∧
      (x.toRat : ℝ) = x.floor.magnitude + rest.toRat := by
  have hfloor : x.floor = ofInt ⌊x.toRat⌋ := floor_eq x
  have hn0 : 0 ≤ ⌊x.toRat⌋ := Int.floor_nonneg.2 h0
  have hlow := Int.floor_le x.toRat
  have hhigh := Int.lt_floor_add_one x.toRat
  have hbound := hx.abs_toRat_le
  rw [abs_of_nonneg h0] at hbound
  have hvalid : (ofInt ⌊x.toRat⌋).Valid := by
    apply valid_ofInt
    have hlt : (⌊x.toRat⌋ : ℚ) < bound := by linarith
    have hlt' : ⌊x.toRat⌋ < (bound : ℤ) := by exact_mod_cast hlt
    omega
  obtain ⟨rest, hrest, hrvalid, hvalue⟩ := sub_exact_of_lt hx hvalid (by
    rw [toRat_ofInt, abs_of_nonneg (by linarith), bound_eq]
    push_cast
    linarith)
  rw [toRat_ofInt] at hvalue
  refine ⟨rest, hfloor ▸ hrest, hrvalid, by linarith, by linarith, ?_⟩
  have hmagnitude : (x.floor.magnitude : ℚ) = ⌊x.toRat⌋ := by
    have hcast : ((⌊x.toRat⌋.natAbs : ℤ) : ℚ) = ⌊x.toRat⌋ := by
      rw [Int.natAbs_of_nonneg hn0]
    rw [hfloor]
    exact hcast
  have hsplit : x.toRat = x.floor.magnitude + rest.toRat := by
    rw [hmagnitude, hvalue]
    ring
  exact_mod_cast hsplit

/-- An exponential is that of the fraction, scaled by the power of the whole part. -/
theorem expNonneg_eq {x rest : Decimal} (h : x.coefficient ≠ 0) (hrest : x.sub x.floor = .ok rest) :
    x.expNonneg =
      (fractionExp (Wide.ofDecimal rest) >>= fun s => scaleExp x.floor.magnitude s) := by
  have hzero : x.floor.coefficient = 0 ↔ x.floor.magnitude = 0 := Int.natAbs_eq_zero.symm
  have hscale (s : Wide) : (if x.floor.coefficient = 0 then s.narrow
      else if x.floor.magnitude ≥ powTwo 64 then throw .overflow
      else do
        let w ← powBits Wide.mul Wide.one (Wide.ofDecimal e) x.floor.magnitude
        return (← (← w.mul s).narrow).normalize) = scaleExp x.floor.magnitude s := by
    unfold scaleExp
    by_cases hwhole : x.floor.coefficient = 0
    · rw [if_pos hwhole, if_pos (hzero.1 hwhole)]
    · rw [if_neg hwhole, if_neg (mt hzero.2 hwhole)]
  unfold expNonneg fractionExp
  rw [if_neg h]
  dsimp only
  rw [hrest]
  by_cases hrest0 : (Wide.ofDecimal rest).coefficient = 0
  · rw [if_pos hrest0]
    exact (if_pos hrest0).trans (hscale Wide.one)
  · rw [if_neg hrest0]
    refine (if_neg hrest0).trans ?_
    rw [bind_assoc]
    congr 1
    funext sum
    congr 1
    funext s
    exact hscale s

/-- The exponential of an argument that is not negative is right but for a part in `10 ^ 26`. -/
theorem expNonneg_within {x r : Decimal} (hx : x.Valid) (h0 : 0 ≤ x.toRat)
    (h : x.expNonneg = .ok r) : r.Valid ∧ Within (1 / 10 ^ 26) r.toRat (Real.exp x.toRat) := by
  by_cases hzero : x.coefficient = 0
  · unfold expNonneg at h
    rw [if_pos hzero] at h
    cases h
    rw [toRat_of_coefficient_eq_zero hzero, toRat_one, Rat.cast_zero, Real.exp_zero, Rat.cast_one]
    exact ⟨valid_ofInt (by decide), Within.refl (by norm_num) zero_le_one⟩
  · obtain ⟨rest, hrest, hrvalid, hr0, hr1, hsplit⟩ := exists_fraction hx h0
    rw [expNonneg_eq hzero hrest] at h
    obtain ⟨s, hs, h⟩ := Fault.bind_eq_ok.1 h
    rw [← Wide.toRat_ofDecimal rest] at hr0 hr1 hsplit
    obtain ⟨s', hs', -, hclose⟩ := exists_fractionExp (Wide.isFine_ofDecimal hrvalid) hr0 hr1
    obtain rfl := Except.ok.inj (hs.symm.trans hs')
    obtain ⟨hvalid, hm, hwithin⟩ := scaleExp_within (by exact_mod_cast hr0) hclose h
    rw [← hsplit] at hwithin
    refine ⟨hvalid, hwithin.mono (Real.exp_pos _).le ?_⟩
    -- the result has a coefficient, so the whole part is small
    have hm' : (x.floor.magnitude : ℝ) ≤ 18446744073709551616 := by exact_mod_cast hm.le
    have hhalf := hwithin.half_le (by linarith) (Real.exp_pos _)
    have hr : (r.toRat : ℝ) ≤ (bound : ℚ) - 1 := by
      exact_mod_cast (le_abs_self _).trans hvalid.abs_toRat_le
    rw [bound_eq] at hr
    push_cast at hr
    have hx70 : (x.toRat : ℝ) < 70 := lt_of_exp_le (by linarith)
    have hrest0 : (0 : ℝ) ≤ (Wide.ofDecimal rest).toRat := by exact_mod_cast hr0
    linarith

theorem exists_expNonneg {x : Decimal} (hx : x.Valid) (h0 : 0 ≤ x.toRat)
    (hle : Real.exp x.toRat ≤ 3 * 10 ^ 28) : ∃ r, x.expNonneg = .ok r := by
  by_cases hzero : x.coefficient = 0
  · unfold expNonneg
    rw [if_pos hzero]
    exact ⟨_, rfl⟩
  · obtain ⟨rest, hrest, hrvalid, hr0, hr1, hsplit⟩ := exists_fraction hx h0
    rw [← Wide.toRat_ofDecimal rest] at hr0 hr1 hsplit
    obtain ⟨s, hs, -, hclose⟩ := exists_fractionExp (Wide.isFine_ofDecimal hrvalid) hr0 hr1
    obtain ⟨r, hr⟩ := exists_scaleExp (by exact_mod_cast hr0) hclose (by rwa [← hsplit])
    exact ⟨r, by rw [expNonneg_eq hzero hrest]; exact Fault.bind_eq_ok.2 ⟨s, hs, hr⟩⟩

/-- The exponential of a negative number is one over that of its magnitude, which is not below
one but for its rounding. -/
structure Inverts (x d : Decimal) : Prop where
  valid : d.Valid
  half_le : 1 / 2 ≤ d.toRat
  within : Within (2 / 10 ^ 26) (d.toRat⁻¹ : ℚ) (Real.exp x.toRat)
  exp_le_one : Real.exp x.toRat ≤ 1

/-- A negative argument is answered by the reciprocal of its opposite. -/
theorem inverts {x d : Decimal} (hx : x.Valid) (hneg : x.coefficient < 0)
    (hd : (-x).expNonneg = .ok d) : Inverts x d := by
  have hneg' : 0 ≤ (-x).toRat := by
    rw [toRat_nonneg_iff]
    show 0 ≤ -x.coefficient
    omega
  obtain ⟨hvalid, hwithin⟩ := expNonneg_within hx.neg hneg' hd
  have hone : (1 : ℝ) ≤ Real.exp (-x).toRat := Real.one_le_exp (by exact_mod_cast hneg')
  have hexp : Real.exp x.toRat = (Real.exp (-x).toRat)⁻¹ := by
    rw [toRat_neg, Rat.cast_neg, Real.exp_neg, inv_inv]
  have hhalf : ((1 / 2 : ℚ) : ℝ) ≤ d.toRat := by
    push_cast
    linarith [hwithin.half_le (by norm_num) (by linarith)]
  refine ⟨hvalid, Rat.cast_le.1 hhalf, ?_, hexp ▸ inv_le_one_of_one_le₀ hone⟩
  rw [hexp, Rat.cast_inv]
  exact (hwithin.inv (by norm_num) (by linarith)).mono (inv_pos.2 (by linarith)).le (by norm_num)

/-- The exponential is off by less than three parts in `10 ^ 26`, of one or of a result above one. -/
theorem exp_close {x r : Decimal} (hx : x.Valid) (h : x.exp = .ok r) :
    r.Valid ∧ |(r.toRat : ℝ) - Real.exp x.toRat| ≤ 3 / 10 ^ 26 * Max.max 1 (Real.exp x.toRat) := by
  have hmax := le_max_left 1 (Real.exp x.toRat)
  have hmax' := le_max_right 1 (Real.exp x.toRat)
  unfold exp at h
  split at h
  · next hneg =>
    obtain ⟨d, hd, hdiv⟩ := Fault.bind_eq_ok.1 h
    obtain ⟨-, hhalf, hwithin, hexp⟩ := inverts hx hneg hd
    refine ⟨div_valid hdiv (valid_ofInt (by decide)), ?_⟩
    have hinv : |d.toRat⁻¹| ≤ 2 := by
      rw [abs_of_pos (inv_pos.2 (by linarith))]
      exact inv_le_of_inv_le₀ (by norm_num) (by linarith)
    have hclose := (div_close hdiv).real
    rw [toRat_one, one_div] at hclose
    have hquotient : |(r.toRat : ℝ) - (d.toRat⁻¹ : ℚ)| ≤ 2 / 10 ^ 28 := by
      have hmax := max_le (by norm_num : (1 : ℝ) ≤ 2) (by exact_mod_cast hinv :
        |((d.toRat⁻¹ : ℚ) : ℝ)| ≤ 2)
      linarith
    rw [max_eq_left hexp]
    calc |(r.toRat : ℝ) - Real.exp x.toRat|
        ≤ |(r.toRat : ℝ) - (d.toRat⁻¹ : ℚ)| + |((d.toRat⁻¹ : ℚ) : ℝ) - Real.exp x.toRat| :=
          abs_sub_le _ _ _
      _ ≤ 2 / 10 ^ 28 + 2 / 10 ^ 26 * 1 :=
          add_le_add hquotient (le_trans hwithin (by gcongr))
      _ ≤ 3 / 10 ^ 26 * 1 := by norm_num
  · next hpos =>
    obtain ⟨hvalid, hwithin⟩ := expNonneg_within hx (toRat_nonneg_iff.2 (Int.not_lt.1 hpos)) h
    refine ⟨hvalid, le_trans hwithin ?_⟩
    linarith [Real.exp_pos x.toRat]

/-- An exponential exists when it and its reciprocal are within range. -/
theorem exists_exp {x : Decimal} (hx : x.Valid) (hle : Real.exp x.toRat ≤ 3 * 10 ^ 28)
    (hge : Real.exp (-x.toRat) ≤ 3 * 10 ^ 28) : ∃ r, x.exp = .ok r := by
  unfold exp
  split
  · next hneg =>
    have hneg' : 0 ≤ (-x).toRat := by
      rw [toRat_nonneg_iff]
      show 0 ≤ -x.coefficient
      omega
    obtain ⟨d, hd⟩ := exists_expNonneg hx.neg hneg' (by rwa [toRat_neg, Rat.cast_neg])
    have hhalf := (inverts hx hneg hd).half_le
    obtain ⟨r, hr⟩ := exists_div_of_quotient_le (a := one) (b := d)
      (fun hzero => by
        rw [toRat_of_coefficient_eq_zero hzero] at hhalf
        norm_num at hhalf)
      (by
        rw [← abs_toRat_div_toRat, toRat_one, one_div, abs_of_pos (inv_pos.2 (by linarith)),
          bound_eq]
        exact (inv_le_of_inv_le₀ (by norm_num) (by linarith : (2 : ℚ)⁻¹ ≤ d.toRat)).trans
          (by norm_num))
      (Nat.zero_le _)
    exact ⟨r, Fault.bind_eq_ok.2 ⟨d, hd, hr⟩⟩
  · next hpos => exact exists_expNonneg hx (toRat_nonneg_iff.2 (Int.not_lt.1 hpos)) hle

/-- An exponential that exists is not too small: its inverse has a coefficient. -/
theorem exp_neg_le_of_exp_eq_ok {x r : Decimal} (hx : x.Valid) (h : x.exp = .ok r) :
    Real.exp (-x.toRat) ≤ 10 ^ 29 := by
  unfold exp at h
  split at h
  · next hneg =>
    obtain ⟨d, hd, -⟩ := Fault.bind_eq_ok.1 h
    have hneg' : 0 ≤ (-x).toRat := by
      rw [toRat_nonneg_iff]
      show 0 ≤ -x.coefficient
      omega
    obtain ⟨hvalid, hwithin⟩ := expNonneg_within hx.neg hneg' hd
    rw [toRat_neg, Rat.cast_neg] at hwithin
    have hd29 : (d.toRat : ℝ) ≤ (bound : ℚ) - 1 := by
      exact_mod_cast (le_abs_self _).trans hvalid.abs_toRat_le
    rw [bound_eq] at hd29
    push_cast at hd29
    linarith [hwithin.ge]
  · next hpos =>
    have h0 : (0 : ℝ) ≤ x.toRat := by exact_mod_cast toRat_nonneg_iff.2 (Int.not_lt.1 hpos)
    exact (Real.exp_le_one_iff.2 (by linarith)).trans (by norm_num)

end Decimal
end BondingCurve
