import BondingCurve.Proofs.Decimal.Exponential
import Mathlib.Analysis.SpecialFunctions.Log.Deriv

/-!
# The logarithm is close to the exact one

A number is brought between one and ten by powers of ten, without rounding, and from there under
one by powers of `e`, which costs a rounding each. What is left goes through the series of the
inverse hyperbolic tangent. Most of the error comes from the logarithm of ten, which is known to 27
decimals and taken up to 29 times.
-/

namespace BondingCurve
namespace Decimal

open Finset (range)

/-! ## The series -/

theorem artanh_sum_le {z : ℚ} (hz : |z| ≤ 1 / 2) (n : ℕ) :
    |∑ k ∈ range (n + 1), z ^ (2 * k + 1) / (2 * k + 1)| ≤ 1 - (1 / 2) ^ (2 * n + 1) := by
  induction n with
  | zero =>
    norm_num
    exact hz
  | succ n ih =>
    rw [Finset.sum_range_succ]
    have hterm : |z ^ (2 * (n + 1) + 1) / (2 * ((n + 1 : ℕ) : ℚ) + 1)| ≤
        (1 / 2) ^ (2 * (n + 1) + 1) := by
      have hden : (1 : ℚ) ≤ 2 * ((n + 1 : ℕ) : ℚ) + 1 := by
        push_cast
        linarith [Nat.cast_nonneg (α := ℚ) n]
      rw [abs_div, abs_pow, abs_of_pos (by linarith : (0 : ℚ) < 2 * ((n + 1 : ℕ) : ℚ) + 1)]
      exact (div_le_self (by positivity) hden).trans (pow_le_pow_left₀ (abs_nonneg z) hz _)
    have hpow : (1 / 2 : ℚ) ^ (2 * n + 1) = 4 * (1 / 2) ^ (2 * (n + 1) + 1) := by
      rw [show 2 * (n + 1) + 1 = 2 * n + 1 + 2 by ring, pow_add]
      ring
    have hpos : (0 : ℚ) < (1 / 2) ^ (2 * (n + 1) + 1) := by positivity
    exact (abs_add_le _ _).trans (by linarith)

/-- What the series leaves out, in terms of the last term that it has. -/
theorem artanh_sub_sum_le {z : ℝ} (hz : |z| ≤ 1 / 2) {n : ℕ} (hn : n ≤ 100) :
    |2 * ∑ k ∈ range (n + 1), z ^ (2 * k + 1) / (2 * k + 1) - Real.log ((1 + z) / (1 - z))| ≤
      134 * (|z| ^ (2 * n + 1) / (2 * n + 1)) := by
  have hsum := Real.sum_range_sub_log_div_le (x := z) (by linarith) (n + 1)
  have hz2 : z ^ 2 ≤ 1 / 4 := by
    rw [← sq_abs]
    nlinarith [abs_nonneg z]
  have hn' : (n : ℝ) ≤ 100 := by exact_mod_cast hn
  have hn0 : (0 : ℝ) ≤ n := Nat.cast_nonneg n
  have htail : |z| ^ (2 * (n + 1) + 1) / (1 - z ^ 2) ≤ 67 * (|z| ^ (2 * n + 1) / (2 * n + 1)) := by
    have hpow : 0 ≤ |z| ^ (2 * n + 1) := by positivity
    rw [show 2 * (n + 1) + 1 = 2 * n + 1 + 2 by ring, pow_add, sq_abs, mul_div_assoc, mul_comm 67,
      div_mul_eq_mul_div, mul_div_assoc]
    refine mul_le_mul_of_nonneg_left ?_ hpow
    rw [div_le_div_iff₀ (by linarith) (by linarith)]
    nlinarith [sq_nonneg z]
  have hsplit : 2 * ∑ k ∈ range (n + 1), z ^ (2 * k + 1) / (2 * k + 1) -
      Real.log ((1 + z) / (1 - z)) = -(2 * (1 / 2 * Real.log ((1 + z) / (1 - z)) -
        ∑ k ∈ range (n + 1), z ^ (2 * k + 1) / (2 * k + 1))) := by ring
  rw [hsplit, abs_neg, abs_mul, abs_of_pos (by norm_num : (0 : ℝ) < 2)]
  linarith

/-- The state of the series: `power` is the odd power of order `n`, `sum` the sum up to it. -/
structure InArtanhSeries (z : ℚ) (n : ℕ) (power sum : Wide) : Prop where
  sum_fine : sum.IsFine
  power_close : |power.toRat - z ^ (2 * n + 1)| ≤ 3 * Wide.roundoff
  sum_close : |sum.toRat - ∑ k ∈ range (n + 1), z ^ (2 * k + 1) / (2 * k + 1)| ≤
    2 * Wide.roundoff * n

variable {z : ℚ} {n : ℕ} {square power sum : Wide}

theorem odd_pow_le (hz : |z| ≤ 1 / 2) (k : ℕ) : |z ^ (2 * k + 1)| ≤ 1 / 2 := by
  rw [abs_pow]
  calc |z| ^ (2 * k + 1) ≤ |z| ^ 1 :=
        pow_le_pow_of_le_one (abs_nonneg z) (by linarith) (by omega)
    _ ≤ 1 / 2 := by rwa [pow_one]

/-- The next odd power: what the error was shrinks with the square, and a rounding comes on top. -/
theorem exists_next_power (hz : |z| ≤ 1 / 2) (hsquare : |square.toRat - z ^ 2| ≤ Wide.roundoff)
    (hpower : |power.toRat - z ^ (2 * n + 1)| ≤ 3 * Wide.roundoff) :
    ∃ power', power.mul square = .ok power' ∧ power'.IsFine ∧
      |power'.toRat - z ^ (2 * (n + 1) + 1)| ≤ 3 * Wide.roundoff := by
  have hroundoff : Wide.roundoff = 1 / 10 ^ 49 := rfl
  have hz2 : |z ^ 2| ≤ 1 / 4 := by
    rw [abs_pow]
    nlinarith [abs_nonneg z]
  have hsquare1 : |square.toRat| ≤ 1 / 4 + Wide.roundoff := by
    linarith [abs_sub_abs_le_abs_sub square.toRat (z ^ 2)]
  have hpower1 : |power.toRat| ≤ 1 / 2 + 3 * Wide.roundoff := by
    linarith [abs_sub_abs_le_abs_sub power.toRat (z ^ (2 * n + 1)), odd_pow_le hz n]
  have hproduct1 : |power.toRat * square.toRat| ≤ 1 := by
    rw [abs_mul]
    calc |power.toRat| * |square.toRat| ≤ (1 / 2 + 3 * Wide.roundoff) * (1 / 4 + Wide.roundoff) :=
          mul_le_mul hpower1 hsquare1 (abs_nonneg _) (by rw [hroundoff]; norm_num)
      _ ≤ 1 := by rw [hroundoff]; norm_num
  have hproduct : |power.toRat * square.toRat - z ^ (2 * (n + 1) + 1)| ≤ 2 * Wide.roundoff := by
    have hsplit : power.toRat * square.toRat - z ^ (2 * (n + 1) + 1) =
        (power.toRat - z ^ (2 * n + 1)) * square.toRat +
          z ^ (2 * n + 1) * (square.toRat - z ^ 2) := by ring
    rw [hsplit]
    calc _ ≤ |power.toRat - z ^ (2 * n + 1)| * |square.toRat| +
          |z ^ (2 * n + 1)| * |square.toRat - z ^ 2| := by
          rw [← abs_mul, ← abs_mul]
          exact abs_add_le _ _
      _ ≤ 3 * Wide.roundoff * (1 / 4 + Wide.roundoff) + 1 / 2 * Wide.roundoff :=
          add_le_add
            (mul_le_mul hpower hsquare1 (abs_nonneg _) (by rw [hroundoff]; norm_num))
            (mul_le_mul (odd_pow_le hz n) hsquare (abs_nonneg _) (by norm_num))
      _ ≤ 2 * Wide.roundoff := by rw [hroundoff]; norm_num
  obtain ⟨power', hpower'⟩ := Wide.exists_mul (hproduct1.trans_lt (by norm_num))
  obtain ⟨hfine, hclose⟩ := Wide.mul_close hpower'
  rw [max_eq_left hproduct1, mul_one] at hclose
  refine ⟨power', hpower', hfine, ?_⟩
  linarith [abs_sub_le power'.toRat (power.toRat * square.toRat) (z ^ (2 * (n + 1) + 1))]

/-- The term of an odd power. -/
theorem odd_term_close (hz : |z| ≤ 1 / 2) (hfine : power.IsFine)
    (hpower : |power.toRat - z ^ (2 * (n + 1) + 1)| ≤ 3 * Wide.roundoff) :
    (power.divSmall (2 * (n + 1) + 1)).IsFine ∧ |(power.divSmall (2 * (n + 1) + 1)).toRat| ≤ 3 ∧
      |(power.divSmall (2 * (n + 1) + 1)).toRat - z ^ (2 * (n + 1) + 1) / (2 * (n + 1 : ℕ) + 1)| ≤
        2 * Wide.roundoff := by
  have hroundoff : Wide.roundoff = 1 / 10 ^ 49 := rfl
  have hd : 0 < 2 * (n + 1) + 1 := by omega
  have hd3 : (3 : ℚ) ≤ (2 * (n + 1) + 1 : ℕ) := by exact_mod_cast (by omega : 3 ≤ 2 * (n + 1) + 1)
  have hcast : ((2 * (n + 1) + 1 : ℕ) : ℚ) = 2 * (n + 1 : ℕ) + 1 := by
    push_cast
    ring
  have hpart {y t : ℚ} (hy : |y| ≤ t) : |y / (2 * (n + 1) + 1 : ℕ)| ≤ t / 3 := by
    rw [abs_div, Nat.abs_cast]
    exact div_le_div₀ ((abs_nonneg y).trans hy) hy (by norm_num) hd3
  obtain ⟨hfine', hdiv⟩ := Wide.divSmall_close hfine hd
  have hpower1 : |power.toRat| ≤ 1 := by
    have hle := odd_pow_le hz (n + 1)
    rw [hroundoff] at hpower
    linarith [abs_sub_abs_le_abs_sub power.toRat (z ^ (2 * (n + 1) + 1))]
  have hquot := hpart hpower1
  have hnext := hpart hpower
  rw [sub_div] at hnext
  rw [max_eq_left (by linarith), mul_one] at hdiv
  rw [← hcast]
  refine ⟨hfine', ?_, ?_⟩
  · rw [hroundoff] at hdiv
    linarith [abs_sub_abs_le_abs_sub (power.divSmall (2 * (n + 1) + 1)).toRat
      (power.toRat / (2 * (n + 1) + 1 : ℕ))]
  · linarith [abs_sub_le (power.divSmall (2 * (n + 1) + 1)).toRat
      (power.toRat / (2 * (n + 1) + 1 : ℕ)) (z ^ (2 * (n + 1) + 1) / (2 * (n + 1) + 1 : ℕ))]

/-- The next odd power, its term and the sum with it, which is not rounded. -/
theorem InArtanhSeries.next (hz : |z| ≤ 1 / 2) (hsquare : |square.toRat - z ^ 2| ≤ Wide.roundoff)
    (hn : n < 100) (h : InArtanhSeries z n power sum) :
    ∃ power' sum', power.mul square = .ok power' ∧
      sum.add (power'.divSmall (2 * (n + 1) + 1)) = .ok sum' ∧
      |(power'.divSmall (2 * (n + 1) + 1)).toRat - z ^ (2 * (n + 1) + 1) / (2 * (n + 1 : ℕ) + 1)| ≤
        2 * Wide.roundoff ∧
      InArtanhSeries z (n + 1) power' sum' := by
  obtain ⟨power', hpower', hfine, hnext⟩ := exists_next_power hz hsquare h.power_close
  obtain ⟨hfine', hterm3, hterm⟩ := odd_term_close hz hfine hnext
  have hn' : (n : ℚ) ≤ 100 := by exact_mod_cast hn.le
  have hsum3 : |sum.toRat| ≤ 3 := by
    have hexact := artanh_sum_le hz n
    have hpos : (0 : ℚ) < (1 / 2) ^ (2 * n + 1) := by positivity
    have hclose := h.sum_close
    rw [Wide.roundoff] at hclose
    linarith [abs_sub_abs_le_abs_sub sum.toRat
      (∑ k ∈ range (n + 1), z ^ (2 * k + 1) / (2 * k + 1))]
  obtain ⟨sum', hsum', hfine'', hvalue⟩ := Wide.add_exact h.sum_fine hfine' hsum3 hterm3
  refine ⟨power', sum', hpower', hsum', hterm, hfine'', hnext, ?_⟩
  rw [Finset.sum_range_succ, hvalue, add_sub_add_comm]
  refine (abs_add_le _ _).trans ((add_le_add h.sum_close hterm).trans_eq ?_)
  push_cast
  ring

/-- When the last term is small, so is what the series leaves out. -/
theorem InArtanhSeries.close (hz : |z| ≤ 1 / 2) (hn : n < 100) (h : InArtanhSeries z n power sum)
    (hlast : |z| ^ (2 * n + 1) / (2 * n + 1) ≤ 1.5 * ulp) :
    |2 * (sum.toRat : ℝ) - Real.log ((1 + z) / (1 - z))| ≤ 2.1 / 10 ^ 26 := by
  have hz' : |(z : ℝ)| ≤ ((1 / 2 : ℚ) : ℝ) := by exact_mod_cast hz
  have htail := artanh_sub_sum_le (by simpa using hz') hn.le
  have hsum : |(sum.toRat : ℝ) - ∑ k ∈ range (n + 1), (z : ℝ) ^ (2 * k + 1) / (2 * k + 1)| ≤
      ((2 * Wide.roundoff * n : ℚ) : ℝ) := by
    exact_mod_cast h.sum_close
  have hlast' : |(z : ℝ)| ^ (2 * n + 1) / (2 * n + 1) ≤ ((1.5 * ulp : ℚ) : ℝ) := by
    exact_mod_cast hlast
  have hn100 : (n : ℝ) ≤ 100 := by exact_mod_cast hn.le
  rw [Wide.roundoff] at hsum
  rw [ulp] at hlast'
  push_cast at hsum hlast'
  have htwice : |2 * (sum.toRat : ℝ) -
      2 * ∑ k ∈ range (n + 1), (z : ℝ) ^ (2 * k + 1) / (2 * k + 1)| ≤ 2 * (200 / 10 ^ 49) := by
    rw [← mul_sub, abs_mul, abs_of_pos (by norm_num : (0 : ℝ) < 2)]
    linarith
  linarith [abs_sub_le (2 * (sum.toRat : ℝ))
    (2 * ∑ k ∈ range (n + 1), (z : ℝ) ^ (2 * k + 1) / (2 * k + 1))
    (Real.log ((1 + z) / (1 - z)))]

theorem exists_artanhSeries (hz : |z| ≤ 1 / 2) (hsquare : |square.toRat - z ^ 2| ≤ Wide.roundoff)
    {terms : ℕ} (hterms : n + terms = 99) (h : InArtanhSeries z n power sum) :
    ∃ r, artanhSeries square terms (n + 1) power sum = .ok r ∧
      |2 * (r.toRat : ℝ) - Real.log ((1 + z) / (1 - z))| ≤ 2.1 / 10 ^ 26 := by
  induction terms generalizing n power sum with
  | zero =>
    refine ⟨sum, rfl, h.close hz (by omega) ?_⟩
    obtain rfl : n = 99 := hterms
    calc |z| ^ (2 * 99 + 1) / (2 * (99 : ℕ) + 1) ≤ |z| ^ (2 * 99 + 1) :=
          div_le_self (by positivity) (by norm_num)
      _ ≤ (1 / 2) ^ (2 * 99 + 1) := pow_le_pow_left₀ (abs_nonneg z) hz _
      _ ≤ 1.5 * ulp := by norm_num [ulp]
  | succ terms ih =>
    obtain ⟨power', sum', hpower, hsum, hterm, hnext⟩ := h.next hz hsquare (by omega)
    unfold artanhSeries
    rw [hpower]
    show ∃ r, (do
      let sum ← sum.add (power'.divSmall (2 * (n + 1) + 1))
      if (power'.divSmall (2 * (n + 1) + 1)).isNegligible then return sum
        else artanhSeries square terms (n + 2) power' sum) = .ok r ∧ _
    rw [hsum]
    show ∃ r, (if (power'.divSmall (2 * (n + 1) + 1)).isNegligible then .ok sum'
      else artanhSeries square terms (n + 2) power' sum') = .ok r ∧ _
    split
    · next hsmall =>
      refine ⟨sum', rfl, hnext.close hz (by omega) ?_⟩
      have hle := Wide.abs_toRat_le_of_isNegligible hsmall
      have hroundoff : 2 * Wide.roundoff ≤ 0.5 * ulp := by norm_num [Wide.roundoff, ulp]
      have hden : (0 : ℚ) < 2 * (n + 1 : ℕ) + 1 := by positivity
      rw [← abs_of_pos hden, ← abs_pow, ← abs_div]
      rw [abs_sub_comm] at hterm
      linarith [abs_sub_abs_le_abs_sub (z ^ (2 * (n + 1) + 1) / (2 * ((n + 1 : ℕ) : ℚ) + 1))
        (power'.divSmall (2 * (n + 1) + 1)).toRat]
    · exact ih (by omega) hnext

/-! ## Near one -/

/-- A small change of the argument is a small change of the logarithm. -/
theorem abs_log_ratio_sub_le {z z' δ : ℝ} (hz : |z| ≤ 1 / 2) (h : |z' - z| ≤ δ)
    (hδ : δ ≤ 1 / 4) :
    |Real.log ((1 + z') / (1 - z')) - Real.log ((1 + z) / (1 - z))| ≤ 8 * δ := by
  obtain ⟨hlow, hhigh⟩ := abs_le.1 hz
  have hδ0 : 0 ≤ δ := (abs_nonneg _).trans h
  have habove : Within (2 * δ) (1 + z') (1 + z) := by
    rw [Within, add_sub_add_left_eq_sub]
    linarith [mul_le_mul_of_nonneg_left (show 1 / 2 ≤ 1 + z by linarith) hδ0]
  have hbelow : Within (2 * δ) (1 - z') (1 - z) := by
    rw [Within, sub_sub_sub_cancel_left, abs_sub_comm]
    linarith [mul_le_mul_of_nonneg_left (show 1 / 2 ≤ 1 - z by linarith) hδ0]
  have hlogs := habove.log (by linarith) (by linarith)
  have hlogs' := hbelow.log (by linarith) (by linarith)
  obtain ⟨hdown, hup⟩ := abs_le.1 h
  rw [Real.log_div (by linarith) (by linarith), Real.log_div (by linarith) (by linarith),
    sub_sub_sub_comm]
  linarith [abs_sub (Real.log (1 + z') - Real.log (1 + z)) (Real.log (1 - z') - Real.log (1 - z))]

/-- The argument of the series. -/
def lnArgument (x : Decimal) : Except Fault Decimal := do
  let above ← (Wide.ofDecimal x).add ⟨-1, 0⟩
  let below ← (Wide.ofDecimal x).add Wide.one
  (← above.narrow).div (← below.narrow)

theorem lnNearOne_eq (x : Decimal) : lnNearOne x = (do
    let z := Wide.ofDecimal (← lnArgument x)
    let sum ← artanhSeries (← z.mul z) 99 1 z z
    (← Wide.mul ⟨2, 0⟩ sum).narrow) := by
  simp only [lnNearOne, lnArgument, bind_assoc]

/-- A small wide number loses little when it is narrowed. -/
theorem exists_narrow_of_le_three {w : Wide} (hw : |w.toRat| ≤ 3) :
    ∃ r, w.narrow = .ok r ∧ r.Valid ∧ |r.toRat - w.toRat| ≤ 9 * ulp := by
  obtain ⟨r, hr⟩ := Wide.exists_narrow (hw.trans_lt (by norm_num))
  obtain ⟨hvalid, hclose⟩ := Wide.narrow_close hr
  refine ⟨r, hr, hvalid, hclose.trans ?_⟩
  linarith [mul_le_mul_of_nonneg_left (max_le (by norm_num : (1 : ℚ) ≤ 3) hw)
    (show 0 ≤ 3 * ulp by linarith [ulp_pos])]

/-- A quotient of what is off by little, over what is not below one. -/
theorem abs_div_sub_div_le {a b c d δ ε t : ℚ} (hb : 1 ≤ b) (hd : 0 < d) (hac : |a - c| ≤ δ)
    (hbd : |b - d| ≤ ε) (ht : |c / d| ≤ t) : |a / b - c / d| ≤ δ + t * ε := by
  have hpart {y u : ℚ} (hy : |y| ≤ u) : |y / b| ≤ u := by
    rw [abs_div, abs_of_pos (by linarith : 0 < b)]
    exact (div_le_self (abs_nonneg y) hb).trans hy
  have hsplit : a / b - c / d = (a - c) / b - c / d * ((b - d) / b) := by
    field_simp
    ring
  rw [hsplit]
  refine (abs_sub _ _).trans ?_
  rw [abs_mul]
  exact add_le_add (hpart hac)
    (mul_le_mul ht (hpart hbd) (abs_nonneg _) ((abs_nonneg _).trans ht))

theorem abs_ratio_le {x : ℚ} (hlow : 36 / 100 ≤ x) (hhigh : x ≤ 2) :
    |(x - 1) / (x + 1)| ≤ 0.48 := by
  rw [abs_div, abs_of_pos (show 0 < x + 1 by linarith), div_le_iff₀ (by linarith), abs_le]
  constructor <;> linarith

theorem exists_lnArgument {x : Decimal} (hx : x.Valid) (hlow : 36 / 100 ≤ x.toRat)
    (hhigh : x.toRat ≤ 2) : ∃ z, lnArgument x = .ok z ∧ z.Valid ∧
      |z.toRat - (x.toRat - 1) / (x.toRat + 1)| ≤ 15 * ulp := by
  have hulp : ulp = 1 / 10 ^ 28 := rfl
  have hminus : (⟨-1, 0⟩ : Wide).toRat = -1 := by norm_num [Wide.toRat]
  have hx3 : |(Wide.ofDecimal x).toRat| ≤ 3 := by
    rw [Wide.toRat_ofDecimal, abs_of_nonneg (by linarith)]
    linarith
  -- both sums are exact, and narrowed they lose little
  obtain ⟨above, habove, -, hvalue⟩ := Wide.add_exact (b := ⟨-1, 0⟩) (Wide.isFine_ofDecimal hx)
    (by decide) hx3 (by rw [hminus]; norm_num)
  obtain ⟨below, hbelow, -, hvalue'⟩ := Wide.add_exact (b := Wide.one) (Wide.isFine_ofDecimal hx)
    (by decide) hx3 (by rw [Wide.toRat_one]; norm_num)
  rw [Wide.toRat_ofDecimal, hminus, ← sub_eq_add_neg] at hvalue
  rw [Wide.toRat_ofDecimal, Wide.toRat_one] at hvalue'
  obtain ⟨a, ha, havalid, haclose⟩ := exists_narrow_of_le_three (w := above) (by
    rw [hvalue, abs_le]
    constructor <;> linarith)
  obtain ⟨b, hb, hbvalid, hbclose⟩ := exists_narrow_of_le_three (w := below) (by
    rw [hvalue', abs_of_nonneg (by linarith)]
    linarith)
  rw [hvalue] at haclose
  rw [hvalue'] at hbclose
  -- so does their quotient
  have hb1 : 1 ≤ b.toRat := by
    rw [hulp] at hbclose
    linarith [(abs_le.1 hbclose).1]
  have hratio := abs_ratio_le hlow hhigh
  have hquotient := abs_div_sub_div_le hb1 (by linarith) haclose hbclose hratio
  have hquotient1 : |a.toRat / b.toRat| ≤ 1 := by
    rw [hulp] at hquotient
    linarith [abs_sub_abs_le_abs_sub (a.toRat / b.toRat) ((x.toRat - 1) / (x.toRat + 1))]
  obtain ⟨z, hdiv⟩ := exists_div_of_quotient_le (a := a) (b := b)
    (fun hzero => by
      rw [toRat_of_coefficient_eq_zero hzero] at hb1
      norm_num at hb1)
    (by
      rw [← abs_toRat_div_toRat, bound_eq]
      linarith)
    (havalid.scale_le.trans (Nat.le_add_left _ _))
  have hclose := div_close hdiv
  rw [Close, max_eq_left hquotient1, mul_one] at hclose
  refine ⟨z, Fault.bind_eq_ok.2 ⟨above, habove, Fault.bind_eq_ok.2 ⟨below, hbelow,
    Fault.bind_eq_ok.2 ⟨a, ha, Fault.bind_eq_ok.2 ⟨b, hb, hdiv⟩⟩⟩⟩, div_valid hdiv havalid, ?_⟩
  linarith [abs_sub_le z.toRat (a.toRat / b.toRat) ((x.toRat - 1) / (x.toRat + 1)), ulp_pos]

/-- The series from its argument on. -/
theorem exists_lnSeries {z : Decimal} (hz : z.Valid) (hz1 : |z.toRat| ≤ 1 / 2) :
    ∃ square sum, (Wide.ofDecimal z).mul (Wide.ofDecimal z) = .ok square ∧
      artanhSeries square 99 1 (Wide.ofDecimal z) (Wide.ofDecimal z) = .ok sum ∧
      |2 * (sum.toRat : ℝ) - Real.log ((1 + z.toRat) / (1 - z.toRat))| ≤ 2.1 / 10 ^ 26 := by
  have hsquare1 : |(Wide.ofDecimal z).toRat * (Wide.ofDecimal z).toRat| ≤ 1 := by
    rw [Wide.toRat_ofDecimal, abs_mul]
    nlinarith [abs_nonneg z.toRat]
  obtain ⟨square, hsquare⟩ := Wide.exists_mul (hsquare1.trans_lt (by norm_num))
  have hclose := (Wide.mul_close hsquare).2
  rw [max_eq_left hsquare1, mul_one, Wide.toRat_ofDecimal, ← pow_two] at hclose
  have hstart : InArtanhSeries z.toRat 0 (Wide.ofDecimal z) (Wide.ofDecimal z) := by
    refine ⟨Wide.isFine_ofDecimal hz, ?_, ?_⟩
    · simp [Wide.roundoff_pos.le]
    · simp
  obtain ⟨sum, hsum, hsumclose⟩ := exists_artanhSeries hz1 hclose (show 0 + 99 = 99 from rfl) hstart
  exact ⟨square, sum, hsquare, hsum, hsumclose⟩

/-- Twice the series, narrowed. -/
theorem exists_twice {sum : Wide} (hsum : |2 * sum.toRat| ≤ 2) :
    ∃ twice r, Wide.mul ⟨2, 0⟩ sum = .ok twice ∧ twice.narrow = .ok r ∧ r.Valid ∧
      |r.toRat - 2 * sum.toRat| ≤ 10 * ulp := by
  have htwo : (⟨2, 0⟩ : Wide).toRat = 2 := by norm_num [Wide.toRat]
  have hprod : |(⟨2, 0⟩ : Wide).toRat * sum.toRat| ≤ 2 := by rwa [htwo]
  obtain ⟨twice, htwice⟩ := Wide.exists_mul (hprod.trans_lt (by norm_num))
  have hclose := (Wide.mul_close htwice).2.trans
    (mul_le_mul_of_nonneg_left (max_le (by norm_num : (1 : ℚ) ≤ 2) hprod) Wide.roundoff_pos.le)
  have hroundoff : Wide.roundoff * 2 ≤ ulp := by norm_num [Wide.roundoff, ulp]
  have hulp1 : ulp ≤ 1 := by norm_num [ulp]
  rw [htwo] at hclose
  obtain ⟨r, hr, hvalid, hrclose⟩ := exists_narrow_of_le_three (w := twice) (by
    linarith [abs_sub_abs_le_abs_sub twice.toRat (2 * sum.toRat)])
  refine ⟨twice, r, htwice, hr, hvalid, ?_⟩
  linarith [abs_sub_le r.toRat twice.toRat (2 * sum.toRat)]

theorem abs_log_le_of_mem {x : ℝ} (hlow : 0.36 ≤ x) (hhigh : x ≤ 2) : |Real.log x| ≤ 1.8 := by
  have hup := Real.log_le_sub_one_of_pos (by linarith : 0 < x)
  have hdown := Real.one_sub_inv_le_log_of_pos (by linarith : 0 < x)
  have hinv := inv_le_of_inv_le₀ (by norm_num) (hlow.trans' (by norm_num : (2.8 : ℝ)⁻¹ ≤ 0.36))
  rw [abs_le]
  constructor <;> linarith

theorem exists_lnNearOne {x : Decimal} (hx : x.Valid) (hlow : 36 / 100 ≤ x.toRat)
    (hhigh : x.toRat ≤ 2) : ∃ r, lnNearOne x = .ok r ∧ r.Valid ∧ |r.toRat| ≤ 3 ∧
      |(r.toRat : ℝ) - Real.log x.toRat| ≤ 4 / 10 ^ 26 := by
  obtain ⟨z, hz, hzvalid, hzclose⟩ := exists_lnArgument hx hlow hhigh
  have hexact := abs_ratio_le hlow hhigh
  rw [ulp] at hzclose
  obtain ⟨square, sum, hsquare, hsum, hsumclose⟩ := exists_lnSeries hzvalid (by
    linarith [abs_sub_abs_le_abs_sub z.toRat ((x.toRat - 1) / (x.toRat + 1))])
  have hlow' : ((36 / 100 : ℚ) : ℝ) ≤ x.toRat := by exact_mod_cast hlow
  have hexact' : |((x.toRat : ℝ) - 1) / (x.toRat + 1)| ≤ ((0.48 : ℚ) : ℝ) := by
    exact_mod_cast hexact
  have hzclose' : |(z.toRat : ℝ) - (x.toRat - 1) / (x.toRat + 1)| ≤
      ((15 * (1 / 10 ^ 28) : ℚ) : ℝ) := by
    exact_mod_cast hzclose
  push_cast at hlow' hexact' hzclose'
  -- the series is that of the logarithm, up to the rounding of its argument
  have hlog : |2 * (sum.toRat : ℝ) - Real.log x.toRat| ≤ 3.5 / 10 ^ 26 := by
    have hratio : (1 + ((x.toRat : ℝ) - 1) / (x.toRat + 1)) / (1 - (x.toRat - 1) / (x.toRat + 1)) =
        x.toRat := by
      have hx1 : (x.toRat : ℝ) + 1 ≠ 0 := by linarith
      field_simp
      ring
    have hargument := abs_log_ratio_sub_le (by linarith) hzclose' (by norm_num)
    rw [hratio] at hargument
    linarith [abs_sub_le (2 * (sum.toRat : ℝ)) (Real.log ((1 + z.toRat) / (1 - z.toRat)))
      (Real.log x.toRat)]
  have hsum2 : |2 * (sum.toRat : ℝ)| ≤ ((2 : ℚ) : ℝ) := by
    push_cast
    linarith [abs_sub_abs_le_abs_sub (2 * (sum.toRat : ℝ)) (Real.log x.toRat),
      abs_log_le_of_mem (by linarith) (by exact_mod_cast hhigh : (x.toRat : ℝ) ≤ 2)]
  have hsum2' : |2 * sum.toRat| ≤ 2 := by exact_mod_cast hsum2
  obtain ⟨twice, r, htwice, hr, hrvalid, hrclose⟩ := exists_twice hsum2'
  have hrclose' : |(r.toRat : ℝ) - 2 * sum.toRat| ≤ ((10 * ulp : ℚ) : ℝ) := by
    exact_mod_cast hrclose
  rw [ulp] at hrclose hrclose'
  push_cast at hrclose'
  refine ⟨r, ?_, hrvalid, by linarith [abs_sub_abs_le_abs_sub r.toRat (2 * sum.toRat)],
    by linarith [abs_sub_le (r.toRat : ℝ) (2 * sum.toRat) (Real.log x.toRat)]⟩
  rw [lnNearOne_eq]
  exact Fault.bind_eq_ok.2 ⟨z, hz, Fault.bind_eq_ok.2 ⟨square, hsquare,
    Fault.bind_eq_ok.2 ⟨sum, hsum, Fault.bind_eq_ok.2 ⟨twice, htwice, hr⟩⟩⟩⟩

/-! ## Constants -/

theorem lnTen_close : |(lnTen.toRat : ℝ) - Real.log 10| ≤ 7 / 10 ^ 28 := by
  have hvalue : (lnTen.toRat : ℝ) = 2302585092994045684017991454 / 10 ^ 27 := by
    norm_num [lnTen, toRat, powTen]
  have htwo := Real.sum_range_sub_log_div_le (x := 1 / 3) (by norm_num) 33
  have hrest := Real.sum_range_sub_log_div_le (x := 1 / 9) (by norm_num) 16
  have hten : Real.log 10 = 3 * Real.log 2 + Real.log (5 / 4) := by
    rw [show (10 : ℝ) = 2 ^ 3 * (5 / 4) by norm_num, Real.log_mul (by norm_num) (by norm_num),
      Real.log_pow]
    norm_num
  norm_num [Finset.sum_range_succ] at htwo hrest
  rw [abs_le] at htwo hrest
  rw [hten, hvalue, abs_le]
  constructor <;> linarith

theorem eInverse_valid : eInverse.Valid := ⟨by decide, by decide, by decide⟩

theorem eInverse_within : Within (2 / 10 ^ 28) (eInverse.toRat : ℝ) (Real.exp (-1)) := by
  rw [Real.exp_neg]
  have hinv : Within (13 / 10 ^ 29) (eInverse.toRat : ℝ) (e.toRat : ℝ)⁻¹ := by
    norm_num [Within, eInverse, e, toRat, powTen, abs_le]
  exact (hinv.trans (e_within.inv (by norm_num) (Real.exp_pos 1)) (by norm_num)).mono
    (inv_pos.2 (Real.exp_pos 1)).le (by norm_num)

/-! ## Bringing the number in reach of the series -/

/-- A loop keeps its invariant, and ends when the invariant bounds its rounds. -/
theorem exists_countWhile {α : Type} (p : α → Bool) (step : α → Except Fault α)
    (I : ℕ → α → Prop) (most : ℕ)
    (hstep : ∀ m x, I m x → p x = true → m < most ∧ ∃ x', step x = .ok x' ∧ I (m + 1) x')
    (rounds : ℕ) {n : ℕ} {x : α} (hrounds : most ≤ n + rounds) (hx : I n x) :
    ∃ x' m, countWhile p step rounds x n = .ok (x', m) ∧ I m x' ∧ p x' = false := by
  induction rounds generalizing n x with
  | zero =>
    refine ⟨x, n, rfl, hx, ?_⟩
    cases hp : p x with
    | false => rfl
    | true => exact absurd (hstep n x hx hp).1 (by omega)
  | succ rounds ih =>
    unfold countWhile
    cases hp : p x with
    | false => exact ⟨x, n, rfl, hx, hp⟩
    | true =>
      obtain ⟨-, x', hx', hnext⟩ := hstep n x hx hp
      obtain ⟨y, m, hy, hI⟩ := ih (by omega) hnext
      refine ⟨y, m, ?_, hI⟩
      rw [if_pos rfl, hx']
      exact hy

/-- A product by ten moves the point. -/
theorem exists_mul_ten {x : Decimal} (hx : x.Valid) (h0 : 0 < x.toRat) (h1 : x.toRat < 1) :
    ∃ r, x.mul (ofInt 10) = .ok r ∧ r.Valid ∧ r.toRat = x.toRat * 10 := by
  obtain ⟨r, hr⟩ := exists_mul (b := ofInt 10) h0.le (by norm_num) (by
    rw [toRat_ofInt, bound_eq]
    push_cast
    linarith)
  have hrounds := mul_rounds hr h0.le (by norm_num)
  rw [toRat_ofInt] at hrounds
  have hscale : x.scale ≠ 0 := by
    intro hzero
    rw [toRat, hzero, powTen_zero, Nat.cast_one, div_one] at h0 h1
    have h0' : 0 < x.coefficient := by exact_mod_cast h0
    have h1' : x.coefficient < 1 := by exact_mod_cast h1
    omega
  obtain ⟨s, hs⟩ := Nat.exists_eq_succ_of_ne_zero hscale
  refine ⟨r, hr, mul_valid hr, hrounds.toRat_eq (d := { coefficient := x.coefficient, scale := s })
    ⟨hx.coefficient_lt, le_trans (by omega : s ≤ x.scale) hx.scale_le, by simp⟩ ?_⟩
  rw [toRat, toRat, hs, powTen_cast, powTen_cast, pow_succ]
  push_cast
  field_simp

/-- So does a quotient by ten, of a number that leaves a decimal for it. -/
theorem exists_div_ten {x : Decimal} (hx : x.Valid) (h10 : 10 ≤ x.toRat) :
    ∃ r, x.div (ofInt 10) = .ok r ∧ r.Valid ∧ r.toRat = x.toRat / 10 := by
  obtain ⟨r, hr⟩ := exists_div_of_scale_le (b := ofInt 10) hx (by decide) (Nat.zero_le _)
  have hrounds := div_rounds hr (by linarith) (by norm_num)
  rw [toRat_ofInt] at hrounds
  have hscale : x.scale + 1 ≤ maxScale := by
    rw [toRat, le_div_iff₀ (powTen_cast_pos _), powTen_cast] at h10
    have hlt : (x.coefficient : ℚ) < 10 ^ 29 := by
      have hcoefficient : (x.coefficient : ℚ) < bound := by
        exact_mod_cast (Int.le_natAbs.trans_lt (by exact_mod_cast hx.coefficient_lt))
      rw [bound_eq] at hcoefficient
      push_cast at hcoefficient
      linarith
    have hpow : (10 : ℚ) ^ (x.scale + 1) < 10 ^ 29 := by
      rw [pow_succ']
      linarith
    exact Nat.lt_succ_iff.1 ((pow_lt_pow_iff_right₀ (by norm_num)).1 hpow)
  refine ⟨r, hr, div_valid hr hx, hrounds.toRat_eq
    (d := { coefficient := x.coefficient, scale := x.scale + 1 })
    ⟨hx.coefficient_lt, hscale, by simp⟩ ?_⟩
  rw [toRat, toRat, powTen_cast, powTen_cast, pow_succ]
  push_cast
  rw [div_div]

/-- A decimal above zero has a digit in its decimals. -/
theorem Valid.ulp_le {x : Decimal} (hx : x.Valid) (h0 : 0 < x.toRat) : ulp ≤ x.toRat := by
  have hpow : (10 : ℚ) ^ x.scale ≤ 10 ^ 28 := pow_le_pow_right₀ (by norm_num) hx.scale_le
  rw [toRat, lt_div_iff₀ (powTen_cast_pos _), zero_mul] at h0
  have hone : (1 : ℚ) ≤ x.coefficient := by exact_mod_cast h0
  rw [toRat, ulp, powTen_cast]
  exact div_le_div₀ (by linarith) hone (by positivity) hpow

theorem exists_scaleUp {a : Decimal} (ha : a.Valid) (h0 : 0 < a.toRat) :
    ∃ x m, countWhile (· < one) (·.mul (ofInt 10)) 64 a 0 = .ok (x, m) ∧ x.Valid ∧ m ≤ 28 ∧
      1 ≤ x.toRat ∧ x.toRat = a.toRat * 10 ^ m := by
  obtain ⟨x, m, hcount, ⟨hvalid, hm, hvalue⟩, hstop⟩ := exists_countWhile
    (fun x : Decimal => decide (x < one)) (fun x => x.mul (ofInt 10))
    (fun m x => x.Valid ∧ m ≤ 28 ∧ x.toRat = a.toRat * 10 ^ m) 28
    (by
      rintro m x ⟨hx, hm, hvalue⟩ hp
      have hlt : x.toRat < 1 := toRat_one ▸ toRat_lt_toRat.2 (of_decide_eq_true hp)
      have hpos : 0 < x.toRat := hvalue ▸ by positivity
      have hm28 : m < 28 := by
        have hpow : (10 : ℚ) ^ m < 10 ^ 28 := by
          have hulp := mul_le_mul_of_nonneg_right (ha.ulp_le h0) (by positivity : (0 : ℚ) ≤ 10 ^ m)
          rw [ulp] at hulp
          linarith
        exact (pow_lt_pow_iff_right₀ (by norm_num)).1 hpow
      obtain ⟨r, hr, hrvalid, hrvalue⟩ := exists_mul_ten hx hpos hlt
      exact ⟨hm28, r, hr, hrvalid, hm28, by rw [hrvalue, hvalue, pow_succ, mul_assoc]⟩)
    64 (n := 0) (by omega) ⟨ha, Nat.zero_le _, by rw [pow_zero, mul_one]⟩
  have hge : one.toRat ≤ x.toRat :=
    toRat_le_toRat.2 (Decimal.not_lt.1 (of_decide_eq_false hstop))
  exact ⟨x, m, hcount, hvalid, hm, toRat_one ▸ hge, hvalue⟩

theorem exists_scaleDown {a : Decimal} (ha : a.Valid) (h1 : 1 ≤ a.toRat) :
    ∃ x m, countWhile (ofInt 10 ≤ ·) (·.div (ofInt 10)) 64 a 0 = .ok (x, m) ∧ x.Valid ∧ m ≤ 28 ∧
      1 ≤ x.toRat ∧ x.toRat < 10 ∧ x.toRat * 10 ^ m = a.toRat := by
  have hten : (ofInt 10).toRat = 10 := by norm_num
  obtain ⟨x, m, hcount, ⟨hvalid, hm, hone, hvalue⟩, hstop⟩ := exists_countWhile
    (fun x : Decimal => decide (ofInt 10 ≤ x)) (fun x => x.div (ofInt 10))
    (fun m x => x.Valid ∧ m ≤ 28 ∧ 1 ≤ x.toRat ∧ x.toRat * 10 ^ m = a.toRat) 28
    (by
      rintro m x ⟨hx, hm, hone, hvalue⟩ hp
      have hge : 10 ≤ x.toRat := hten ▸ toRat_le_toRat.2 (of_decide_eq_true hp)
      have hm28 : m < 28 := by
        have hpow : (10 : ℚ) ^ (m + 1) < 10 ^ 29 := by
          have hle := mul_le_mul_of_nonneg_right hge (by positivity : (0 : ℚ) ≤ 10 ^ m)
          have hbound := (le_abs_self _).trans ha.abs_toRat_le
          rw [bound_eq] at hbound
          push_cast at hbound
          rw [pow_succ']
          linarith
        exact Nat.succ_lt_succ_iff.1 ((pow_lt_pow_iff_right₀ (by norm_num)).1 hpow)
      obtain ⟨r, hr, hrvalid, hrvalue⟩ := exists_div_ten hx hge
      refine ⟨hm28, r, hr, hrvalid, hm28, by rw [hrvalue]; linarith, ?_⟩
      rw [hrvalue, ← hvalue, pow_succ']
      ring)
    64 (n := 0) (by omega) ⟨ha, Nat.zero_le _, h1, by rw [pow_zero, mul_one]⟩
  have hlt : x.toRat < 10 :=
    hten ▸ toRat_lt_toRat.2 (Decimal.not_le.1 (of_decide_eq_false hstop))
  exact ⟨x, m, hcount, hvalid, hm, hone, hlt, hvalue⟩

/-- A rounded product by a power of `e` moves the logarithm by the exponent. -/
theorem log_mul_close {x c r : Decimal} {k : ℝ} (hc : Within (2 / 10 ^ 28) c.toRat (Real.exp k))
    (hx : 0 < x.toRat) (hlow : 36 / 100 ≤ x.toRat * c.toRat) (h : x.mul c = .ok r) :
    |Real.log r.toRat - (Real.log x.toRat + k)| ≤ 1 / 10 ^ 27 := by
  have hx' : (0 : ℝ) < x.toRat := by exact_mod_cast hx
  have hclose := mul_close h
  have hround : Within (2.8 / 10 ^ 28) r.toRat (x.toRat * c.toRat) := by
    have hmax : Max.max 1 |x.toRat * c.toRat| ≤ 2.8 * (x.toRat * c.toRat) := by
      rw [abs_of_nonneg (by linarith)]
      exact max_le (by linarith) (by linarith)
    have hle : |r.toRat - x.toRat * c.toRat| ≤ 2.8 / 10 ^ 28 * (x.toRat * c.toRat) := by
      rw [Close, ulp] at hclose
      linarith
    have hwithin := Within.of_rat hle
    push_cast at hwithin
    exact hwithin
  have hproduct : Within (2 / 10 ^ 28) ((x.toRat : ℝ) * c.toRat) (x.toRat * Real.exp k) := by
    have hmul := (Within.refl le_rfl hx'.le).mul hc hx'.le (Real.exp_pos k).le
    rwa [zero_add, zero_mul, add_zero] at hmul
  have hpos : 0 < x.toRat * Real.exp k := mul_pos hx' (Real.exp_pos k)
  have hwithin := (hround.trans hproduct (by norm_num)).mono hpos.le
    (show _ ≤ (5 / 10 ^ 28 : ℝ) by norm_num)
  have hlog := hwithin.log (by norm_num) hpos
  rw [Real.log_mul hx'.ne' (Real.exp_pos k).ne', Real.log_exp] at hlog
  exact hlog.trans_eq (by norm_num)

theorem toRat_eInverse : eInverse.toRat = 3678794411714423215955237702 / 10 ^ 28 := by
  norm_num [eInverse, toRat, powTen]

theorem toRat_e : e.toRat = 27182818284590452353602874714 / 10 ^ 28 := by
  norm_num [e, toRat, powTen]

/-- The state of the loop that divides by `e`: after `m` rounds the logarithm is lower by `m`. -/
structure InShrink (a : Decimal) (m : ℕ) (x : Decimal) : Prop where
  valid : x.Valid
  rounds_le : m ≤ 3
  eInverse_le : eInverse.toRat ≤ x.toRat
  le_ten : x.toRat ≤ 10
  log_close : |Real.log x.toRat - (Real.log a.toRat - m)| ≤ m / 10 ^ 27

/-- There are no more than three rounds, since the logarithm of ten is less than three. -/
theorem InShrink.rounds_lt {a x : Decimal} {m : ℕ} (h : InShrink a m x) (h0 : 0 < a.toRat)
    (h10 : a.toRat ≤ 10) (hone : 1 ≤ x.toRat) : m < 3 := by
  have hlogx : 0 ≤ Real.log x.toRat := Real.log_nonneg (by exact_mod_cast hone)
  have hloga : Real.log a.toRat ≤ Real.log 10 :=
    Real.log_le_log (by exact_mod_cast h0) (by exact_mod_cast h10)
  have hten := (abs_le.1 lnTen_close).1
  have hvalue : (lnTen.toRat : ℝ) = 2302585092994045684017991454 / 10 ^ 27 := by
    norm_num [lnTen, toRat, powTen]
  rw [hvalue] at hten
  have hm3 : (m : ℝ) ≤ 3 := by exact_mod_cast h.rounds_le
  have hlt : (m : ℝ) < 3 := by linarith [(abs_le.1 h.log_close).2]
  exact_mod_cast hlt

theorem InShrink.next {a x : Decimal} {m : ℕ} (h : InShrink a m x) (hm : m < 3)
    (hone : 1 ≤ x.toRat) : ∃ r, x.mul eInverse = .ok r ∧ InShrink a (m + 1) r := by
  have he := toRat_eInverse
  have he0 : 0 ≤ eInverse.toRat := by
    rw [he]
    norm_num
  have hx10 := h.le_ten
  have hproduct : eInverse.toRat ≤ x.toRat * eInverse.toRat := le_mul_of_one_le_left he0 hone
  have hproduct10 : x.toRat * eInverse.toRat ≤ 10 := by
    rw [he]
    linarith
  obtain ⟨r, hr⟩ := exists_mul (a := x) (by linarith) he0 (by
    rw [bound_eq]
    push_cast
    linarith)
  have hrounds := mul_rounds hr (by linarith) he0
  have hmoved := log_mul_close eInverse_within (by linarith) (by
    rw [he] at hproduct ⊢
    linarith) hr
  have hten : (ofInt 10).toRat = 10 := by norm_num
  refine ⟨r, hr, mul_valid hr, hm, hrounds.ge eInverse_valid hproduct,
    hten ▸ hrounds.le (valid_ofInt (n := 10) (by decide)) (hten ▸ hproduct10), ?_⟩
  have hsplit : Real.log r.toRat - (Real.log a.toRat - (m + 1 : ℕ)) =
      Real.log r.toRat - (Real.log x.toRat + -1) +
        (Real.log x.toRat - (Real.log a.toRat - m)) := by
    push_cast
    ring
  rw [hsplit]
  refine (abs_add_le _ _).trans ((add_le_add hmoved h.log_close).trans_eq ?_)
  push_cast
  ring

theorem exists_shrink {a : Decimal} (ha : a.Valid) (h1 : 1 ≤ a.toRat) (h10 : a.toRat ≤ 10) :
    ∃ x m, countWhile (one ≤ ·) (·.mul eInverse) 64 a 0 = .ok (x, m) ∧ x.toRat < 1 ∧
      InShrink a m x := by
  have hstart : InShrink a 0 a :=
    ⟨ha, Nat.zero_le _, by rw [toRat_eInverse]; linarith, h10, by simp⟩
  obtain ⟨x, m, hcount, h, hstop⟩ := exists_countWhile
    (fun x : Decimal => decide (one ≤ x)) (fun x => x.mul eInverse) (InShrink a) 3
    (by
      intro m x h hp
      have hone : 1 ≤ x.toRat := toRat_one ▸ toRat_le_toRat.2 (of_decide_eq_true hp)
      have hm := h.rounds_lt (by linarith) h10 hone
      exact ⟨hm, h.next hm hone⟩)
    64 (n := 0) (by omega) hstart
  exact ⟨x, m, hcount,
    toRat_one ▸ toRat_lt_toRat.2 (Decimal.not_le.1 (of_decide_eq_false hstop)), h⟩

/-- The inverse of `e` is multiplied past one. -/
theorem exists_eInverse_mul_e {x : Decimal} (hx : x.toRat = eInverse.toRat) :
    ∃ r, x.mul e = .ok r ∧ r.Valid ∧ 1 < r.toRat ∧ r.toRat ≤ 2 ∧
      |Real.log r.toRat - (Real.log x.toRat + 1)| ≤ 1 / 10 ^ 27 := by
  have hproduct : x.toRat * e.toRat =
      3678794411714423215955237702 * 27182818284590452353602874714 / 10 ^ 56 := by
    rw [hx, toRat_eInverse, toRat_e]
    norm_num
  have hx0 : 0 < x.toRat := by
    rw [hx, toRat_eInverse]
    norm_num
  have he0 : 0 ≤ e.toRat := by
    rw [toRat_e]
    norm_num
  obtain ⟨r, hr⟩ := exists_mul hx0.le he0 (by rw [hproduct, bound_eq]; norm_num)
  have hclose := mul_close hr
  rw [Close, hproduct, ulp] at hclose
  norm_num at hclose
  obtain ⟨hdown, hup⟩ := abs_le.1 hclose
  exact ⟨r, hr, mul_valid hr, by linarith, by linarith, log_mul_close
    (e_within.mono (Real.exp_pos 1).le (by norm_num)) hx0 (by rw [hproduct]; norm_num) hr⟩

/-- The loop that multiplies by `e` starts no lower than the inverse of `e`, and goes on only from
there. -/
theorem exists_grow {a : Decimal} (ha : a.Valid) (hlow : eInverse.toRat ≤ a.toRat)
    (h1 : a.toRat < 1) :
    ∃ x m, countWhile (· ≤ eInverse) (·.mul e) 64 a 0 = .ok (x, m) ∧ x.Valid ∧ m ≤ 1 ∧
      eInverse.toRat ≤ x.toRat ∧ x.toRat ≤ 2 ∧ x.toRat ≠ 1 ∧
      |Real.log x.toRat - (Real.log a.toRat + m)| ≤ 1 / 10 ^ 27 := by
  obtain ⟨x, m, hcount, hx, -⟩ := exists_countWhile
    (fun x : Decimal => decide (x ≤ eInverse)) (fun x => x.mul e)
    (fun m x => x.Valid ∧ (m = 0 ∧ x = a ∨ m = 1 ∧ 1 < x.toRat ∧ x.toRat ≤ 2 ∧
      |Real.log x.toRat - (Real.log a.toRat + m)| ≤ 1 / 10 ^ 27)) 1
    (by
      rintro m x ⟨-, ⟨rfl, rfl⟩ | ⟨rfl, hone, -⟩⟩ hp
      · obtain ⟨r, hr, hvalid, hone, htwo, hlog⟩ :=
          exists_eInverse_mul_e (le_antisymm (toRat_le_toRat.2 (of_decide_eq_true hp)) hlow)
        exact ⟨Nat.zero_lt_one, r, hr, hvalid, .inr ⟨rfl, hone, htwo, by rwa [Nat.cast_one]⟩⟩
      · have hle := toRat_le_toRat.2 (of_decide_eq_true hp)
        rw [toRat_eInverse] at hle
        linarith)
    64 (n := 0) (by omega) ⟨ha, .inl ⟨rfl, rfl⟩⟩
  rcases hx with ⟨hvalid, ⟨rfl, rfl⟩ | ⟨rfl, hone, htwo, hlog⟩⟩
  · exact ⟨x, 0, hcount, hvalid, Nat.zero_le _, hlow, by linarith, h1.ne, by simp⟩
  · refine ⟨x, 1, hcount, hvalid, le_rfl, ?_, htwo, hone.ne', hlog⟩
    rw [toRat_eInverse]
    linarith

/-! ## The logarithm -/

/-- A number between one and ten, times a power of ten. -/
structure Scaled (a x : Decimal) (tens : ℤ) : Prop where
  valid : x.Valid
  one_le : 1 ≤ x.toRat
  lt_ten : x.toRat < 10
  tens_le : |tens| ≤ 28
  log_eq : Real.log a.toRat = tens * Real.log 10 + Real.log x.toRat

theorem exists_scaled {a : Decimal} (ha : a.Valid) (h0 : 0 < a.toRat) :
    ∃ x y up down, countWhile (· < one) (·.mul (ofInt 10)) 64 a 0 = .ok (x, up) ∧
      countWhile (ofInt 10 ≤ ·) (·.div (ofInt 10)) 64 x 0 = .ok (y, down) ∧
      Scaled a y (down - up) := by
  obtain ⟨x, up, hup, hx, hup28, hone, hvalue⟩ := exists_scaleUp ha h0
  obtain ⟨y, down, hdown, hy, hdown28, hone', hten, hvalue'⟩ := exists_scaleDown hx hone
  refine ⟨x, y, up, down, hup, hdown, hy, hone', hten, ?_, ?_⟩
  · rw [abs_le]
    omega
  · have ha' : (0 : ℝ) < a.toRat := by exact_mod_cast h0
    have hy' : (0 : ℝ) < y.toRat := by exact_mod_cast (by linarith : 0 < y.toRat)
    have hvalues : (y.toRat : ℝ) * 10 ^ down = a.toRat * 10 ^ up := by
      exact_mod_cast hvalue'.trans hvalue
    have hlogs := congrArg Real.log hvalues
    rw [Real.log_mul hy'.ne' (by positivity), Real.log_mul ha'.ne' (by positivity), Real.log_pow,
      Real.log_pow] at hlogs
    push_cast
    linarith

/-- The share of the powers of ten. -/
theorem exists_lnTens {tens : ℤ} (h : |tens| ≤ 28) :
    ∃ r, (ofInt tens).mul lnTen = .ok r ∧ r.Valid ∧ |r.toRat| ≤ 65 ∧
      |(r.toRat : ℝ) - tens * Real.log 10| ≤ 27 / 10 ^ 27 := by
  have hlnTen : lnTen.toRat = 2302585092994045684017991454 / 10 ^ 27 := by
    norm_num [lnTen, toRat, powTen]
  have htens : |(tens : ℚ)| ≤ 28 := by exact_mod_cast h
  have hproduct : |(ofInt tens).toRat * lnTen.toRat| ≤ 64.9 := by
    rw [toRat_ofInt, abs_mul, hlnTen, abs_of_pos (by norm_num : (0 : ℚ) < _ / 10 ^ 27)]
    linarith
  obtain ⟨r, hr⟩ := exists_mul_of_abs_le (hproduct.trans (by rw [bound_eq]; norm_num))
  have hclose := (mul_close hr).trans
    (mul_le_mul_of_nonneg_left (max_le (by norm_num : (1 : ℚ) ≤ 64.9) hproduct) ulp_pos.le)
  rw [toRat_ofInt] at hclose hproduct
  rw [ulp] at hclose
  refine ⟨r, hr, mul_valid hr, by linarith [abs_sub_abs_le_abs_sub r.toRat (tens * lnTen.toRat)], ?_⟩
  have hclose' : |(r.toRat : ℝ) - tens * lnTen.toRat| ≤ ((1 / 10 ^ 28 * 64.9 : ℚ) : ℝ) := by
    exact_mod_cast hclose
  have htens' : |(tens : ℝ)| ≤ 28 := by exact_mod_cast h
  have hconstant : |(tens : ℝ) * lnTen.toRat - tens * Real.log 10| ≤ 28 * (7 / 10 ^ 28) := by
    rw [← mul_sub, abs_mul]
    exact mul_le_mul htens' lnTen_close (abs_nonneg _) (by norm_num)
  push_cast at hclose'
  linarith [abs_sub_le (r.toRat : ℝ) (tens * lnTen.toRat) (tens * Real.log 10)]

/-- What is left between one and ten. -/
structure Reduced (x y : Decimal) (count : ℤ) : Prop where
  valid : y.Valid
  low : 36 / 100 ≤ y.toRat
  high : y.toRat ≤ 2
  ne_one : y.toRat ≠ 1
  count_le : |count| ≤ 3
  log_close : |Real.log y.toRat - (Real.log x.toRat - count)| ≤ 4 / 10 ^ 27

theorem exists_reduced {x : Decimal} (hx : x.Valid) (h1 : 1 ≤ x.toRat) (h10 : x.toRat < 10) :
    ∃ y z shrinks grows, countWhile (one ≤ ·) (·.mul eInverse) 64 x 0 = .ok (y, shrinks) ∧
      countWhile (· ≤ eInverse) (·.mul e) 64 y 0 = .ok (z, grows) ∧
      Reduced x z (shrinks - grows) := by
  obtain ⟨y, m, hm, hhigh, hy⟩ := exists_shrink hx h1 h10.le
  obtain ⟨z, n, hn, hz, hn1, hlow', hhigh', hne, hlog'⟩ := exists_grow hy.valid hy.eInverse_le hhigh
  have hm3 := hy.rounds_le
  refine ⟨y, z, m, n, hm, hn, hz, ?_, hhigh', hne, ?_, ?_⟩
  · rw [toRat_eInverse] at hlow'
    linarith
  · rw [abs_le]
    omega
  · push_cast
    have hsplit : Real.log z.toRat - (Real.log x.toRat - (m - n)) =
        Real.log z.toRat - (Real.log y.toRat + n) + (Real.log y.toRat - (Real.log x.toRat - m)) := by
      ring
    rw [hsplit]
    have hm3' : (m : ℝ) ≤ 3 := by exact_mod_cast hm3
    exact (abs_add_le _ _).trans (by linarith [hy.log_close])

/-- The three parts of the logarithm together. -/
theorem exists_sum {a b c : Decimal} (ha : a.Valid) (hb : b.Valid) (hc : c.Valid)
    (ha65 : |a.toRat| ≤ 65) (hb3 : |b.toRat| ≤ 3) (hc3 : |c.toRat| ≤ 3) :
    ∃ s r, a.add b = .ok s ∧ s.add c = .ok r ∧ r.Valid ∧
      |r.toRat - (a.toRat + b.toRat + c.toRat)| ≤ 15 / 10 ^ 27 := by
  have hsum : |a.toRat + b.toRat| ≤ 68 := by linarith [abs_add_le a.toRat b.toRat]
  obtain ⟨s, hs⟩ := exists_add ha hb (hsum.trans (by rw [bound_eq]; norm_num))
  have hclose := (add_close ha hb hs).trans
    (mul_le_mul_of_nonneg_left (max_le (by norm_num : (1 : ℚ) ≤ 68) hsum) ulp_pos.le)
  rw [ulp] at hclose
  have hvalid := add_valid ha hb hs
  have hsum' : |s.toRat + c.toRat| ≤ 72 := by
    linarith [abs_add_le s.toRat c.toRat, abs_sub_abs_le_abs_sub s.toRat (a.toRat + b.toRat)]
  obtain ⟨r, hr⟩ := exists_add hvalid hc (hsum'.trans (by rw [bound_eq]; norm_num))
  have hclose' := (add_close hvalid hc hr).trans
    (mul_le_mul_of_nonneg_left (max_le (by norm_num : (1 : ℚ) ≤ 72) hsum') ulp_pos.le)
  rw [ulp] at hclose'
  refine ⟨s, r, hs, hr, add_valid hvalid hc hr, ?_⟩
  have hsplit : r.toRat - (a.toRat + b.toRat + c.toRat) =
      r.toRat - (s.toRat + c.toRat) + (s.toRat - (a.toRat + b.toRat)) := by ring
  rw [hsplit]
  linarith [abs_add_le (r.toRat - (s.toRat + c.toRat)) (s.toRat - (a.toRat + b.toRat))]

/-- The logarithm of every positive number is found, up to a unit of the 25th decimal. -/
theorem exists_ln {a : Decimal} (ha : a.Valid) (h0 : 0 < a.toRat) :
    ∃ r, a.ln = .ok r ∧ r.Valid ∧ |(r.toRat : ℝ) - Real.log a.toRat| ≤ 1 / 10 ^ 25 := by
  unfold ln
  split
  · next hone =>
    rw [sameValue_iff, toRat_one] at hone
    refine ⟨zero, rfl, valid_ofInt (by decide), ?_⟩
    rw [hone, toRat_zero, Rat.cast_one, Real.log_one, Rat.cast_zero, sub_zero, abs_zero]
    norm_num
  obtain ⟨x₁, x, up, down, hup, hdown, hscaled⟩ := exists_scaled ha h0
  obtain ⟨lnTens, hlnTens, htensvalid, htens65, htensclose⟩ := exists_lnTens hscaled.tens_le
  by_cases hone : x.SameValue one
  · refine ⟨lnTens.normalize, Fault.bind_eq_ok.2 ⟨_, hup, Fault.bind_eq_ok.2 ⟨_, hdown,
      Fault.bind_eq_ok.2 ⟨_, hlnTens, if_pos hone⟩⟩⟩, htensvalid.normalize, ?_⟩
    rw [sameValue_iff, toRat_one] at hone
    rw [toRat_normalize, hscaled.log_eq, hone, Rat.cast_one, Real.log_one, add_zero]
    linarith
  · obtain ⟨y₁, y, shrinks, grows, hshrinks, hgrows, hreduced⟩ :=
      exists_reduced hscaled.valid hscaled.one_le hscaled.lt_ten
    obtain ⟨near, hnear, hnearvalid, hnear3, hnearclose⟩ :=
      exists_lnNearOne hreduced.valid hreduced.low hreduced.high
    have hcount : (ofInt (shrinks - grows)).Valid := by
      have hle := abs_le.1 hreduced.count_le
      have hbound : 3 < bound := by decide
      exact valid_ofInt (by omega)
    obtain ⟨s, r, hs, hr, hrvalid, hrclose⟩ := exists_sum htensvalid hcount hnearvalid htens65
      (by rw [toRat_ofInt]; exact_mod_cast hreduced.count_le) hnear3
    refine ⟨r.normalize, Fault.bind_eq_ok.2 ⟨_, hup, Fault.bind_eq_ok.2 ⟨_, hdown,
      Fault.bind_eq_ok.2 ⟨_, hlnTens, ?_⟩⟩⟩, hrvalid.normalize, ?_⟩
    · refine (if_neg hone).trans (Fault.bind_eq_ok.2 ⟨_, hshrinks, Fault.bind_eq_ok.2 ⟨_, hgrows,
        (if_neg ?_).trans (Fault.bind_eq_ok.2 ⟨_, hs, Fault.bind_eq_ok.2 ⟨_, hnear,
          Fault.bind_eq_ok.2 ⟨_, hr, rfl⟩⟩⟩)⟩⟩)
      rw [sameValue_iff, toRat_one]
      exact hreduced.ne_one
    · have hrclose' : |(r.toRat : ℝ) - (lnTens.toRat + (shrinks - grows : ℤ) + near.toRat)| ≤
          ((15 / 10 ^ 27 : ℚ) : ℝ) := by
        rw [toRat_ofInt] at hrclose
        exact_mod_cast hrclose
      have hlog := hreduced.log_close
      rw [toRat_normalize, hscaled.log_eq]
      push_cast at hrclose' hlog htensclose ⊢
      rw [abs_le] at *
      constructor <;> linarith

end Decimal
end BondingCurve
