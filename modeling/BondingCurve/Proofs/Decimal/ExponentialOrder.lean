import BondingCurve.Proofs.Decimal.PowerAccuracy
import BondingCurve.Proofs.Decimal.Shortening

/-!
# The exponential keeps order

Exponents that are apart by more than the relative error of the exponential have exponentials in
their order. For exponents up to a half even the 28th decimal counts. There the series is one or two
units of that decimal off, but its error is the larger the larger the exponent is and always on the
same side (`IsSeries`), and what it leaves out is less than what the exponential itself grows by.
-/

namespace BondingCurve
namespace Decimal

open Finset (range)
open Nat (factorial)

/-! ## The grid of 28 decimals -/

/-- `r` is on the grid of 28 decimals and less than a unit of it from `x`. -/
def IsNeighbour (r : Decimal) (x : ℚ) : Prop :=
  ∃ q : ℕ, r.toRat = q / 10 ^ 28 ∧ |(q : ℚ) - x * 10 ^ 28| < 1

section

variable {r r' d : Decimal} {x x' : ℚ} {n : ℕ}

theorem IsNeighbour.le_of_lt (h : r.IsNeighbour x) (hx : x * 10 ^ 28 < n) :
    r.toRat ≤ n / 10 ^ 28 := by
  obtain ⟨q, hq, hclose⟩ := h
  have hlt : (q : ℚ) < n + 1 := by linarith [(abs_lt.1 hclose).2]
  have hle : q ≤ n := Nat.le_of_lt_succ (by exact_mod_cast hlt)
  rw [hq]
  gcongr

theorem IsNeighbour.ge_of_le (h : r.IsNeighbour x) (hx : n ≤ x * 10 ^ 28) :
    n / 10 ^ 28 ≤ r.toRat := by
  obtain ⟨q, hq, hclose⟩ := h
  have hlt : (n : ℚ) < q + 1 := by linarith [(abs_lt.1 hclose).1]
  have hle : n ≤ q := Nat.le_of_lt_succ (by exact_mod_cast hlt)
  rw [hq]
  gcongr

/-- A unit apart, neighbours are in order. -/
theorem IsNeighbour.mono (h : r.IsNeighbour x) (h' : r'.IsNeighbour x')
    (hle : x * 10 ^ 28 + 1 ≤ x' * 10 ^ 28) : r.toRat ≤ r'.toRat := by
  obtain ⟨q, hq, hclose⟩ := h
  rw [hq]
  exact h'.ge_of_le (by linarith [(abs_lt.1 hclose).2])

theorem Valid.exists_grid (hd : d.Valid) (h0 : 0 ≤ d.toRat) : ∃ n : ℕ, d.toRat * 10 ^ 28 = n := by
  have hgrid := toRat_mul_pow (d := d) (s := 28) hd.scale_le
  obtain ⟨n, hn⟩ := Int.eq_ofNat_of_zero_le (a := d.coefficient * 10 ^ (28 - d.scale))
    (Int.mul_nonneg (toRat_nonneg_iff.1 h0) (by positivity))
  exact ⟨n, by rw [hgrid, hn, Int.cast_natCast]⟩

/-- A narrowed number below two is a neighbour of it. -/
theorem narrow_isNeighbour {w : Wide} (h0 : w.IsNonneg) (h2 : w.toRat < 2)
    (h : w.narrow = .ok r) : r.IsNeighbour w.toRat := by
  have hvalue : w.toRat = w.magnitude / 10 ^ w.scale := by
    rw [← Wide.abs_toRat, abs_of_nonneg (Wide.toRat_nonneg_of_isNonneg h0)]
  have hlt : w.magnitude < 2 * powTen w.scale := by
    rw [hvalue, div_lt_iff₀ (by positivity), ← powTen_cast] at h2
    exact_mod_cast h2
  rw [Wide.narrow_eq h0 hlt] at h
  cases h
  rw [hvalue]
  rcases le_total w.scale maxScale with hfew | hmany
  · -- as many decimals as there are
    have hsplit : (10 : ℚ) ^ 28 = 10 ^ w.scale * 10 ^ (28 - w.scale) := by
      rw [← pow_add, Nat.add_sub_cancel' (show w.scale ≤ 28 from hfew)]
    refine ⟨w.magnitude * powTen (28 - w.scale), ?_, ?_⟩ <;> push_cast [powTen_cast] <;> rw [hsplit]
    · rw [Nat.sub_eq_zero_of_le hfew, Wide.chopped, if_pos rfl, toRat, Nat.sub_zero, powTen_cast,
        mul_div_mul_right _ _ (by positivity), Int.cast_natCast]
    · rw [← mul_assoc, div_mul_cancel₀ _ (by positivity), sub_self, abs_zero]
      exact zero_lt_one
  · refine ⟨Wide.chopped w.magnitude (w.scale - maxScale), ?_, ?_⟩
    · rw [toRat, Nat.sub_sub_self hmany, powTen_cast, Int.cast_natCast]
      rfl
    · have hsplit : (10 : ℚ) ^ w.scale = 10 ^ 28 * 10 ^ (w.scale - maxScale) := by
        rw [← pow_add]
        congr 1
        unfold maxScale at *
        omega
      rw [hsplit, div_mul_eq_mul_div, mul_comm (10 ^ 28 : ℚ) (10 ^ (w.scale - maxScale)),
        mul_div_mul_right _ _ (by positivity)]
      exact Wide.abs_chopped_sub_lt _ _

end

/-! ## The series of a small exponent -/

theorem exp_mul_one_add_le (x y : ℝ) : Real.exp x * (1 + (y - x)) ≤ Real.exp y := by
  have hstep := mul_le_mul_of_nonneg_left (Real.add_one_le_exp (y - x)) (Real.exp_pos x).le
  rwa [← Real.exp_add, add_sub_cancel, add_comm (y - x)] at hstep

/-- What the exponential series leaves out after three terms or more, relative to the last term. -/
theorem exp_sub_sum_le_mul {x : ℝ} (h0 : 0 ≤ x) (h1 : x ≤ 1) {n : ℕ} (hn : 2 ≤ n) :
    Real.exp x - ∑ m ∈ range (n + 1), x ^ m / factorial m ≤ 4 / 9 * x * (x ^ n / factorial n) := by
  have hhigh := Real.exp_bound' h0 h1 (show 0 < n + 1 from Nat.succ_pos n)
  have htail : x ^ (n + 1) * ((n + 1 : ℕ) + 1) / (factorial (n + 1) * (n + 1 : ℕ)) ≤
      4 / 9 * x * (x ^ n / factorial n) := by
    have hn2 : (2 : ℝ) ≤ n := by exact_mod_cast hn
    have hfac : (0 : ℝ) < factorial n := by exact_mod_cast Nat.factorial_pos n
    rw [Nat.factorial_succ, mul_div_assoc', div_le_div_iff₀ (by positivity) hfac, pow_succ]
    push_cast
    have hfactor : 9 * ((n : ℝ) + 1 + 1) ≤ 4 * ((n + 1) * (n + 1)) := by nlinarith
    calc x ^ n * x * (n + 1 + 1) * factorial n
        = x ^ n * x * factorial n * (n + 1 + 1) := by ring
      _ ≤ x ^ n * x * factorial n * (4 / 9 * ((n + 1) * (n + 1))) :=
          mul_le_mul_of_nonneg_left (by linarith) (by positivity)
      _ = 4 / 9 * x * x ^ n * ((n + 1) * factorial n * (n + 1)) := by ring
  linarith

/-- `w` is what the series of `x` adds up to: never above the exponential, but for roundings that do
not count, and below it by a share of `x` in the 28th decimal. -/
structure IsSeries (x w : ℚ) : Prop where
  one_add_le : 1 + x ≤ w
  le : (w : ℝ) ≤ Real.exp x + 5 / 10 ^ 47
  ge : Real.exp x - (2 / 3 * x / 10 ^ 28 + 5 / 10 ^ 47) ≤ w

theorem exists_isSeries {x : Wide} (hx : x.IsFine) (h0 : 0 < x.toRat) (h1 : x.toRat ≤ 1) :
    ∃ r, fractionExp x = .ok r ∧ IsSeries x.toRat r.toRat := by
  obtain ⟨m, last, r, hr, hend, hm, hm100, hsmall, hge⟩ := exists_fractionSum hx h0 h1
  have h0' : (0 : ℝ) ≤ x.toRat := by exact_mod_cast h0.le
  have h1' : (x.toRat : ℝ) ≤ 1 := by exact_mod_cast h1
  have hbudget : 5 * Wide.roundoff * (m + 1) ≤ 5 / 10 ^ 47 := by
    have hm' : (m : ℚ) + 1 ≤ 100 := by exact_mod_cast hm100
    rw [Wide.roundoff]
    linarith
  have hsum : |(r.toRat : ℝ) - ∑ k ∈ range (m + 1), (x.toRat : ℝ) ^ k / factorial k| ≤
      ((5 / 10 ^ 47 : ℚ) : ℝ) := by
    exact_mod_cast hend.sum_close.trans hbudget
  have hlast : (x.toRat : ℝ) ^ m / factorial m ≤ ((1.5 * ulp : ℚ) : ℝ) := by
    exact_mod_cast hsmall
  have hlow := Real.sum_le_exp_of_nonneg h0' (m + 1)
  have hhigh := (exp_sub_sum_le_mul h0' h1' hm).trans
    (mul_le_mul_of_nonneg_left hlast (by linarith))
  rw [ulp] at hhigh
  push_cast at hsum hhigh
  obtain ⟨hsum1, hsum2⟩ := abs_le.1 hsum
  exact ⟨r, hr, hge, by linarith, by linarith⟩

/-- An exponent up to a half is all rest, and its exponential the narrowed series. -/
theorem expNonneg_isNeighbour {x r : Decimal} (hx : x.Valid) (h0 : 0 < x.toRat)
    (h1 : x.toRat ≤ 1 / 2) (h : x.expNonneg = .ok r) :
    ∃ w, IsSeries x.toRat w ∧ r.IsNeighbour w := by
  obtain ⟨rest, hrest, hrvalid, -, hr1, hsplit⟩ := exists_fraction hx h0.le
  have hwhole : x.floor.magnitude = 0 := by
    have hfloor : ⌊x.toRat⌋ = 0 := by
      rw [Int.floor_eq_iff]
      constructor <;> push_cast <;> linarith
    rw [floor_eq, hfloor]
    rfl
  rw [hwhole, Nat.cast_zero, zero_add] at hsplit
  have hvalue : (Wide.ofDecimal rest).toRat = x.toRat := by
    rw [Wide.toRat_ofDecimal]
    exact_mod_cast hsplit.symm
  rw [expNonneg_eq (fun hzero => h0.ne' (toRat_of_coefficient_eq_zero hzero)) hrest, hwhole] at h
  obtain ⟨s, hs, h⟩ := Fault.bind_eq_ok.1 h
  obtain ⟨s', hs', hseries⟩ := exists_isSeries (Wide.isFine_ofDecimal hrvalid)
    (hvalue.symm ▸ h0) (by linarith)
  obtain rfl := Except.ok.inj (hs.symm.trans hs')
  rw [hvalue] at hseries
  refine ⟨s.toRat, hseries, narrow_isNeighbour ?_ ?_ h⟩
  · exact Wide.isNonneg_of_toRat (by linarith [hseries.one_add_le])
  · have h1' : (x.toRat : ℝ) ≤ ((1 / 2 : ℚ) : ℝ) := by exact_mod_cast h1
    have h0' : (0 : ℝ) ≤ x.toRat := by exact_mod_cast h0.le
    push_cast at h1'
    have hexp := (abs_le.1 (Real.abs_exp_sub_one_sub_id_le (x := x.toRat) (by
      rw [abs_of_nonneg h0']
      linarith))).2
    have hlt : (s.toRat : ℝ) < ((2 : ℚ) : ℝ) := by
      push_cast
      nlinarith [hseries.le]
    exact_mod_cast hlt

/-! ## Order -/

section

variable {x x' r r' : Decimal}

/-- Up to `10 ^ -15` the series is the first two terms, give or take a unit. -/
theorem IsSeries.lt_of_tiny {x w : ℚ} (h : IsSeries x w) (h0 : 0 ≤ x) (hx : x ≤ 1 / 10 ^ 15) :
    w * 10 ^ 28 < x * 10 ^ 28 + 10 ^ 28 + 1 := by
  have h0' : (0 : ℝ) ≤ x := by exact_mod_cast h0
  have hx' : (x : ℝ) ≤ ((1 / 10 ^ 15 : ℚ) : ℝ) := by exact_mod_cast hx
  push_cast at hx'
  have hexp := (abs_le.1 (Real.abs_exp_sub_one_sub_id_le (x := x) (by
    rw [abs_of_nonneg h0']
    linarith))).2
  have hsquare : (x : ℝ) ^ 2 ≤ (1 / 10 ^ 15) ^ 2 := pow_le_pow_left₀ h0' hx' 2
  have hlt : (w : ℝ) * 10 ^ 28 < x * 10 ^ 28 + 10 ^ 28 + 1 := by linarith [h.le]
  exact_mod_cast hlt

/-- Above that a unit of the exponent is a unit of the series. -/
theorem IsSeries.add_le {x x' w w' : ℚ} (h : IsSeries x w) (h' : IsSeries x' w')
    (hx : 1 / 10 ^ 15 ≤ x) (hle : x + 1 / 10 ^ 28 ≤ x') : w * 10 ^ 28 + 1 ≤ w' * 10 ^ 28 := by
  have hx' : ((1 / 10 ^ 15 : ℚ) : ℝ) ≤ x := by exact_mod_cast hx
  have hle' : ((x + 1 / 10 ^ 28 : ℚ) : ℝ) ≤ x' := by exact_mod_cast hle
  push_cast at hx' hle'
  have hone := Real.add_one_le_exp (x : ℝ)
  have hgrow := exp_mul_one_add_le x x'
  have hshare : ((x : ℝ) + 1) * (x' - x) ≤ Real.exp x * (x' - x) :=
    mul_le_mul_of_nonneg_right hone (by linarith)
  have hunit : (x : ℝ) * (1 / 10 ^ 28) ≤ x * (x' - x) :=
    mul_le_mul_of_nonneg_left (by linarith) (by linarith)
  have hlt : (w : ℝ) * 10 ^ 28 + 1 ≤ w' * 10 ^ 28 := by linarith [h.le, h'.ge]
  exact_mod_cast hlt

theorem expNonneg_zero (hx : x.toRat = 0) : x.expNonneg = .ok one := by
  unfold expNonneg
  rw [if_pos (coefficient_eq_zero_of_toRat hx)]

/-- Up to a half the exponential grows with each unit of the 28th decimal. -/
theorem expNonneg_mono_of_le_half (hx : x.Valid) (hx' : x'.Valid) (h0 : 0 ≤ x.toRat)
    (hlt : x.toRat < x'.toRat) (hhalf : x'.toRat ≤ 1 / 2) (h : x.expNonneg = .ok r)
    (h' : x'.expNonneg = .ok r') : r.toRat ≤ r'.toRat := by
  obtain ⟨n, hn⟩ := hx.exists_grid h0
  obtain ⟨n', hn'⟩ := hx'.exists_grid (h0.trans hlt.le)
  have hstep : n + 1 ≤ n' := by
    have hcast : (n : ℚ) < n' := by
      rw [← hn, ← hn']
      linarith
    exact_mod_cast hcast
  have hstep' : (n : ℚ) + 1 ≤ n' := by exact_mod_cast hstep
  obtain ⟨w', hseries', hnear'⟩ := expNonneg_isNeighbour hx' (h0.trans_lt hlt) hhalf h'
  have hge : ((n + 1 + 10 ^ 28 : ℕ) : ℚ) / 10 ^ 28 ≤ r'.toRat := by
    refine hnear'.ge_of_le ?_
    push_cast
    linarith [hseries'.one_add_le]
  rcases h0.eq_or_lt with hzero | hpos
  · rw [expNonneg_zero hzero.symm] at h
    cases h
    refine le_trans ?_ hge
    rw [toRat_one, le_div_iff₀ (by positivity)]
    push_cast
    linarith [Nat.cast_nonneg (α := ℚ) n]
  obtain ⟨w, hseries, hnear⟩ := expNonneg_isNeighbour hx hpos (hlt.le.trans hhalf) h
  rcases le_total x.toRat (1 / 10 ^ 15) with htiny | hlarge
  · refine (hnear.le_of_lt ?_).trans hge
    push_cast
    linarith [hseries.lt_of_tiny h0 htiny]
  · exact hnear.mono hnear' (hseries.add_le hseries' hlarge (by linarith))

/-- Apart by more than the error of the exponential. -/
theorem expNonneg_mono_of_add_le (hx : x.Valid) (hx' : x'.Valid) (h0 : 0 ≤ x.toRat)
    (hle : x.toRat + 1 / 10 ^ 25 ≤ x'.toRat) (h : x.expNonneg = .ok r)
    (h' : x'.expNonneg = .ok r') : r.toRat ≤ r'.toRat := by
  have hwithin := (expNonneg_within hx h0 h).2
  have hwithin' := (expNonneg_within hx' (by linarith) h').2
  have hle' : ((x.toRat + 1 / 10 ^ 25 : ℚ) : ℝ) ≤ x'.toRat := by exact_mod_cast hle
  push_cast at hle'
  have hgrow := exp_mul_one_add_le x.toRat x'.toRat
  have hshare := mul_le_mul_of_nonneg_left
    (show 1 + 1 / 10 ^ 25 ≤ 1 + ((x'.toRat : ℝ) - x.toRat) by linarith) (Real.exp_pos x.toRat).le
  have hreal : (r.toRat : ℝ) ≤ r'.toRat := by
    linarith [hwithin.le, hwithin'.ge, Real.exp_pos (x.toRat : ℝ)]
  exact_mod_cast hreal

end

end Decimal
end BondingCurve
