import BondingCurve.Proofs.Decimal.Precision

/-!
# How far a result is from the exact one

A result that has to be rounded keeps 28 decimals, or 28 digits at least. So it is off by no more
than one unit of the 28th decimal, or of the 28th digit of a number above one (`Decimal.Close`).
Sums, products and quotients of valid decimals are close whatever their signs, and they exist
unless the exact result has no coefficient. A sum with few digits is not rounded at all.
-/

namespace BondingCurve
namespace Decimal

/-- One unit of the last of 28 decimals. -/
def ulp : ℚ := 1 / 10 ^ 28

theorem ulp_pos : 0 < ulp := by norm_num [ulp]

/-- `r` is `x` up to a unit of the 28th decimal, or of the 28th digit of a number above one. -/
def Close (r : Decimal) (x : ℚ) : Prop := |r.toRat - x| ≤ ulp * Max.max 1 |x|

theorem bound_eq : bound = 79228162514264337593543950336 := by decide

/-! ## Magnitudes -/

/-- The decimal without its sign. -/
def abs (d : Decimal) : Decimal := { coefficient := d.magnitude, scale := d.scale }

/-- The value of a size is the size of the value. -/
theorem toRat_abs (d : Decimal) : (abs d).toRat = |d.toRat| := by
  rw [toRat, toRat, abs_div, abs_of_pos (powTen_cast_pos d.scale), abs, magnitude, Int.cast_natCast,
    Nat.cast_natAbs, Int.cast_abs]

theorem Valid.abs {d : Decimal} (h : d.Valid) : (Decimal.abs d).Valid where
  coefficient_lt := h.coefficient_lt
  scale_le := h.scale_le
  coefficient_eq_zero := nofun

/-- No valid decimal is larger than the largest coefficient. -/
theorem Valid.abs_toRat_le {d : Decimal} (h : d.Valid) : |d.toRat| ≤ (bound : ℚ) - 1 := by
  have hlt : (d.magnitude : ℚ) + 1 ≤ bound := by exact_mod_cast h.coefficient_lt
  have hone : (1 : ℚ) ≤ powTen d.scale := by exact_mod_cast powTen_pos d.scale
  calc |d.toRat| = (d.magnitude : ℚ) / powTen d.scale := by
        rw [← toRat_abs, toRat, Decimal.abs, Int.cast_natCast]
    _ ≤ d.magnitude := div_le_self (Nat.cast_nonneg _) hone
    _ ≤ (bound : ℚ) - 1 := by linarith

/-- The magnitude of a coefficient with decimals. -/
theorem abs_cast_div (c : ℤ) (s : ℕ) : |(c : ℚ) / 10 ^ s| = (c.natAbs : ℚ) / 10 ^ s := by
  rw [abs_div, abs_of_pos (by positivity : (0 : ℚ) < 10 ^ s), Nat.cast_natAbs, Int.cast_abs]

/-- With its sign put back, a magnitude is no further from what it stands for. -/
theorem sign_mul_sub_le (c : ℤ) (s : ℕ) (x : ℚ) :
    |c.sign * x - c / 10 ^ s| ≤ |x - (c.natAbs : ℚ) / 10 ^ s| := by
  have hc : (c : ℚ) = c.sign * (c.natAbs : ℚ) := by
    rw [Nat.cast_natAbs]
    exact_mod_cast (Int.sign_mul_abs c).symm
  have hsign : |(c.sign : ℚ)| ≤ 1 := by
    rcases Int.sign_trichotomy c with h | h | h <;> rw [h] <;> norm_num
  have hdiff : (c.sign : ℚ) * x - c / 10 ^ s = c.sign * (x - (c.natAbs : ℚ) / 10 ^ s) := by
    rw [mul_sub, ← mul_div_assoc, ← hc]
  rw [hdiff, abs_mul]
  exact mul_le_of_le_one_left (abs_nonneg _) hsign

/-! ## Rounding -/

/-- Rounding moves a number by half a unit of the 28th decimal, or by a unit of its 28th digit. -/
theorem Rounded.abs_sub_le_max {x : ℚ} {q s : ℕ} (h : Rounded x q s) :
    |(q : ℚ) / 10 ^ s - x| ≤ Max.max (ulp / 2) (ulp * x) := by
  have hpow : (0 : ℚ) < 10 ^ s := by positivity
  -- half a unit of the last decimal, whichever that is
  have hhalf (heven : HalfEven (x * 10 ^ s) q) : |(q : ℚ) / 10 ^ s - x| ≤ 1 / 2 / 10 ^ s := by
    have hsplit : (q : ℚ) / 10 ^ s - x = (q - x * 10 ^ s) / 10 ^ s := by field_simp
    rw [hsplit, abs_div, abs_of_pos hpow]
    gcongr
    rw [abs_le]
    exact ⟨by linarith [heven.ge], by linarith [heven.le]⟩
  cases h with
  | exact h =>
    rw [h, mul_div_cancel_right₀ _ hpow.ne', sub_self, abs_zero]
    exact (half_pos ulp_pos).le.trans (le_max_left _ _)
  | finest hs heven =>
    refine (hhalf heven).trans (le_trans ?_ (le_max_left _ _))
    have hle : (10 : ℚ) ^ 28 ≤ 10 ^ s := pow_le_pow_right₀ (by norm_num) hs
    rw [ulp, div_right_comm]
    gcongr
  | full heven hbound =>
    refine (hhalf heven).trans (le_trans ?_ (le_max_right _ _))
    rw [bound_eq, pow_succ] at hbound
    rw [div_le_iff₀ hpow, ulp]
    push_cast at hbound
    linarith

/-- Rounding moves a number by the last digit at most, which for a number above one is a share of
it. -/
theorem Rounded.abs_sub_le {x : ℚ} {q s : ℕ} (h : Rounded x q s) :
    |(q : ℚ) / 10 ^ s - x| ≤ ulp * Max.max 1 x := by
  refine h.abs_sub_le_max.trans (max_le ?_ ?_)
  · exact (half_le_self ulp_pos.le).trans (le_mul_of_one_le_right ulp_pos.le (le_max_left _ _))
  · exact mul_le_mul_of_nonneg_left (le_max_right _ _) ulp_pos.le

/-- The nearest decimal is off by half of the last digit, or by a share of a larger number. -/
theorem Nearest.abs_sub_le {r : Decimal} {x : ℚ} (h : r.Nearest x) :
    |r.toRat - x| ≤ Max.max (ulp / 2) (ulp * x) := by
  obtain ⟨q, s, hrounded, -, -, hr⟩ := h
  exact hr ▸ hrounded.abs_sub_le_max

/-- Fitting a value into a decimal moves it by its last digit at most. -/
theorem fitSigned_close {v : ℤ} {scale : ℕ} {r : Decimal}
    (h : fitSigned v scale (scale - maxScale) = .ok r) : r.Close ((v : ℚ) / 10 ^ scale) := by
  obtain ⟨q, s, hfit, hcoefficient, hscale, -⟩ := fitSigned_eq_ok h
  obtain ⟨hrounded, -, -⟩ := fit_rounded hfit
  have hr : r.toRat = v.sign * ((q : ℚ) / 10 ^ s) := by
    rw [toRat, hcoefficient, hscale, powTen_cast]
    push_cast
    ring
  rw [Close, abs_cast_div, hr]
  exact (sign_mul_sub_le v scale _).trans hrounded.abs_sub_le

/-- A value within the range fits, with fewer decimals where it has to. -/
theorem exists_fitSigned {v : ℤ} {scale least : ℕ} (hleast : least ≤ scale)
    (hv : |(v : ℚ) / 10 ^ scale| ≤ (bound : ℚ) - 1) : ∃ r, fitSigned v scale least = .ok r := by
  have hone : ((bound - 1 : ℕ) : ℚ) = (bound : ℚ) - 1 := by
    rw [Nat.cast_sub (by decide), Nat.cast_one]
  have hlarge : v.natAbs ≤ (bound - 1) * powTen scale := by
    rw [abs_cast_div, div_le_iff₀ (by positivity), ← hone, ← powTen_cast] at hv
    exact_mod_cast hv
  obtain ⟨q, s, hfit⟩ := exists_fit hleast hlarge
  exact ⟨_, by rw [fitSigned, hfit]; rfl⟩

/-- A coefficient that stands for a valid decimal is not rounded. -/
theorem fitSigned_exact {v : ℤ} {scale : ℕ} {d : Decimal} (hd : d.Valid)
    (hv : d.toRat = (v : ℚ) / 10 ^ scale) :
    ∃ r, fitSigned v scale (scale - maxScale) = .ok r ∧ r.toRat = d.toRat := by
  obtain ⟨r, hr⟩ := exists_fitSigned (Nat.sub_le scale maxScale) (v := v) (by
    rw [← hv]
    exact hd.abs_toRat_le)
  refine ⟨r, hr, ?_⟩
  obtain ⟨q, s, hfit, hcoefficient, hscale, -⟩ := fitSigned_eq_ok hr
  obtain ⟨hrounded, -, -⟩ := fit_rounded hfit
  -- without the sign, no decimal lies between the coefficient and its rounding
  have habs : (abs d).toRat = (v.natAbs : ℚ) / 10 ^ scale := by
    rw [toRat_abs, hv, abs_cast_div]
  have hq : (q : ℚ) / 10 ^ s = (v.natAbs : ℚ) / 10 ^ scale :=
    le_antisymm (habs ▸ hrounded.le (by positivity) hd.abs habs.ge)
      (habs ▸ hrounded.ge (by positivity) hd.abs habs.le)
  rw [hv, toRat, hcoefficient, hscale, powTen_cast, Int.cast_mul, Int.cast_natCast, mul_div_assoc,
    hq, ← mul_div_assoc, Nat.cast_natAbs]
  congr 1
  exact_mod_cast Int.sign_mul_abs v

/-! ## Sums -/

section

variable {a b r : Decimal}

theorem Valid.neg (h : a.Valid) : (-a).Valid where
  coefficient_lt := by
    show (-a.coefficient).natAbs < bound
    rw [Int.natAbs_neg]
    exact h.coefficient_lt
  scale_le := h.scale_le
  coefficient_eq_zero hneg := by
    show -a.coefficient = 0
    rw [h.coefficient_eq_zero hneg, neg_zero]

/-- A number that is there already is close to itself. -/
theorem close_self (d : Decimal) : d.Close d.toRat := by
  rw [Close, sub_self, abs_zero]
  exact mul_nonneg ulp_pos.le (zero_le_one.trans (le_max_left _ _))

/-- A sum is one of the two summands, or the aligned coefficients brought under the bound. -/
theorem add_cases (ha : a.Valid) (hb : b.Valid) :
    (∃ d : Decimal, a.add b = .ok d ∧ d.Valid ∧ d.toRat = a.toRat + b.toRat) ∨
      ∃ (v : ℤ) (s : ℕ), s ≤ maxScale ∧ (v : ℚ) / 10 ^ s = a.toRat + b.toRat ∧
        a.add b = fitSigned v s (s - maxScale) := by
  unfold add
  split
  · next hzero =>
    exact .inl ⟨b, rfl, hb, by rw [toRat_of_coefficient_eq_zero hzero, zero_add]⟩
  · split
    · next hzero =>
      exact .inl ⟨a, rfl, ha, by rw [toRat_of_coefficient_eq_zero hzero, add_zero]⟩
    · have hscale : Nat.max a.scale b.scale ≤ maxScale := Nat.max_le.2 ⟨ha.scale_le, hb.scale_le⟩
      refine .inr ⟨_, _, hscale, ?_, by rw [Nat.sub_eq_zero_of_le hscale]⟩
      rw [toRat_add_aligned, powTen_cast, mul_div_cancel_right₀ _ (by positivity)]

/-- A sum of valid decimals is rounded at most once. -/
theorem add_close (ha : a.Valid) (hb : b.Valid) (h : a.add b = .ok r) :
    r.Close (a.toRat + b.toRat) := by
  rcases add_cases ha hb with ⟨d, hd, -, hvalue⟩ | ⟨v, s, -, hvalue, hfit⟩
  · rw [← hvalue, Except.ok.inj (h.symm.trans hd)]
    exact close_self d
  · exact hvalue ▸ fitSigned_close (hfit ▸ h)

/-- A sum of valid decimals is valid. -/
theorem add_valid (ha : a.Valid) (hb : b.Valid) (h : a.add b = .ok r) : r.Valid := by
  rcases add_cases ha hb with ⟨d, hd, hvalid, -⟩ | ⟨v, s, -, -, hfit⟩
  · rwa [Except.ok.inj (h.symm.trans hd)]
  · exact fitSigned_valid (hfit ▸ h)

/-- No decimal lies between a sum and its rounding. -/
theorem add_rounds (ha : a.Valid) (hb : b.Valid) (hab : 0 ≤ a.toRat + b.toRat)
    (h : a.add b = .ok r) : r.Rounds (a.toRat + b.toRat) := by
  rcases add_cases ha hb with ⟨d, hd, -, hvalue⟩ | ⟨v, s, -, hvalue, hfit⟩
  · rw [← hvalue, Except.ok.inj (h.symm.trans hd)]
    exact ⟨fun _ hle => hle, fun _ hle => hle⟩
  · rw [← hvalue] at hab ⊢
    have hv : 0 ≤ v := by
      rw [le_div_iff₀ (by positivity), zero_mul] at hab
      exact_mod_cast hab
    rcases hv.eq_or_lt with rfl | hpos
    · -- nothing with decimals is nothing
      obtain ⟨q, s', -, hcoefficient, -⟩ := fitSigned_eq_ok (hfit ▸ h)
      have hzero : r.toRat = 0 := toRat_of_coefficient_eq_zero (by rw [hcoefficient]; simp)
      rw [Int.cast_zero, zero_div]
      exact ⟨fun _ hle => hzero ▸ hle, fun _ hle => hzero ▸ hle⟩
    · exact (fitSigned_nearest (hfit ▸ h) hpos).rounds hab

/-- A sum within the range exists. -/
theorem exists_add (ha : a.Valid) (hb : b.Valid) (hab : |a.toRat + b.toRat| ≤ (bound : ℚ) - 1) :
    ∃ r, a.add b = .ok r := by
  rcases add_cases ha hb with ⟨d, hd, -⟩ | ⟨v, s, -, hvalue, hfit⟩
  · exact ⟨d, hd⟩
  · rw [hfit]
    exact exists_fitSigned (Nat.sub_le _ _) (hvalue ▸ hab)

/-- A sum that is a valid decimal is not rounded. -/
theorem add_exact {d : Decimal} (ha : a.Valid) (hb : b.Valid) (hd : d.Valid)
    (hab : d.toRat = a.toRat + b.toRat) :
    ∃ r, a.add b = .ok r ∧ r.Valid ∧ r.toRat = a.toRat + b.toRat := by
  rcases add_cases ha hb with ⟨e, he, hvalid, hvalue⟩ | ⟨v, s, -, hvalue, hfit⟩
  · exact ⟨e, he, hvalid, hvalue⟩
  · obtain ⟨r, hr, hexact⟩ := fitSigned_exact hd (hab.trans hvalue.symm)
    exact ⟨r, hfit.trans hr, fitSigned_valid hr, hexact.trans hab⟩

/-- A sum that has a coefficient with 28 decimals is not rounded. -/
theorem add_exact_of_lt (ha : a.Valid) (hb : b.Valid)
    (hab : |a.toRat + b.toRat| * 10 ^ 28 < bound) :
    ∃ r, a.add b = .ok r ∧ r.Valid ∧ r.toRat = a.toRat + b.toRat := by
  rcases add_cases ha hb with ⟨d, hd, hvalid, hvalue⟩ | ⟨v, s, hs, hvalue, hfit⟩
  · exact ⟨d, hd, hvalid, hvalue⟩
  · have hpow : (10 : ℚ) ^ s ≤ 10 ^ 28 := pow_le_pow_right₀ (by norm_num) hs
    have hlt : (v.natAbs : ℚ) < bound := by
      calc (v.natAbs : ℚ) = |a.toRat + b.toRat| * 10 ^ s := by
            rw [← hvalue, abs_cast_div, div_mul_cancel₀ _ (by positivity)]
        _ ≤ |a.toRat + b.toRat| * 10 ^ 28 := by gcongr
        _ < bound := hab
    have hd : Valid { coefficient := v, scale := s } := ⟨by exact_mod_cast hlt, hs, nofun⟩
    exact add_exact ha hb hd (by rw [toRat, powTen_cast, hvalue])

/-- A difference that is a decimal is not rounded. -/
theorem sub_exact {d : Decimal} (ha : a.Valid) (hb : b.Valid) (hd : d.Valid)
    (hab : d.toRat = a.toRat - b.toRat) :
    ∃ r, a.sub b = .ok r ∧ r.Valid ∧ r.toRat = a.toRat - b.toRat := by
  rw [sub_eq_add_neg, ← toRat_neg] at hab ⊢
  exact add_exact ha hb.neg hd hab

theorem sub_exact_of_lt (ha : a.Valid) (hb : b.Valid)
    (hab : |a.toRat - b.toRat| * 10 ^ 28 < bound) :
    ∃ r, a.sub b = .ok r ∧ r.Valid ∧ r.toRat = a.toRat - b.toRat := by
  rw [sub_eq_add_neg, ← toRat_neg] at hab ⊢
  exact add_exact_of_lt ha hb.neg hab

/-- One taken off a number that is not negative leaves its decimals as they are. -/
theorem sub_one_exact (ha : a.Valid) (hnonneg : 0 ≤ a.toRat) :
    ∃ r, a.sub one = .ok r ∧ r.Valid ∧ r.toRat = a.toRat - 1 := by
  have hten : powTen a.scale ≤ powTen maxScale := Nat.pow_le_pow_right (by decide) ha.scale_le
  have hbound : powTen maxScale < bound := by decide
  have hlt := ha.coefficient_lt
  rw [toRat_nonneg_iff] at hnonneg
  have hd : Valid { coefficient := a.coefficient - powTen a.scale, scale := a.scale } :=
    ⟨by dsimp only; omega, ha.scale_le, nofun⟩
  have hone : one.Valid := valid_ofInt (by decide)
  have hexact := sub_exact ha hone hd (by
    rw [toRat, toRat, toRat_one]
    push_cast
    rw [sub_div, div_self (powTen_cast_pos _).ne'])
  rwa [toRat_one] at hexact

/-! ## Products -/

/-- Two short coefficients far behind the point make less than one unit of the 28th decimal. -/
theorem short_product_le (ha : a.magnitude < shortBound) (hb : b.magnitude < shortBound)
    (hscale : a.scale + b.scale > 47) : |a.toRat * b.toRat| ≤ ulp / 2 := by
  have hproduct : |((a.coefficient * b.coefficient : ℤ) : ℚ)| ≤ 10 ^ 20 / 2 := by
    have hlt : a.magnitude * b.magnitude ≤ shortBound * shortBound :=
      Nat.mul_le_mul ha.le hb.le
    have hbound : shortBound * shortBound ≤ 10 ^ 20 / 2 := by decide
    have hcast : ((a.magnitude * b.magnitude : ℕ) : ℚ) ≤ (10 ^ 20 / 2 : ℕ) := by
      exact_mod_cast hlt.trans hbound
    rw [← Int.cast_abs, Int.abs_eq_natAbs, Int.natAbs_mul, Int.cast_natCast]
    exact hcast.trans_eq (by norm_num)
  have hpow : (10 : ℚ) ^ 48 ≤ 10 ^ (a.scale + b.scale) := pow_le_pow_right₀ (by norm_num) hscale
  rw [toRat_mul_toRat, abs_div, abs_of_pos (by positivity : (0 : ℚ) < 10 ^ (a.scale + b.scale)),
    div_le_iff₀ (by positivity), ulp]
  calc |((a.coefficient * b.coefficient : ℤ) : ℚ)| ≤ 10 ^ 20 / 2 := hproduct
    _ = 1 / 10 ^ 28 / 2 * 10 ^ 48 := by norm_num
    _ ≤ 1 / 10 ^ 28 / 2 * 10 ^ (a.scale + b.scale) := by gcongr

/-- A product is rounded at most once. -/
theorem mul_close (h : a.mul b = .ok r) : r.Close (a.toRat * b.toRat) := by
  unfold mul at h
  split at h
  · next hzero =>
    cases h
    have hexact : a.toRat * b.toRat = zero.toRat := by
      rcases hzero with h | h <;> simp [toRat_of_coefficient_eq_zero h]
    rw [hexact]
    exact close_self zero
  · dsimp only at h
    split at h
    · next hshort =>
      cases h
      obtain ⟨ha, hb, hscale⟩ := hshort
      rw [Close, toRat_zero, zero_sub, abs_neg]
      exact ((short_product_le ha hb hscale).trans (half_le_self ulp_pos.le)).trans
        (le_mul_of_one_le_right ulp_pos.le (le_max_left _ _))
    · rw [toRat_mul_toRat]
      exact fitSigned_close h

/-- A product exists unless it is too large, whatever its sign. -/
theorem exists_mul_of_abs_le (hab : |a.toRat * b.toRat| ≤ (bound : ℚ) - 1) :
    ∃ r, a.mul b = .ok r := by
  unfold mul
  split
  · exact ⟨_, rfl⟩
  · dsimp only
    split
    · exact ⟨_, rfl⟩
    · exact exists_fitSigned (Nat.sub_le _ _) (toRat_mul_toRat a b ▸ hab)

/-! ## Quotients -/

theorem abs_toRat_div_toRat (a b : Decimal) : |a.toRat / b.toRat| = quotient a b := by
  have habs (d : Decimal) : |d.toRat| = (d.magnitude : ℚ) / 10 ^ d.scale := by
    rw [← toRat_abs, toRat, abs, Int.cast_natCast, powTen_cast]
  rw [abs_div, habs, habs, quotient, zpow_sub₀ (by norm_num), zpow_natCast, zpow_natCast,
    div_div_div_eq, div_mul_div_comm, mul_comm ((10 : ℚ) ^ a.scale)]

/-- A quotient is rounded at most once. -/
theorem div_close (h : a.div b = .ok r) : r.Close (a.toRat / b.toRat) := by
  by_cases ha : a.coefficient = 0
  · obtain rfl := div_of_coefficient_eq_zero h ha
    have hexact : a.toRat / b.toRat = zero.toRat := by
      rw [toRat_of_coefficient_eq_zero ha, zero_div, toRat_zero]
    rw [hexact]
    exact close_self zero
  · obtain ⟨hb, q, q', hends, -, htrims, hcoefficient, hscale, -⟩ := div_eq_ok h ha
    have hclose := hends.rounded.abs_sub_le
    rw [← htrims.value_eq] at hclose
    -- the signs of the operands make that of the quotient
    have hsign (d : Decimal) : d.toRat = d.coefficient.sign * |d.toRat| := by
      rw [toRat, abs_div, abs_of_pos (powTen_cast_pos d.scale), ← mul_div_assoc]
      congr 1
      exact_mod_cast (Int.sign_mul_abs d.coefficient).symm
    have hinv : ((b.coefficient.sign : ℚ))⁻¹ = b.coefficient.sign := by
      rcases Int.sign_trichotomy b.coefficient with h | h | h <;> rw [h] <;> norm_num
    have hr : r.toRat = a.coefficient.sign * b.coefficient.sign *
        ((q'.digits : ℚ) / 10 ^ q'.scale.toNat) := by
      rw [toRat, hcoefficient, hscale, powTen_cast]
      push_cast
      ring
    have hx : a.toRat / b.toRat =
        a.coefficient.sign * b.coefficient.sign * quotient a b := by
      calc a.toRat / b.toRat
          = a.coefficient.sign * |a.toRat| / (b.coefficient.sign * |b.toRat|) := by
            rw [← hsign a, ← hsign b]
        _ = a.coefficient.sign * b.coefficient.sign * quotient a b := by
            rw [← abs_toRat_div_toRat, abs_div, mul_div_mul_comm, div_eq_mul_inv, hinv]
    rw [Close, abs_toRat_div_toRat, hr, hx, ← mul_sub, abs_mul]
    refine (mul_le_of_le_one_left (abs_nonneg _) ?_).trans hclose
    rcases Int.sign_trichotomy a.coefficient with h | h | h <;>
      rcases Int.sign_trichotomy b.coefficient with h' | h' | h' <;> rw [h, h'] <;> norm_num

end

end Decimal
end BondingCurve
