import BondingCurve.Proofs.Decimal.Logarithm

/-!
# A power is close to the exact one

A whole exponent is squared up, any other goes through `exp (k * ln b)`, where the error of the
logarithm is multiplied by the exponent. Either way the error of `b ^ k` is at most three parts in
`10 ^ 25` for each unit of the exponent and one more, of one or of a power above one (`pow_close`).
A power through the logarithm exists when it and its inverse are well within the range of a decimal
(`exists_exp_ln`); of a power with a whole exponent up to `2 ^ 32` only the size matters
(`exists_pow`).
-/

namespace BondingCurve
namespace Decimal

variable {b k r : Decimal} {n : ℕ}

/-! ## Whole exponents -/

theorem strip_scale_of_dvd {c : ℤ} {s : ℕ} (h : (powTen s : ℤ) ∣ c) :
    (normalize.strip c s).scale = 0 := by
  induction s generalizing c with
  | zero => rfl
  | succ s ih =>
    obtain ⟨m, rfl⟩ := h
    have hsplit : (powTen (s + 1) : ℤ) * m = powTen s * m * 10 := by
      rw [powTen_add, Nat.cast_mul, show ((powTen 1 : ℕ) : ℤ) = 10 from rfl]
      ring
    rw [hsplit, normalize.strip, if_pos (Int.mul_emod_left _ _),
      Int.mul_ediv_cancel _ (by decide)]
    exact ih (Dvd.intro m rfl)

/-- Without trailing zeros, a whole number has no decimals. -/
theorem normalize_scale_eq_zero_iff : k.normalize.scale = 0 ↔ ∃ m : ℤ, k.toRat = m := by
  constructor
  · intro h
    refine ⟨k.normalize.coefficient, ?_⟩
    rw [← toRat_normalize, toRat, h, powTen_zero, Nat.cast_one, div_one]
  · rintro ⟨m, hm⟩
    refine strip_scale_of_dvd ⟨m, ?_⟩
    rw [toRat, div_eq_iff (powTen_cast_pos _).ne'] at hm
    rw [mul_comm]
    exact_mod_cast hm

/-- A whole number that is not negative is its digits. -/
theorem toRat_eq_magnitude (h0 : 0 ≤ k.toRat) (h : k.normalize.scale = 0) :
    k.toRat = k.normalize.magnitude := by
  have hk : k.toRat = k.normalize.coefficient := by
    rw [← toRat_normalize, toRat, h, powTen_zero, Nat.cast_one, div_one]
  have hnonneg : 0 ≤ k.normalize.coefficient := by
    rw [hk] at h0
    exact_mod_cast h0
  have hcast := congrArg (Int.cast : ℤ → ℚ) (Int.natAbs_of_nonneg hnonneg)
  rw [hk, magnitude, ← hcast, Int.cast_natCast]

/-- Nothing is computed for a base of zero or one, or an exponent of one. -/
theorem pow_trivial (hb : b.toRat = 0 ∨ b.toRat = 1 ∨ k.toRat = 1) (hk : 0 < k.toRat)
    (hvalid : b.Valid) :
    ∃ r, b.pow k = .ok r ∧ r.Valid ∧ (r.toRat : ℝ) = (b.toRat : ℝ) ^ (k.toRat : ℝ) := by
  have hk0 : k.coefficient ≠ 0 := by
    intro h
    rw [toRat_of_coefficient_eq_zero h] at hk
    exact lt_irrefl 0 hk
  have hk' : (k.toRat : ℝ) ≠ 0 := by exact_mod_cast hk.ne'
  unfold pow
  rw [if_neg hk0]
  split
  · next hzero =>
    refine ⟨zero, rfl, valid_ofInt (by decide), ?_⟩
    rw [toRat_of_coefficient_eq_zero hzero, toRat_zero, Rat.cast_zero, Real.zero_rpow hk']
  next hb0 =>
  split
  · next hone =>
    rw [sameValue_iff, toRat_one] at hone
    refine ⟨one, rfl, valid_ofInt (by decide), ?_⟩
    rw [hone, toRat_one, Rat.cast_one, Real.one_rpow]
  next hb1 =>
  split
  · next hone =>
    rw [sameValue_iff, toRat_one] at hone
    exact ⟨b, rfl, hvalid, by rw [hone, Rat.cast_one, Real.rpow_one]⟩
  next hk1 =>
  rw [sameValue_iff, toRat_one] at hb1 hk1
  have hb0' : b.toRat ≠ 0 := mt coefficient_eq_zero_of_toRat hb0
  exact absurd hb (by simp [hb0', hb1, hk1])

/-- Which way a power goes, for an exponent above zero. -/
theorem pow_eq (hb : b.toRat ≠ 0) (hb1 : b.toRat ≠ 1) (hk : 0 < k.toRat) (hk1 : k.toRat ≠ 1) :
    b.pow k =
      if k.normalize.scale = 0 then
        if k.normalize.magnitude ≥ powTwo 32 then .error .overflow
        else powNat b k.normalize.magnitude
      else (do exp (← (← ln b).mul k.normalize)) := by
  have hk0 : k.coefficient ≠ 0 := by
    intro h
    rw [toRat_of_coefficient_eq_zero h] at hk
    exact lt_irrefl 0 hk
  have hneg : ¬k.normalize.coefficient < 0 := by
    rw [← toRat_normalize] at hk
    exact Int.not_lt.2 (toRat_nonneg_iff.1 hk.le)
  unfold pow
  rw [if_neg hk0, if_neg (mt toRat_of_coefficient_eq_zero hb),
    if_neg (by rwa [sameValue_iff, toRat_one]), if_neg (by rwa [sameValue_iff, toRat_one])]
  dsimp only
  rw [if_neg hneg]

theorem max_one_pow {x : ℚ} (hx : 0 ≤ x) (n : ℕ) : Max.max 1 x ^ n = Max.max 1 (x ^ n) := by
  rcases le_total x 1 with h | h
  · rw [max_eq_left h, one_pow, max_eq_left (pow_le_one₀ hx h)]
  · rw [max_eq_right h, max_eq_right (one_le_pow₀ h)]

theorem powNat_close_real (hb : b.Valid) (hb0 : 0 ≤ b.toRat) (hn : n < 2 ^ 32)
    (h : b.powNat n = .ok r) :
    r.Valid ∧ |(r.toRat : ℝ) - (b.toRat : ℝ) ^ n| ≤
      4 / 10 ^ 28 * n * Max.max 1 ((b.toRat : ℝ) ^ n) := by
  obtain ⟨hvalid, hclose⟩ := powNat_close hb hn h
  rw [abs_of_nonneg hb0, max_one_pow hb0, ulp] at hclose
  have hcast : |(r.toRat : ℝ) - (b.toRat : ℝ) ^ n| ≤
      ((4 * n * (1 / 10 ^ 28) * Max.max 1 (b.toRat ^ n) : ℚ) : ℝ) := by
    exact_mod_cast hclose
  push_cast at hcast
  exact ⟨hvalid, hcast.trans_eq (by ring)⟩

/-! ## The way through the logarithm -/

theorem log_ten_mem : 2.3025 ≤ Real.log 10 ∧ Real.log 10 ≤ 2.3026 := by
  have hvalue : (lnTen.toRat : ℝ) = 2302585092994045684017991454 / 10 ^ 27 := by
    norm_num [lnTen, toRat, powTen]
  obtain ⟨hlow, hhigh⟩ := abs_le.1 lnTen_close
  rw [hvalue] at hlow hhigh
  constructor <;> linarith

/-- A decimal above zero has 28 decimals and 29 digits at most. -/
theorem abs_log_le (hb : b.Valid) (hb0 : 0 < b.toRat) : |Real.log b.toRat| ≤ 67 := by
  have hpos : (0 : ℝ) < b.toRat := by exact_mod_cast hb0
  have hlow : ((1 / 10 ^ 28 : ℚ) : ℝ) ≤ b.toRat := by exact_mod_cast hb.ulp_le hb0
  have hhigh : (b.toRat : ℝ) ≤ ((10 ^ 29 : ℚ) : ℝ) := by
    have hle := (le_abs_self _).trans hb.abs_toRat_le
    rw [bound_eq] at hle
    exact_mod_cast hle.trans (by norm_num)
  push_cast at hlow hhigh
  have hlow' := Real.log_le_log (by norm_num) hlow
  have hhigh' := Real.log_le_log hpos hhigh
  rw [one_div, Real.log_inv, Real.log_pow] at hlow'
  rw [Real.log_pow] at hhigh'
  push_cast at hlow' hhigh'
  have hten := log_ten_mem.2
  rw [abs_le]
  constructor <;> linarith

/-- The exponent of `e` is off by the error of the logarithm, times the exponent of the power. -/
theorem exponent_close {l m : Decimal} (hb : b.Valid) (hb0 : 0 < b.toRat) (hk : 0 ≤ k.toRat)
    (hl : |(l.toRat : ℝ) - Real.log b.toRat| ≤ 1 / 10 ^ 25) (hm : l.mul k.normalize = .ok m) :
    |(m.toRat : ℝ) - Real.log b.toRat * k.toRat| ≤ 1.1 / 10 ^ 25 * (1 + k.toRat) := by
  have hk' : (0 : ℝ) ≤ k.toRat := by exact_mod_cast hk
  have hlog := abs_log_le hb hb0
  have hl68 : |(l.toRat : ℝ)| ≤ 68 := by
    linarith [abs_sub_abs_le_abs_sub (l.toRat : ℝ) (Real.log b.toRat)]
  have hround : |(m.toRat : ℝ) - l.toRat * k.toRat| ≤ 1 / 10 ^ 28 * (1 + 68 * k.toRat) := by
    have hclose := (mul_close hm).real
    rw [toRat_normalize, Rat.cast_mul, abs_mul, abs_of_nonneg hk'] at hclose
    refine hclose.trans (mul_le_mul_of_nonneg_left (max_le ?_ ?_) (by norm_num))
    · linarith
    · linarith [mul_le_mul_of_nonneg_right hl68 hk']
  have hexact : |(l.toRat : ℝ) * k.toRat - Real.log b.toRat * k.toRat| ≤
      1 / 10 ^ 25 * k.toRat := by
    rw [← sub_mul, abs_mul, abs_of_nonneg hk']
    exact mul_le_mul_of_nonneg_right hl hk'
  linarith [abs_sub_le (m.toRat : ℝ) (l.toRat * k.toRat) (Real.log b.toRat * k.toRat)]

/-- What the exponential is taken of, when the exponent is not enormous. -/
theorem exp_exponent_within {l m : Decimal} (hb : b.Valid) (hb0 : 0 < b.toRat) (hk : 0 ≤ k.toRat)
    (hk24 : k.toRat ≤ 10 ^ 24) (hl : |(l.toRat : ℝ) - Real.log b.toRat| ≤ 1 / 10 ^ 25)
    (hm : l.mul k.normalize = .ok m) :
    Within (2.2 / 10 ^ 25 * (1 + k.toRat)) (Real.exp m.toRat) ((b.toRat : ℝ) ^ (k.toRat : ℝ)) ∧
      Within (2.2 / 10 ^ 25 * (1 + k.toRat)) (Real.exp (-m.toRat))
        ((b.toRat : ℝ) ^ (k.toRat : ℝ))⁻¹ := by
  have hpos : (0 : ℝ) < b.toRat := by exact_mod_cast hb0
  have hclose := exponent_close hb hb0 hk hl hm
  have hk24' : (k.toRat : ℝ) ≤ 10 ^ 24 := by exact_mod_cast hk24
  have hδ : 1.1 / 10 ^ 25 * (1 + (k.toRat : ℝ)) ≤ 1 := by linarith
  rw [Real.rpow_def_of_pos hpos, ← Real.exp_neg,
    show 2.2 / 10 ^ 25 * (1 + (k.toRat : ℝ)) = 2 * (1.1 / 10 ^ 25 * (1 + k.toRat)) by ring]
  refine ⟨Within.of_exp hclose hδ, Within.of_exp ?_ hδ⟩
  rwa [neg_sub_neg, abs_sub_comm]

theorem exp_ln_close (hb : b.Valid) (hb0 : 0 < b.toRat) (hk : 0 ≤ k.toRat)
    (hk24 : k.toRat ≤ 10 ^ 24) (h : (do exp (← (← ln b).mul k.normalize)) = .ok r) :
    r.Valid ∧ |(r.toRat : ℝ) - (b.toRat : ℝ) ^ (k.toRat : ℝ)| ≤
      3 / 10 ^ 25 * (1 + k.toRat) * Max.max 1 ((b.toRat : ℝ) ^ (k.toRat : ℝ)) := by
  obtain ⟨l, hl, h⟩ := Fault.bind_eq_ok.1 h
  obtain ⟨m, hm, h⟩ := Fault.bind_eq_ok.1 h
  obtain ⟨l', hl', -, hlclose⟩ := exists_ln hb hb0
  obtain rfl := Except.ok.inj (hl.symm.trans hl')
  obtain ⟨hvalid, hexp⟩ := exp_close (mul_valid hm) h
  have hwithin := (exp_exponent_within hb hb0 hk hk24 hlclose hm).1
  have hk' : (0 : ℝ) ≤ k.toRat := by exact_mod_cast hk
  have hk24' : (k.toRat : ℝ) ≤ 10 ^ 24 := by exact_mod_cast hk24
  have hpow : (0 : ℝ) < (b.toRat : ℝ) ^ (k.toRat : ℝ) :=
    Real.rpow_pos_of_pos (by exact_mod_cast hb0) _
  refine ⟨hvalid, ?_⟩
  generalize (b.toRat : ℝ) ^ (k.toRat : ℝ) = y at hwithin hpow ⊢
  have hone := le_max_left 1 y
  have hy := le_max_right 1 y
  have hle : Real.exp m.toRat ≤ 1.3 * Max.max 1 y := by
    have hwithin' := (hwithin.mono hpow.le (by linarith : _ ≤ (0.3 : ℝ))).le
    linarith
  have hexp' : |(r.toRat : ℝ) - Real.exp m.toRat| ≤ 4 / 10 ^ 26 * Max.max 1 y := by
    refine hexp.trans ?_
    linarith [max_le (by linarith : (1 : ℝ) ≤ 1.3 * Max.max 1 y) hle]
  have hwithin' : |Real.exp m.toRat - y| ≤ 2.2 / 10 ^ 25 * (1 + k.toRat) * Max.max 1 y :=
    le_trans hwithin (mul_le_mul_of_nonneg_left hy (by positivity))
  have hkmax : 0 ≤ (k.toRat : ℝ) * Max.max 1 y := by positivity
  linarith [abs_sub_le (r.toRat : ℝ) (Real.exp m.toRat) y]

/-- A power is off by at most three parts in `10 ^ 25` for each unit of the exponent and one more,
of one or of a power above one. -/
theorem pow_close (hb : b.Valid) (hb0 : 0 ≤ b.toRat) (hk : 0 < k.toRat)
    (hk24 : k.toRat ≤ 10 ^ 24) (h : b.pow k = .ok r) :
    r.Valid ∧ |(r.toRat : ℝ) - (b.toRat : ℝ) ^ (k.toRat : ℝ)| ≤
      3 / 10 ^ 25 * (1 + k.toRat) * Max.max 1 ((b.toRat : ℝ) ^ (k.toRat : ℝ)) := by
  have hk' : (0 : ℝ) < k.toRat := by exact_mod_cast hk
  by_cases htrivial : b.toRat = 0 ∨ b.toRat = 1 ∨ k.toRat = 1
  · obtain ⟨r', hr', hvalid, hexact⟩ := pow_trivial htrivial hk hb
    obtain rfl := Except.ok.inj (h.symm.trans hr')
    rw [hexact, sub_self, abs_zero]
    exact ⟨hvalid, by positivity⟩
  obtain ⟨hne0, hne1, hk1⟩ : b.toRat ≠ 0 ∧ b.toRat ≠ 1 ∧ k.toRat ≠ 1 := by
    simpa only [not_or] using htrivial
  rw [pow_eq hne0 hne1 hk hk1] at h
  split at h
  · next hwhole =>
    split at h
    · cases h
    · next hsmall =>
      obtain ⟨hvalid, hclose⟩ := powNat_close_real hb hb0 (Nat.not_le.1 hsmall) h
      refine ⟨hvalid, ?_⟩
      rw [toRat_eq_magnitude hk.le hwhole, Rat.cast_natCast, Real.rpow_natCast]
      refine hclose.trans (mul_le_mul_of_nonneg_right ?_ (zero_le_one.trans (le_max_left _ _)))
      linarith [Nat.cast_nonneg (α := ℝ) k.normalize.magnitude]
  · exact exp_ln_close hb (lt_of_le_of_ne hb0 hne0.symm) hk.le hk24 h

/-- A power through the logarithm exists when it and its inverse are in range. -/
theorem exists_exp_ln (hb : b.Valid) (hb0 : 0 < b.toRat) (hk : 0 ≤ k.toRat)
    (hk24 : k.toRat ≤ 10 ^ 24)
    (hlow : 1 / 10 ^ 28 ≤ (b.toRat : ℝ) ^ (k.toRat : ℝ))
    (hhigh : (b.toRat : ℝ) ^ (k.toRat : ℝ) ≤ 10 ^ 28) :
    ∃ r, (do exp (← (← ln b).mul k.normalize)) = .ok r := by
  obtain ⟨l, hl, -, hlclose⟩ := exists_ln hb hb0
  have hk' : (0 : ℝ) ≤ k.toRat := by exact_mod_cast hk
  have hk24' : (k.toRat : ℝ) ≤ 10 ^ 24 := by exact_mod_cast hk24
  have hpos : (0 : ℝ) < b.toRat := by exact_mod_cast hb0
  have hpow : (0 : ℝ) < (b.toRat : ℝ) ^ (k.toRat : ℝ) := Real.rpow_pos_of_pos hpos _
  -- the logarithm of the power is small
  have hlog : |Real.log b.toRat * k.toRat| ≤ 65 := by
    have hlow' := Real.log_le_log (by norm_num) hlow
    have hhigh' := Real.log_le_log hpow hhigh
    rw [one_div, Real.log_inv, Real.log_pow] at hlow'
    rw [Real.log_pow] at hhigh'
    rw [Real.log_rpow hpos, mul_comm] at hlow' hhigh'
    push_cast at hlow' hhigh'
    have hten := log_ten_mem.2
    rw [abs_le]
    constructor <;> linarith
  have hproduct : |l.toRat * k.normalize.toRat| ≤ (bound : ℚ) - 1 := by
    have hle : |(l.toRat : ℝ) * k.toRat| ≤ ((66 : ℚ) : ℝ) := by
      have hoff : |(l.toRat : ℝ) * k.toRat - Real.log b.toRat * k.toRat| ≤ 1 / 10 ^ 25 * k.toRat := by
        rw [← sub_mul, abs_mul, abs_of_nonneg hk']
        exact mul_le_mul_of_nonneg_right hlclose hk'
      push_cast
      linarith [abs_sub_abs_le_abs_sub ((l.toRat : ℝ) * k.toRat) (Real.log b.toRat * k.toRat)]
    rw [toRat_normalize, bound_eq]
    exact (by exact_mod_cast hle : |l.toRat * k.toRat| ≤ 66).trans (by norm_num)
  obtain ⟨m, hm⟩ := exists_mul_of_abs_le hproduct
  obtain ⟨hwithin, hwithin'⟩ := exp_exponent_within hb hb0 hk hk24 hlclose hm
  have hinv : ((b.toRat : ℝ) ^ (k.toRat : ℝ))⁻¹ ≤ 10 ^ 28 :=
    inv_le_of_inv_le₀ (by norm_num) (by rwa [← one_div])
  have hη : 2.2 / 10 ^ 25 * (1 + (k.toRat : ℝ)) ≤ 1 := by linarith
  obtain ⟨r, hr⟩ := exists_exp (mul_valid hm)
    (by linarith [(hwithin.mono hpow.le hη).le])
    (by linarith [(hwithin'.mono (inv_pos.2 hpow).le hη).le])
  exact ⟨r, Fault.bind_eq_ok.2 ⟨l, hl, Fault.bind_eq_ok.2 ⟨m, hm, hr⟩⟩⟩

/-- A power exists when it is well within range. Of a whole exponent that is not too long, only the
size matters. -/
theorem exists_pow (hb : b.Valid) (hb0 : 0 < b.toRat) (hk : 0 < k.toRat)
    (hk24 : k.toRat ≤ 10 ^ 24)
    (hwhole : ∀ n : ℕ, k.toRat = n → n < 2 ^ 32)
    (hlow : (∃ n : ℕ, k.toRat = n) ∨ 1 / 10 ^ 28 ≤ (b.toRat : ℝ) ^ (k.toRat : ℝ))
    (hhigh : (b.toRat : ℝ) ^ (k.toRat : ℝ) ≤ 10 ^ 28) : ∃ r, b.pow k = .ok r := by
  by_cases htrivial : b.toRat = 0 ∨ b.toRat = 1 ∨ k.toRat = 1
  · obtain ⟨r, hr, -⟩ := pow_trivial htrivial hk hb
    exact ⟨r, hr⟩
  obtain ⟨hne0, hne1, hk1⟩ : b.toRat ≠ 0 ∧ b.toRat ≠ 1 ∧ k.toRat ≠ 1 := by
    simpa only [not_or] using htrivial
  rw [pow_eq hne0 hne1 hk hk1]
  split
  · next hscale =>
    have hvalue := toRat_eq_magnitude hk.le hscale
    have hn := hwhole _ hvalue
    rw [if_neg (show ¬k.normalize.magnitude ≥ powTwo 32 from Nat.not_le.2 hn)]
    refine exists_powNat hb hn ?_
    rw [hvalue, Rat.cast_natCast, Real.rpow_natCast] at hhigh
    rw [abs_of_pos hb0, max_one_pow hb0.le]
    exact max_le (by norm_num) (by exact_mod_cast hhigh)
  · next hscale =>
    refine exists_exp_ln hb hb0 hk.le hk24 (hlow.resolve_left ?_) hhigh
    rintro ⟨n, hn⟩
    exact hscale (normalize_scale_eq_zero_iff.2 ⟨n, by rw [hn, Int.cast_natCast]⟩)

end Decimal
end BondingCurve
