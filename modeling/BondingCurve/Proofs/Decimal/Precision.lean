import BondingCurve.Proofs.Decimal.Power
import BondingCurve.Proofs.Decimal.Quotient

/-!
# What 28 decimals can tell apart

A power has 28 decimals at most, whatever the intermediate results carried (`pow_scale_le`). So a
power that is not zero leaves less than one when it is taken off one (`oneSub_lt`), and an amount
times less than one is less than the amount, rounded too (`ofInt_mul_lt`). The last is not obvious:
a product of 47 digits loses up to 18 of them, and only because it lies more than half a unit below
the amount is it not rounded up to it.
-/

namespace BondingCurve

/-! ## Wide decimals that become narrow -/

namespace Wide

/-- A cut takes off no fewer decimals than it has to. -/
theorem cut_scale_le {limit cuts excess : ℕ} {v r : Shortened}
    (h : cut limit cuts v excess = .ok r) : r.scale ≤ v.scale - excess := by
  induction cuts generalizing v excess with
  | zero => cases h
  | succ cuts ih =>
    unfold cut at h
    split at h
    · next hnone =>
      cases h
      omega
    · dsimp only at h
      have hk : Nat.min excess 9 ≤ excess := Nat.min_le_left excess 9
      split at h
      · next hmore =>
        -- one digit more than was asked for
        split at h
        · cases h
        · have hscale := ih h
          dsimp only at hscale
          omega
      · have hscale := ih h
        dsimp only at hscale
        omega

/-- Shortening leaves no more decimals than the format has. -/
theorem shrink_scale_le {v scale bits top d s : ℕ} (htop : Decimal.maxScale ≤ top)
    (h : shrink v scale bits top = .ok (d, s)) : s ≤ top := by
  unfold shrink at h
  split at h
  · next hfits =>
    cases h
    exact hfits.2.trans htop
  · dsimp only at h
    -- what is cut off is at least what is above the most decimals
    have hexcess : scale - excess v scale bits top ≤ top := by
      unfold excess
      dsimp only
      generalize (if v ≥ Decimal.powTwo bits then (bitLength v - bits) * 77 / 256 + 1 else 0) = long
      split
      · omega
      · omega
    split at h
    · next hzero =>
      cases h
      omega
    · split at h
      · cases h
      · obtain ⟨r, hr, h⟩ := Decimal.Fault.bind_eq_ok.1 h
        have hscale := cut_scale_le hr
        dsimp only at hscale
        split at h
        · split at h
          · cases h
            omega
          · split at h
            · cases h
            · cases h
              omega
        · cases h
          omega

/-- A wide number is cut down to the decimals of a decimal. -/
theorem narrow_scale_le {w : Wide} {r : Decimal} (h : w.narrow = .ok r) :
    r.scale ≤ Decimal.maxScale := by
  obtain ⟨⟨v, s⟩, hshrink, h⟩ := Decimal.Fault.bind_eq_ok.1 h
  cases h
  exact shrink_scale_le le_rfl hshrink

end Wide

namespace Decimal

/-! ## Powers -/

/-- Stripping zeros adds no decimals. -/
theorem normalize_scale_le (d : Decimal) : d.normalize.scale ≤ d.scale := by
  have hstrip : ∀ (s : ℕ) (c : ℤ), (normalize.strip c s).scale ≤ s := by
    intro s
    induction s with
    | zero => exact fun c => le_rfl
    | succ s ih =>
      intro c
      rw [normalize.strip]
      split
      · exact (ih _).trans (Nat.le_succ s)
      · exact le_rfl
  exact hstrip d.scale d.coefficient

/-- A whole power has no more decimals than a decimal may. -/
theorem powNat_scale_le {base r : Decimal} {n : ℕ} (hbase : base.scale ≤ maxScale)
    (h : base.powNat n = .ok r) : r.scale ≤ maxScale := by
  unfold powNat at h
  split at h
  · cases h
    exact Nat.zero_le _
  split at h
  · cases h
    exact Nat.zero_le _
  split at h
  · cases h
    exact Nat.zero_le _
  split at h
  · cases h
    exact hbase
  split at h
  · exact (mul_valid h).scale_le
  split at h
  · obtain ⟨w, -, h⟩ := Fault.bind_eq_ok.1 h
    obtain ⟨d, hd, h⟩ := Fault.bind_eq_ok.1 h
    cases h
    exact (normalize_scale_le d).trans (Wide.narrow_scale_le hd)
  · obtain ⟨d, hd, h⟩ := Fault.bind_eq_ok.1 h
    cases h
    have hscale : d.scale ≤ maxScale :=
      powBits_keeps (P := fun d => d.scale ≤ maxScale)
        (fun _ _ _ _ _ hmul => (mul_valid hmul).scale_le) (Nat.zero_le _) hbase hd
    exact (normalize_scale_le d).trans hscale

theorem scaleSeries_scale_le {whole r : Decimal} {series : Wide}
    (h : (if whole.coefficient = 0 then series.narrow
      else if whole.magnitude ≥ powTwo 64 then throw .overflow
      else do
        let w ← powBits Wide.mul Wide.one (Wide.ofDecimal e) whole.magnitude
        return (← (← w.mul series).narrow).normalize) = .ok r) : r.scale ≤ maxScale := by
  split at h
  · exact Wide.narrow_scale_le h
  split at h
  · cases h
  · obtain ⟨w, -, h⟩ := Fault.bind_eq_ok.1 h
    obtain ⟨product, -, h⟩ := Fault.bind_eq_ok.1 h
    obtain ⟨d, hd, h⟩ := Fault.bind_eq_ok.1 h
    cases h
    exact (normalize_scale_le d).trans (Wide.narrow_scale_le hd)

/-- Nor has an exponential of an argument that is not negative. -/
theorem expNonneg_scale_le {x r : Decimal} (h : x.expNonneg = .ok r) : r.scale ≤ maxScale := by
  unfold expNonneg at h
  split at h
  · cases h
    exact Nat.zero_le _
  · obtain ⟨rest, -, h⟩ := Fault.bind_eq_ok.1 h
    dsimp only at h
    -- without a rest there is no series to sum
    split at h
    · obtain ⟨series, -, h⟩ := Fault.bind_eq_ok.1 h
      exact scaleSeries_scale_le h
    · obtain ⟨sum, -, h⟩ := Fault.bind_eq_ok.1 h
      obtain ⟨series, -, h⟩ := Fault.bind_eq_ok.1 h
      exact scaleSeries_scale_le h

/-- Nor has any other exponential. -/
theorem exp_scale_le {x r : Decimal} (h : x.exp = .ok r) : r.scale ≤ maxScale := by
  unfold exp at h
  split at h
  · obtain ⟨d, -, h⟩ := Fault.bind_eq_ok.1 h
    exact (div_valid h (valid_ofInt (by decide))).scale_le
  · exact expNonneg_scale_le h

/-- A power of a base with 28 decimals at most has no more. -/
theorem pow_scale_le {base exponent r : Decimal} (hbase : base.scale ≤ maxScale)
    (h : base.pow exponent = .ok r) : r.scale ≤ maxScale := by
  unfold pow at h
  split at h
  · cases h
    exact Nat.zero_le _
  split at h
  · cases h
    exact Nat.zero_le _
  split at h
  · cases h
    exact Nat.zero_le _
  split at h
  · cases h
    exact hbase
  dsimp only at h
  split at h
  · split at h
    · cases h
    · split at h
      · obtain ⟨d, -, h⟩ := Fault.bind_eq_ok.1 h
        exact (div_valid h (valid_ofInt (by decide))).scale_le
      · exact powNat_scale_le hbase h
  · obtain ⟨l, -, h⟩ := Fault.bind_eq_ok.1 h
    obtain ⟨e, -, h⟩ := Fault.bind_eq_ok.1 h
    exact exp_scale_le h

/-! ## Taking a share off one -/

/-- Bringing a coefficient under the bound adds no decimals. -/
theorem fitSigned_scale_le {v : ℤ} {scale least : ℕ} {r : Decimal}
    (h : fitSigned v scale least = .ok r) : r.scale ≤ scale := by
  obtain ⟨q, s, hfit, -, rfl, -⟩ := fitSigned_eq_ok h
  obtain ⟨k, -, -, -, -, hcase⟩ := fit_eq_ok hfit
  rcases hcase with ⟨-, -, hs⟩ | ⟨-, -, -, hs⟩
  · omega
  · omega

/-- Nor has what a decimal leaves of one. -/
theorem oneSub_scale_le {d r : Decimal} (hd : d.scale ≤ maxScale) (h : one.sub d = .ok r) :
    r.scale ≤ maxScale := by
  unfold sub add at h
  split at h
  · cases h
    exact hd
  · split at h
    · cases h
      exact Nat.zero_le _
    · exact (fitSigned_scale_le h).trans (Nat.max_le.2 ⟨Nat.zero_le _, hd⟩)

/-- Nothing taken off one leaves one. -/
theorem oneSub_of_coefficient_eq_zero {d r : Decimal} (hd : d.coefficient = 0)
    (h : one.sub d = .ok r) : r = one := by
  have hneg : (-d).coefficient = 0 := by
    show -d.coefficient = 0
    rw [hd, neg_zero]
  unfold sub add at h
  rw [if_neg (by decide), if_pos hneg] at h
  cases h
  rfl

/-- A number under the bound fits as it is. -/
theorem fit_of_lt {v scale : ℕ} (h : v < bound) : fit v scale 0 = .ok (v, scale) := by
  have hround : divHalfEven v (powTen 0) = v := by
    rw [powTen_zero, divHalfEven]
    simp [Nat.mod_one]
  have hfirst : (List.range' 0 (scale + 1 - 0)).find? (fun k => v / powTen k < bound) = some 0 := by
    rw [Nat.sub_zero, List.range'_succ, List.find?_cons_of_pos]
    simpa using h
  unfold fit
  rw [hfirst]
  dsimp only
  rw [hround, if_pos h]
  rfl

/-- What is left of one when a positive number is taken off it is less than one. -/
theorem oneSub_lt {d r : Decimal} (hd : d.scale ≤ maxScale) (hpos : 0 < d.coefficient)
    (h : one.sub d = .ok r) : r.coefficient < powTen r.scale := by
  have hne : (-d).coefficient ≠ 0 := by
    show -d.coefficient ≠ 0
    omega
  unfold sub add at h
  rw [if_neg (by decide), if_neg hne] at h
  dsimp only at h
  have hscale : Nat.max one.scale (-d).scale = d.scale := Nat.zero_max d.scale
  have hvalue : one.coefficient * powTen (d.scale - one.scale) +
      (-d).coefficient * powTen (d.scale - (-d).scale) = powTen d.scale - d.coefficient := by
    show (1 : ℤ) * powTen (d.scale - 0) + -d.coefficient * powTen (d.scale - d.scale) = _
    rw [Nat.sub_zero, Nat.sub_self, powTen_zero]
    push_cast
    ring
  rw [hscale, hvalue] at h
  obtain ⟨q, s, hfit, hcoefficient, hs, -⟩ := fitSigned_eq_ok h
  rcases le_or_gt (powTen d.scale - d.coefficient : ℤ) 0 with hle | hlt
  · -- nothing or less is left
    have hsign : (powTen d.scale - d.coefficient : ℤ).sign ≤ 0 := Int.sign_nonpos_iff.2 hle
    have hnonpos : r.coefficient ≤ 0 := by
      rw [hcoefficient]
      exact mul_nonpos_of_nonpos_of_nonneg hsign (Int.natCast_nonneg q)
    have hten := powTen_pos r.scale
    omega
  · have hten : powTen d.scale ≤ powTen maxScale := Nat.pow_le_pow_right (by decide) hd
    have hbound : powTen maxScale < bound := by decide
    rw [fit_of_lt (by omega)] at hfit
    cases hfit
    rw [hcoefficient, hs, Int.sign_eq_one_of_pos hlt]
    omega

/-! ## A share of an amount -/

/-- What lies more than half a unit below a whole number is not rounded up to it. -/
theorem divHalfEven_lt {v n d : ℕ} (h : 2 * v + d < 2 * (n * d)) : divHalfEven v d < n := by
  have hdiv : v / d * d + v % d = v := Nat.div_add_mod' v d
  have hlt : v / d < n := by
    by_contra hle
    have := Nat.mul_le_mul_right d (Nat.le_of_not_lt hle)
    omega
  unfold divHalfEven
  dsimp only
  split
  · next hup =>
    -- the remainder is at least a half, so another whole number lies between
    by_contra hle
    have heq : v / d + 1 = n := by omega
    have hsum : n * d = v / d * d + d := by rw [← heq, Nat.add_mul, Nat.one_mul]
    omega
  · exact hlt

/-- Less than `n` units of one, with 28 decimals at most, fit to less than `n`. -/
theorem fit_lt {n c scale q s : ℕ} (hn : n ≤ Amount.greatest.toNat) (hscale : scale ≤ maxScale)
    (hc : c < powTen scale) (h : fit (n * c) scale 0 = .ok (q, s)) (hpos : 0 < n) :
    q < n * powTen s := by
  have hb : bound = 79228162514264337593543950336 := by decide
  have hgreatest : n ≤ 9223372036854775807 := hn
  have hten : powTen scale ≤ 10000000000000000000000000000 :=
    Nat.pow_le_pow_right (by decide) hscale
  -- the product is `n` units of the last decimal below the whole, at least
  have hgap : n * c + n ≤ n * powTen scale := by
    rw [← Nat.mul_succ]
    exact Nat.mul_le_mul_left n hc
  obtain ⟨k, hk, -, hlt, hfirst, hcase⟩ := fit_eq_ok h
  have hsplit : n * powTen scale = n * powTen (scale - k) * powTen k := by
    rw [powTen_split hk, Nat.mul_assoc]
  -- and `k` digits are dropped only if that is more than half of what is dropped
  have hhalf : powTen k < 2 * n := by
    rcases Nat.eq_zero_or_pos k with rfl | hkpos
    · rw [powTen_zero]
      omega
    · have hle : bound * powTen (k - 1) ≤ n * c :=
        (Nat.le_div_iff_mul_le (powTen_pos (k - 1))).1 (hfirst hkpos)
      have hpow : powTen k = powTen (k - 1) * 10 := powTen_split hkpos
      have hmul : n * powTen scale ≤ n * 10000000000000000000000000000 :=
        Nat.mul_le_mul_left n hten
      rw [hb] at hle
      omega
  have hround : divHalfEven (n * c) (powTen k) < n * powTen (scale - k) := by
    apply divHalfEven_lt
    rw [← hsplit]
    omega
  rcases hcase with ⟨-, rfl, rfl⟩ | ⟨hbound, hks, rfl, rfl⟩
  · exact hround
  · -- rounding up reached the bound, and a multiple of ten behind it is not its tenth rounded up
    have htenth : powTen (scale - k) = powTen (scale - k - 1) * 10 := powTen_split (by omega)
    rw [htenth, ← Nat.mul_assoc] at hround
    rcases Nat.eq_zero_or_pos (scale - k - 1) with hzero | hmore
    · rw [hzero, powTen_zero] at hround
      omega
    · have hagain : powTen (scale - k - 1) = powTen (scale - k - 1 - 1) * 10 := powTen_split hmore
      rw [hagain, ← Nat.mul_assoc] at hround ⊢
      omega

/-- An amount times a decimal below one is less than the amount. -/
theorem ofInt_mul_lt {n : ℤ} {d r : Decimal} (hpos : 0 < n) (hn : n ≤ Amount.greatest)
    (hscale : d.scale ≤ maxScale) (hd : d.coefficient < powTen d.scale)
    (h : (ofInt n).mul d = .ok r) : r.toRat < n := by
  have hn' : (0 : ℚ) < n := by exact_mod_cast hpos
  unfold mul at h
  split at h
  · cases h
    rwa [toRat_zero]
  · next hne =>
    dsimp only at h
    split at h
    · cases h
      rwa [toRat_zero]
    · have hfit : fitSigned (n * d.coefficient) (0 + d.scale) (0 + d.scale - maxScale) = .ok r := h
      rw [Nat.zero_add, Nat.sub_eq_zero_of_le hscale] at hfit
      obtain ⟨q, s, hq, hcoefficient, hs, -⟩ := fitSigned_eq_ok hfit
      rw [toRat, div_lt_iff₀ (powTen_cast_pos _), hcoefficient, hs]
      rcases le_or_gt d.coefficient 0 with hneg | hdpos
      · -- the product is not even positive
        have hsign : (n * d.coefficient).sign ≤ 0 :=
          Int.sign_nonpos_iff.2 (mul_nonpos_of_nonneg_of_nonpos hpos.le hneg)
        have hle : (n * d.coefficient).sign * (q : ℤ) ≤ 0 :=
          mul_nonpos_of_nonpos_of_nonneg hsign (Int.natCast_nonneg q)
        have hle' : (((n * d.coefficient).sign * q : ℤ) : ℚ) ≤ 0 := by exact_mod_cast hle
        exact hle'.trans_lt (mul_pos hn' (powTen_cast_pos s))
      · obtain ⟨m, rfl⟩ := Int.eq_ofNat_of_zero_le hpos.le
        obtain ⟨c, hc⟩ := Int.eq_ofNat_of_zero_le hdpos.le
        rw [hc] at hq hd ⊢
        have hmul : ((m : ℤ) * (c : ℤ)).natAbs = m * c := by
          rw [Int.natAbs_mul, Int.natAbs_natCast, Int.natAbs_natCast]
        rw [hmul] at hq
        have hlt := fit_lt (by omega) hscale (by exact_mod_cast hd) hq (by exact_mod_cast hpos)
        rw [Int.sign_eq_one_of_pos (mul_pos hpos (hc ▸ hdpos)), one_mul]
        exact_mod_cast hlt

end Decimal
end BondingCurve
