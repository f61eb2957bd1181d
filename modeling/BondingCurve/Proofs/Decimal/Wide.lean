import BondingCurve.Proofs.Decimal.Accuracy

/-!
# How far wide results are from the exact ones

A wide decimal that is shortened loses its digits in chunks and is off by less than one unit of the
last decimal it keeps. How many digits it loses is estimated from its length in bits, and the
estimate is never too high by more than a digit (`powTen_estimate_le`), so what is left has about
as many digits as there is room for (`Shortens.long`). From that products, quotients by small
numbers and narrowed results are close to the exact ones, and they exist unless those are too
large. Sums as the series form them are not rounded at all.
-/

namespace BondingCurve
namespace Wide

open Decimal (powTen powTwo powTen_cast powTen_pos powTen_add ulp ulp_pos)

/-- The number `w` stands for. -/
def toRat (w : Wide) : ℚ := w.coefficient / 10 ^ w.scale

@[simp] theorem toRat_ofDecimal (d : Decimal) : (ofDecimal d).toRat = d.toRat := by
  rw [toRat, ofDecimal, Decimal.toRat, powTen_cast]

@[simp] theorem toRat_one : one.toRat = 1 := by
  norm_num [toRat, one]

theorem toRat_of_coefficient_eq_zero {w : Wide} (h : w.coefficient = 0) : w.toRat = 0 := by
  rw [toRat, h, Int.cast_zero, zero_div]

theorem coefficient_eq_zero_of_toRat {w : Wide} (h : w.toRat = 0) : w.coefficient = 0 := by
  rw [toRat, div_eq_zero_iff] at h
  exact_mod_cast h.resolve_right (by positivity)

theorem toRat_nonneg_of_isNonneg {w : Wide} (h : w.IsNonneg) : 0 ≤ w.toRat := by
  have hcast : (0 : ℚ) ≤ w.coefficient := by exact_mod_cast h
  rw [toRat]
  positivity

theorem isNonneg_of_toRat {w : Wide} (h : 0 ≤ w.toRat) : w.IsNonneg := by
  rw [toRat, le_div_iff₀ (by positivity), zero_mul] at h
  exact_mod_cast h

/-- No more decimals than a rounded value keeps. -/
def IsFine (w : Wide) : Prop := w.scale ≤ maxScale

instance (w : Wide) : Decidable w.IsFine := Nat.decLe _ _

theorem isFine_ofDecimal {d : Decimal} (h : d.Valid) : (ofDecimal d).IsFine :=
  h.scale_le.trans (by decide)

/-! ## Cutting -/

theorem div_powTen_div_powTen (n j k : ℕ) : n / powTen j / powTen k = n / powTen (j + k) := by
  rw [Nat.div_div_eq_div_mul, powTen_add]

/-- What is cut off is what was asked for, or more because the rest was still too long. -/
theorem cut_eq_ok {limit cuts excess : ℕ} {v r : Shortened} (hexcess : excess ≤ v.scale)
    (h : cut limit cuts v excess = .ok r) :
    ∃ k ≤ v.scale, r.scale = v.scale - k ∧ r.digits = v.digits / powTen k ∧
      (k = excess ∨ excess < k ∧ limit ≤ v.digits / powTen (k - 1)) ∧
      (0 < excess → r.digits < limit) := by
  induction cuts generalizing v excess with
  | zero => cases h
  | succ cuts ih =>
    unfold cut at h
    split at h
    · next hnone =>
      cases h
      exact ⟨0, Nat.zero_le _, rfl, by simp, .inl hnone.symm, fun hpos => absurd hnone hpos.ne'⟩
    · next hsome =>
      dsimp only at h
      have hmin : Nat.min excess 9 ≤ excess := Nat.min_le_left _ _
      have hmin' : 0 < Nat.min excess 9 := lt_min (Nat.pos_of_ne_zero hsome) (by decide)
      generalize Nat.min excess 9 = j at h hmin hmin'
      split at h
      · next hmore =>
        obtain ⟨hlong, rfl⟩ := hmore
        split at h
        · cases h
        · next hscale =>
          obtain ⟨k, hk, hs, hdigits, hcount, hlt⟩ :=
            ih (show 1 ≤ v.scale - excess from Nat.one_le_iff_ne_zero.2 hscale) h
          dsimp only at hk hs hdigits hcount
          rw [div_powTen_div_powTen] at hdigits
          refine ⟨excess + k, by omega, by omega, hdigits, .inr ?_, fun _ => hlt Nat.one_pos⟩
          rcases hcount with rfl | ⟨hk1, hlimit⟩
          · exact ⟨by omega, hlong⟩
          · rw [div_powTen_div_powTen] at hlimit
            exact ⟨by omega, by rwa [Nat.add_sub_assoc hk1.le]⟩
      · next hless =>
        obtain ⟨k, hk, hs, hdigits, hcount, hlt⟩ :=
          ih (show excess - j ≤ v.scale - j from Nat.sub_le_sub_right hexcess j) h
        dsimp only at hk hs hdigits hcount hless
        have hcount' : k = excess - j ∨
            excess - j < k ∧ limit ≤ v.digits / powTen (j + k - 1) := by
          rcases hcount with hexact | ⟨hk1, hlimit⟩
          · exact .inl hexact
          · rw [div_powTen_div_powTen, ← Nat.add_sub_assoc (by omega)] at hlimit
            exact .inr ⟨hk1, hlimit⟩
        rw [div_powTen_div_powTen] at hdigits
        refine ⟨j + k, by omega, by omega, hdigits, ?_, fun _ => ?_⟩
        · rcases hcount' with hexact | ⟨hk1, hlimit⟩
          · exact .inl (by omega)
          · exact .inr ⟨by omega, hlimit⟩
        · -- the last cut that was asked for left few enough digits
          rcases hmin.eq_or_lt with rfl | hlt'
          · rw [hdigits]
            have hfew : v.digits / powTen j < limit := by
              by_contra hge
              exact hless ⟨not_lt.1 hge, rfl⟩
            exact (Nat.div_le_div_left (Nat.pow_le_pow_right (by decide) (Nat.le_add_right j k))
              (powTen_pos j)).trans_lt hfew
          · exact hlt (by omega)

/-- As long as the whole part has room, cutting comes to an end. -/
theorem exists_cut {limit cuts excess : ℕ} {v : Shortened} (hcuts : v.scale < cuts)
    (hexcess : excess ≤ v.scale) (hwhole : v.digits / powTen v.scale < limit) :
    ∃ r, cut limit cuts v excess = .ok r := by
  induction cuts generalizing v excess with
  | zero => exact absurd hcuts (Nat.not_lt_zero _)
  | succ cuts ih =>
    unfold cut
    split
    · exact ⟨v, rfl⟩
    · next hsome =>
      dsimp only
      have hmin : Nat.min excess 9 ≤ excess := Nat.min_le_left _ _
      have hmin' : 0 < Nat.min excess 9 := lt_min (Nat.pos_of_ne_zero hsome) (by decide)
      generalize Nat.min excess 9 = j at hmin hmin'
      have hwhole' : v.digits / powTen j / powTen (v.scale - j) < limit := by
        rwa [div_powTen_div_powTen, Nat.add_sub_cancel' (hmin.trans hexcess)]
      split
      · next hmore =>
        split
        · next hscale =>
          rw [hscale, Decimal.powTen_zero, Nat.div_one] at hwhole'
          exact absurd hmore.1 (not_le.2 hwhole')
        · next hscale => exact ih (by dsimp only; omega) (by dsimp only; omega) hwhole'
      · exact ih (by dsimp only; omega) (by dsimp only; omega) hwhole'

/-! ## The estimate -/

/-- The digits that the estimate counts are no more than the bits it counts them from. -/
theorem powTen_estimate_le (m : ℕ) : powTen (m * 77 / 256) ≤ 2 ^ m := by
  have hq : m * 77 / 256 * 256 ≤ m * 77 := Nat.div_mul_le_self _ _
  have hbase : (10 : ℕ) ^ 77 ≤ 2 ^ 256 := by norm_num
  apply (Nat.pow_le_pow_iff_left (n := 77) (by decide)).1
  calc powTen (m * 77 / 256) ^ 77 = (10 ^ 77) ^ (m * 77 / 256) := by
        rw [show powTen (m * 77 / 256) = 10 ^ (m * 77 / 256) from rfl, ← pow_mul, ← pow_mul,
          Nat.mul_comm]
    _ ≤ (2 ^ 256) ^ (m * 77 / 256) := Nat.pow_le_pow_left hbase _
    _ = 2 ^ (m * 77 / 256 * 256) := by rw [← pow_mul, Nat.mul_comm]
    _ ≤ 2 ^ (m * 77) := Nat.pow_le_pow_right (by decide) hq
    _ = (2 ^ m) ^ 77 := by rw [← pow_mul]

theorem bitLength_spec {n : ℕ} (h : n ≠ 0) : 2 ^ (bitLength n - 1) ≤ n ∧ n < 2 ^ bitLength n := by
  rw [bitLength, if_neg h, Nat.add_sub_cancel]
  exact ⟨Nat.log2_self_le h, Nat.lt_log2_self⟩

/-- A long number is cut by one digit less than the estimate at least, and stays long. -/
theorem estimate_le {v bits : ℕ} (hbits : 0 < bits) (hv : powTwo bits ≤ v) :
    powTen ((bitLength v - bits) * 77 / 256) * 2 ^ (bits - 1) ≤ v := by
  have hv0 : v ≠ 0 := ((Nat.pow_pos (by decide)).trans_le hv).ne'
  obtain ⟨hlow, hhigh⟩ := bitLength_spec hv0
  have hlt : bits < bitLength v := (Nat.pow_lt_pow_iff_right (by decide)).1 (hv.trans_lt hhigh)
  calc powTen ((bitLength v - bits) * 77 / 256) * 2 ^ (bits - 1)
      ≤ 2 ^ (bitLength v - bits) * 2 ^ (bits - 1) :=
        Nat.mul_le_mul_right _ (powTen_estimate_le _)
    _ = 2 ^ (bitLength v - 1) := by rw [← pow_add]; congr 1; omega
    _ ≤ v := hlow

/-! ## Shortening -/

/-- What shortening promises: `d` with `s` decimals for `v` with `scale`. -/
structure Shortens (v scale bits top d s : ℕ) : Prop where
  /-- Off by a unit of the last decimal at most. -/
  close : |(d : ℚ) / 10 ^ s - v / 10 ^ scale| ≤ 1 / 10 ^ s
  lt : d < 2 ^ bits
  /-- Nothing was cut off, or the most decimals are there, or about as many digits as there is
  room for. -/
  long : (d = v ∧ s = scale) ∨ s = top ∨ 2 ^ (bits - 1) ≤ 10 * (d + 1)

variable {v scale bits top d s : ℕ}

/-- Digits are cut off because there are too many decimals, or because the coefficient is long. -/
theorem excess_cases (v scale bits top : ℕ) :
    (excess v scale bits top = scale - top ∧ top < scale) ∨
      (powTwo bits ≤ v ∧ excess v scale bits top = (bitLength v - bits) * 77 / 256 + 1) ∨
      (excess v scale bits top = 0 ∧ v < powTwo bits) := by
  unfold excess
  dsimp only
  by_cases hv : v ≥ powTwo bits
  · rw [if_pos hv]
    split
    · exact .inl ⟨rfl, by omega⟩
    · exact .inr (.inl ⟨hv, rfl⟩)
  · rw [if_neg hv]
    split
    · exact .inl ⟨rfl, by omega⟩
    · exact .inr (.inr ⟨rfl, not_le.1 hv⟩)

/-- Cutting leaves many digits or the most decimals. -/
theorem cut_long {k : ℕ} (hbits : 0 < bits) (hk : k ≤ scale)
    (hcount : k = excess v scale bits top ∨
      excess v scale bits top < k ∧ powTwo bits ≤ v / powTen (k - 1)) (hk0 : 0 < k) :
    scale - k = top ∨ 2 ^ (bits - 1) ≤ 10 * (v / powTen k + 1) := by
  -- one digit less leaves ten times as much
  have hten : v / powTen (k - 1) < 10 * (v / powTen k + 1) := by
    have hsplit : powTen k = powTen (k - 1) * 10 := by
      rw [show k = k - 1 + 1 from by omega, powTen_add]
      rfl
    rw [hsplit, ← Nat.div_div_eq_div_mul]
    omega
  have htwo : 2 ^ (bits - 1) ≤ powTwo bits := Nat.pow_le_pow_right (by decide) (Nat.sub_le _ _)
  rcases hcount with hexact | ⟨-, hlong⟩
  · rcases excess_cases v scale bits top with ⟨hmore, htop⟩ | ⟨hv, hestimate⟩ | ⟨hnone, -⟩
    · exact .inl (by omega)
    · have hle := estimate_le hbits hv
      rw [Nat.mul_comm, ← Nat.le_div_iff_mul_le (powTen_pos _)] at hle
      rw [show k - 1 = (bitLength v - bits) * 77 / 256 from by omega] at hten
      exact .inr (hle.trans hten.le)
    · omega
  · exact .inr (htwo.trans (hlong.trans hten.le))

/-- Digits within one of a value at their scale stand for it up to a unit of that scale. -/
theorem abs_div_sub_le_unit {q t : ℕ} {x : ℚ} (h : |(q : ℚ) - x * 10 ^ t| ≤ 1) :
    |(q : ℚ) / 10 ^ t - x| ≤ 1 / 10 ^ t := by
  have ht : (0 : ℚ) < 10 ^ t := by positivity
  rw [le_div_iff₀ ht, ← abs_of_pos ht, ← abs_mul, abs_of_pos ht, sub_mul, div_mul_cancel₀ _ ht.ne']
  exact h

/-- What is left when digits are cut off is the whole part of the quotient. -/
theorem div_powTen_mem (v k : ℕ) :
    ((v / powTen k : ℕ) : ℚ) ≤ v / 10 ^ k ∧ (v : ℚ) / 10 ^ k < (v / powTen k : ℕ) + 1 := by
  have hpow : (0 : ℚ) < 10 ^ k := by positivity
  rw [le_div_iff₀ hpow, div_lt_iff₀ hpow, ← powTen_cast]
  constructor
  · exact_mod_cast Nat.div_mul_le_self v (powTen k)
  · exact_mod_cast (Nat.div_lt_iff_lt_mul (powTen_pos k)).1 (Nat.lt_succ_self _)

/-- One more than the whole part, cut by one more digit, is within one of a tenth. -/
theorem abs_tenth_sub_le {d : ℕ} {x : ℚ} (hlow : (d : ℚ) ≤ x) (hhigh : x < d + 1) :
    |(((d + 1) / 10 : ℕ) : ℚ) - x / 10| ≤ 1 := by
  have hq : (d + 1) / 10 * 10 ≤ d + 1 := Nat.div_mul_le_self _ _
  have hq' : d + 1 < ((d + 1) / 10 + 1) * 10 := by omega
  generalize (d + 1) / 10 = q at hq hq' ⊢
  have hle : (q : ℚ) * 10 ≤ d + 1 := by exact_mod_cast hq
  have hlt : (d : ℚ) + 1 < (q + 1) * 10 := by exact_mod_cast hq'
  rw [abs_le]
  constructor <;> linarith

theorem shrink_shortens (hbits : 0 < bits) (h : shrink v scale bits top = .ok (d, s)) :
    Shortens v scale bits top d s := by
  have hself (hv : v < 2 ^ bits) : Shortens v scale bits top v scale :=
    ⟨by rw [sub_self, abs_zero]; positivity, hv, .inl ⟨rfl, rfl⟩⟩
  unfold shrink at h
  split at h
  · next hfits =>
    cases h
    exact hself hfits.1
  · dsimp only at h
    split at h
    · next hzero =>
      cases h
      rcases excess_cases v scale bits top with ⟨hmore, htop⟩ | ⟨-, hestimate⟩ | ⟨-, hv⟩
      · omega
      · omega
      · exact hself hv
    · next hsome =>
      split at h
      · cases h
      · next hscale =>
        obtain ⟨r, hr, h⟩ := Decimal.Fault.bind_eq_ok.1 h
        obtain ⟨k, hk, hs, hdigits, hcount, hlt⟩ := cut_eq_ok (not_lt.1 hscale) hr
        dsimp only at hk hs hdigits hcount
        have hk0 : 0 < k := by omega
        have hlong := cut_long hbits hk hcount hk0
        rw [← hdigits, ← hs] at hlong
        have hdlt : r.digits < 2 ^ bits := hlt (Nat.pos_of_ne_zero hsome)
        -- the digits left, and what was cut off as a part of one
        have hpow : (0 : ℚ) < 10 ^ k := by positivity
        have hvalue : (v : ℚ) / 10 ^ scale * 10 ^ r.scale = v / 10 ^ k := by
          rw [hs, div_mul_eq_mul_div, div_eq_div_iff (by positivity) hpow.ne', mul_assoc, ← pow_add,
            Nat.sub_add_cancel hk]
        have hfloor := div_powTen_mem v k
        rw [← hdigits] at hfloor
        split at h
        · split at h
          · next hroom =>
            cases h
            refine ⟨abs_div_sub_le_unit ?_, hroom, .inr (hlong.imp_right fun hle => by omega)⟩
            rw [hvalue, abs_le]
            push_cast
            constructor <;> linarith
          · next hfull =>
            split at h
            · cases h
            · next hs0 =>
              cases h
              have hten : 2 ^ (bits - 1) ≤ 2 ^ bits := Nat.pow_le_pow_right (by decide) (by omega)
              have hfull' : 2 ^ bits ≤ r.digits + 1 := not_lt.1 hfull
              refine ⟨abs_div_sub_le_unit ?_, by omega, .inr (.inr (by omega))⟩
              have hvalue' : (v : ℚ) / 10 ^ scale * 10 ^ (r.scale - 1) = v / 10 ^ k / 10 := by
                rw [← hvalue, mul_div_assoc]
                congr 1
                rw [eq_div_iff (by norm_num), ← pow_succ, Nat.sub_add_cancel (by omega)]
              rw [hvalue']
              exact abs_tenth_sub_le hfloor.1 hfloor.2
        · cases h
          refine ⟨abs_div_sub_le_unit ?_, hdlt, .inr hlong⟩
          rw [hvalue, abs_le]
          constructor <;> linarith

/-- With `η` as one unit of the most decimals and of the most digits, a shortened value is that
close. -/
theorem Shortens.abs_sub_le {η : ℚ} (h : Shortens v scale bits top d s) (hη : 1 / 10 ^ top ≤ η)
    (hη' : 11 ≤ η * 2 ^ (bits - 1)) (hη1 : η ≤ 1 / 20) :
    |(d : ℚ) / 10 ^ s - v / 10 ^ scale| ≤ η * Max.max 1 ((v : ℚ) / 10 ^ scale) := by
  have hη0 : 0 ≤ η := le_trans (by positivity) hη
  rcases h.long with ⟨rfl, rfl⟩ | rfl | hlong
  · rw [sub_self, abs_zero]
    positivity
  · exact h.close.trans (hη.trans (le_mul_of_one_le_right hη0 (le_max_left _ _)))
  · refine h.close.trans (le_trans ?_ (mul_le_mul_of_nonneg_left (le_max_right _ _) hη0))
    have hclose := h.close
    have hs : (0 : ℚ) < 10 ^ s := by positivity
    have hlow : (2 : ℚ) ^ (bits - 1) ≤ 10 * (d + 1) := by exact_mod_cast hlong
    have hd : (d : ℚ) ≤ v / 10 ^ scale * 10 ^ s + 1 := by
      rw [abs_le, div_sub' hs.ne', div_le_div_iff_of_pos_right hs] at hclose
      linarith [hclose.2]
    have hpow : η * 2 ^ (bits - 1) ≤ η * (10 * (d + 1)) := mul_le_mul_of_nonneg_left hlow hη0
    have hd' : η * (10 * (d + 1)) ≤ η * (10 * (v / 10 ^ scale * 10 ^ s + 1 + 1)) := by gcongr
    rw [div_le_iff₀ hs]
    linarith

theorem exists_shrink (hbits : 0 < bits) (hv : (v : ℚ) / 10 ^ scale < 2 ^ (bits - 1)) :
    ∃ d s, shrink v scale bits top = .ok (d, s) := by
  have hv' : v < 2 ^ (bits - 1) * powTen scale := by
    rw [div_lt_iff₀ (by positivity), ← powTen_cast] at hv
    exact_mod_cast hv
  have htwo : 2 ^ (bits - 1) < 2 ^ bits := Nat.pow_lt_pow_right (by decide) (by omega)
  unfold shrink
  split
  · exact ⟨_, _, rfl⟩
  dsimp only
  split
  · exact ⟨_, _, rfl⟩
  split
  · next hmore =>
    exfalso
    rcases excess_cases v scale bits top with ⟨htop, -⟩ | ⟨hlong, hestimate⟩ | ⟨hnone, -⟩
    · omega
    · have hle := estimate_le hbits hlong
      rw [Nat.mul_comm] at hle
      have hten : powTen scale ≤ powTen ((bitLength v - bits) * 77 / 256) :=
        Nat.pow_le_pow_right (by decide) (by omega)
      have hprod := Nat.mul_le_mul_left (2 ^ (bits - 1)) hten
      omega
    · omega
  · next hscale =>
    have hwhole : v / powTen scale < 2 ^ (bits - 1) := (Nat.div_lt_iff_lt_mul (powTen_pos _)).2 hv'
    obtain ⟨r, hr⟩ := exists_cut (show scale < scale + 1 from Nat.lt_succ_self scale)
      (v := ⟨v, scale, 0⟩) (not_lt.1 hscale) (show v / powTen scale < powTwo bits from hwhole.trans htwo)
    obtain ⟨k, hk, hs, hdigits, -, -⟩ := cut_eq_ok (not_lt.1 hscale) hr
    dsimp only at hk hs hdigits
    rw [hr]
    dsimp only [bind, Except.bind]
    split
    · split
      · exact ⟨_, _, rfl⟩
      · next hfull =>
        split
        · next hs0 =>
          -- without decimals the digits are the whole part
          exfalso
          rw [show k = scale from by omega] at hdigits
          have hroom : r.digits + 1 < 2 ^ bits := by omega
          exact hfull hroom
        · exact ⟨_, _, rfl⟩
    · exact ⟨_, _, rfl⟩

/-! ## Narrowing -/

section

variable {a b r : Wide}

theorem abs_toRat (w : Wide) : |w.toRat| = (w.magnitude : ℚ) / 10 ^ w.scale :=
  Decimal.abs_cast_div w.coefficient w.scale

/-- A narrowed number is off by three units of the 28th decimal at most, or of the 28th digit of a
number above one. -/
theorem narrow_close {w : Wide} {r : Decimal} (h : w.narrow = .ok r) :
    r.Valid ∧ |r.toRat - w.toRat| ≤ 3 * ulp * Max.max 1 |w.toRat| := by
  have hscale := narrow_scale_le h
  obtain ⟨⟨d, s⟩, hshrink, h⟩ := Decimal.Fault.bind_eq_ok.1 h
  cases h
  have hshort := shrink_shortens (by decide) hshrink
  refine ⟨⟨?_, hscale, nofun⟩, ?_⟩
  · show (w.coefficient.sign * (d : ℤ)).natAbs < Decimal.bound
    rw [Int.natAbs_mul, Int.natAbs_natCast]
    have hsign : w.coefficient.sign.natAbs ≤ 1 := by
      rcases Int.sign_trichotomy w.coefficient with h | h | h <;> rw [h] <;> decide
    exact (Nat.mul_le_mul_right d hsign).trans_lt (by rw [one_mul]; exact hshort.lt)
  · rw [abs_toRat, Decimal.toRat, powTen_cast]
    push_cast
    rw [mul_div_assoc]
    refine (Decimal.sign_mul_sub_le _ _ _).trans (hshort.abs_sub_le ?_ ?_ ?_) <;>
      norm_num [ulp, Decimal.maxScale]

theorem exists_narrow {w : Wide} (h : |w.toRat| < 2 ^ 95) : ∃ r, w.narrow = .ok r := by
  rw [abs_toRat] at h
  obtain ⟨d, s, hshrink⟩ : ∃ d s, shrink w.magnitude w.scale 96 Decimal.maxScale = .ok (d, s) :=
    exists_shrink (by decide) h
  exact ⟨_, by rw [narrow, hshrink]; rfl⟩

/-! ## Products -/

/-- What one operation on wide decimals is off by, at most, for a result of one or less. -/
def roundoff : ℚ := 1 / 10 ^ 49

theorem roundoff_pos : 0 < roundoff := by norm_num [roundoff]

/-- Rounding half to even nine digits at a time is off by less than one. -/
theorem roundChunks_close {chunks excess : ℕ} (hchunks : excess ≤ chunks) (v : ℕ) :
    |(roundChunks chunks v excess : ℚ) - v / 10 ^ excess| ≤ 1 - 1 / 10 ^ excess := by
  induction chunks generalizing v excess with
  | zero =>
    obtain rfl : excess = 0 := by omega
    simp [roundChunks]
  | succ chunks ih =>
    unfold roundChunks
    split
    · next hnone =>
      subst hnone
      simp
    · next hsome =>
      dsimp only
      have hmin : Nat.min 9 excess ≤ excess := Nat.min_le_right _ _
      have hmin' : 0 < Nat.min 9 excess := lt_min (by decide) (Nat.pos_of_ne_zero hsome)
      generalize Nat.min 9 excess = k at hmin hmin'
      have hrest := ih (by omega : excess - k ≤ chunks) (Decimal.divHalfEven v (powTen k))
      have heven := Decimal.divHalfEven_halfEven (v := v) (powTen_pos k)
      rw [powTen_cast] at heven
      generalize Decimal.divHalfEven v (powTen k) = q at hrest heven ⊢
      -- the first chunk costs half a unit of what is then divided by the others
      have hsplit : (10 : ℚ) ^ excess = 10 ^ k * 10 ^ (excess - k) := by
        rw [← pow_add, Nat.add_sub_cancel' hmin]
      have htwo : (2 : ℚ) ≤ 10 ^ k := by
        calc (2 : ℚ) ≤ 10 ^ 1 := by norm_num
          _ ≤ 10 ^ k := pow_le_pow_right₀ (by norm_num) hmin'
      have hpos : (0 : ℚ) < 10 ^ (excess - k) := by positivity
      have hfirst : |(q : ℚ) / 10 ^ (excess - k) - v / 10 ^ excess| ≤
          1 / 2 / 10 ^ (excess - k) := by
        rw [hsplit, ← div_div, ← sub_div, abs_div, abs_of_pos hpos]
        gcongr
        rw [abs_le]
        exact ⟨by linarith [heven.ge], by linarith [heven.le]⟩
      have hlast : 1 / (10 : ℚ) ^ excess ≤ 1 / 2 / 10 ^ (excess - k) := by
        rw [hsplit, ← div_div]
        gcongr
      calc |(roundChunks chunks q (excess - k) : ℚ) - v / 10 ^ excess|
          ≤ |(roundChunks chunks q (excess - k) : ℚ) - q / 10 ^ (excess - k)| +
            |(q : ℚ) / 10 ^ (excess - k) - v / 10 ^ excess| := abs_sub_le _ _ _
        _ ≤ 1 - 1 / 10 ^ (excess - k) + 1 / 2 / 10 ^ (excess - k) := add_le_add hrest hfirst
        _ = 1 - 1 / 2 / 10 ^ (excess - k) := by ring
        _ ≤ 1 - 1 / 10 ^ excess := by linarith

theorem toRat_mul_toRat (a b : Wide) : a.toRat * b.toRat =
    ((a.coefficient * b.coefficient : ℤ) : ℚ) / 10 ^ (a.scale + b.scale) := by
  rw [toRat, toRat, div_mul_div_comm, ← pow_add, Int.cast_mul]

theorem mul_close (h : a.mul b = .ok r) :
    r.IsFine ∧ |r.toRat - a.toRat * b.toRat| ≤ roundoff * Max.max 1 |a.toRat * b.toRat| := by
  have hone : roundoff ≤ roundoff * Max.max 1 |a.toRat * b.toRat| :=
    le_mul_of_one_le_right roundoff_pos.le (le_max_left _ _)
  rw [toRat_mul_toRat] at hone ⊢
  unfold mul at h
  dsimp only at h
  generalize a.coefficient * b.coefficient = c at h hone ⊢
  generalize a.scale + b.scale = s at h hone ⊢
  split at h
  · next hzero =>
    cases h
    rw [hzero]
    refine ⟨Nat.zero_le _, ?_⟩
    simp [toRat, roundoff_pos.le]
  · split at h
    · cases h
      refine ⟨show s - (s - maxScale) ≤ maxScale by omega, ?_⟩
      have hchunks := roundChunks_close (le_refl (s - maxScale)) c.natAbs
      generalize roundChunks (s - maxScale) c.natAbs (s - maxScale) = q at hchunks
      rw [toRat]
      push_cast
      rw [mul_div_assoc]
      refine (Decimal.sign_mul_sub_le c s _).trans (le_trans ?_ hone)
      have hsplit : (10 : ℚ) ^ s = 10 ^ (s - (s - maxScale)) * 10 ^ (s - maxScale) := by
        rw [← pow_add, Nat.sub_add_cancel (Nat.sub_le _ _)]
      have hpos : (0 : ℚ) < 10 ^ (s - (s - maxScale)) := by positivity
      rw [hsplit, mul_comm, ← div_div, ← sub_div, abs_div, abs_of_pos hpos]
      rcases Nat.eq_zero_or_pos (s - maxScale) with hnone | hsome
      · rw [hnone] at hchunks ⊢
        rw [pow_zero, div_one, div_one, sub_self] at hchunks
        rw [pow_zero, div_one, abs_nonpos_iff.1 hchunks, abs_zero, zero_div]
        exact roundoff_pos.le
      · have hnonneg : (0 : ℚ) ≤ 1 / 10 ^ (s - maxScale) := by positivity
        rw [show s - (s - maxScale) = 57 from by unfold maxScale at *; omega, roundoff,
          div_le_iff₀ (by positivity)]
        calc _ ≤ 1 - 1 / (10 : ℚ) ^ (s - maxScale) := hchunks
          _ ≤ 1 := by linarith
          _ ≤ 1 / 10 ^ 49 * 10 ^ 57 := by norm_num
    · obtain ⟨⟨d, t⟩, hshrink, h⟩ := Decimal.Fault.bind_eq_ok.1 h
      cases h
      refine ⟨shrink_scale_le (by decide) hshrink, ?_⟩
      rw [toRat, Decimal.abs_cast_div]
      push_cast
      rw [mul_div_assoc]
      refine (Decimal.sign_mul_sub_le _ _ _).trans
        ((shrink_shortens (by decide) hshrink).abs_sub_le ?_ ?_ ?_) <;>
        norm_num [roundoff, maxScale]

theorem exists_mul (h : |a.toRat * b.toRat| < 2 ^ 191) : ∃ r, a.mul b = .ok r := by
  rw [toRat_mul_toRat, Decimal.abs_cast_div] at h
  unfold mul
  dsimp only
  split
  · exact ⟨_, rfl⟩
  · split
    · exact ⟨_, rfl⟩
    · obtain ⟨d, s, hshrink⟩ : ∃ d s, shrink (a.coefficient * b.coefficient).natAbs
          (a.scale + b.scale) 192 maxScale = .ok (d, s) := exists_shrink (by decide) h
      exact ⟨_, by rw [hshrink]; rfl⟩

/-! ## Sums -/

/-- Small numbers are added without rounding. -/
theorem add_exact (ha : a.IsFine) (hb : b.IsFine) (ha3 : |a.toRat| ≤ 3) (hb3 : |b.toRat| ≤ 3) :
    ∃ r, a.add b = .ok r ∧ r.IsFine ∧ r.toRat = a.toRat + b.toRat := by
  unfold add
  split
  · next hzero =>
    exact ⟨b, rfl, hb, by rw [toRat_of_coefficient_eq_zero hzero, zero_add]⟩
  split
  · next hzero =>
    exact ⟨a, rfl, ha, by rw [toRat_of_coefficient_eq_zero hzero, add_zero]⟩
  dsimp only
  have hs : Nat.max a.scale b.scale ≤ 57 := Nat.max_le.2 ⟨ha, hb⟩
  have hsa : a.scale ≤ Nat.max a.scale b.scale := Nat.le_max_left _ _
  have hsb : b.scale ≤ Nat.max a.scale b.scale := Nat.le_max_right _ _
  generalize Nat.max a.scale b.scale = s at hs hsa hsb ⊢
  -- an operand brought to `s` decimals
  have haligned {w : Wide} (hws : w.scale ≤ s) (hw3 : |w.toRat| ≤ 3) :
      (((w.coefficient * powTen (s - w.scale) : ℤ)) : ℚ) = w.toRat * 10 ^ s ∧
        (w.coefficient * (powTen (s - w.scale) : ℤ)).natAbs ≤ 3 * 10 ^ 57 := by
    have hvalue : (((w.coefficient * powTen (s - w.scale) : ℤ)) : ℚ) = w.toRat * 10 ^ s := by
      rw [toRat, div_mul_eq_mul_div, eq_div_iff (by positivity), Int.cast_mul, Int.cast_natCast,
        powTen_cast, mul_assoc, ← pow_add, Nat.sub_add_cancel hws]
    refine ⟨hvalue, ?_⟩
    have hle : ((w.coefficient * (powTen (s - w.scale) : ℤ)).natAbs : ℚ) ≤ 3 * 10 ^ 57 := by
      rw [Nat.cast_natAbs, Int.cast_abs, hvalue, abs_mul, abs_of_pos (by positivity : (0 : ℚ) < 10 ^ s)]
      gcongr
      norm_num
    exact_mod_cast hle
  obtain ⟨hx, hxle⟩ := haligned hsa ha3
  obtain ⟨hy, hyle⟩ := haligned hsb hb3
  have hroom : 3 * 10 ^ 57 + 3 * 10 ^ 57 < bound := by norm_num [bound, powTwo]
  rw [if_neg (by omega), if_pos (by omega)]
  refine ⟨_, rfl, hs, ?_⟩
  rw [toRat]
  dsimp only
  rw [Int.cast_add, hx, hy, add_div, mul_div_cancel_right₀ _ (by positivity),
    mul_div_cancel_right₀ _ (by positivity)]

/-! ## Quotients by small numbers -/

/-- Digits are appended until nothing is left or there is no room for more. -/
theorem appendDigits_spec {d : ℕ} (hd : 0 < d) {rounds v r scale : ℕ} (hr : r < d)
    (hscale : scale ≤ maxScale) (hrounds : maxScale ≤ scale + rounds) :
    ∃ v' r' s, appendDigits d rounds v r scale = (v', r', s) ∧ r' < d ∧ s ≤ maxScale ∧
      ((v' : ℚ) + r' / d) / 10 ^ s = (v + r / d) / 10 ^ scale ∧
      (r' = 0 ∨ 49 ≤ s ∨ 2 ^ 188 ≤ v') := by
  induction rounds generalizing v r scale with
  | zero => exact ⟨v, r, scale, rfl, hr, hscale, rfl, .inr (.inl (le_trans (by decide) hrounds))⟩
  | succ rounds ih =>
    unfold appendDigits
    dsimp only
    have hmin : Nat.min 9 ((192 - bitLength v) * 77 / 256) ≤ 9 := Nat.min_le_left _ _
    have hroom : Nat.min 9 ((192 - bitLength v) * 77 / 256) = 0 → 189 ≤ bitLength v := by
      intro h
      rcases min_eq_iff.1 h with ⟨h, -⟩ | ⟨h, -⟩ <;> omega
    generalize Nat.min 9 ((192 - bitLength v) * 77 / 256) = k at hmin hroom
    split
    · next hstop =>
      refine ⟨v, r, scale, rfl, hr, hscale, rfl, ?_⟩
      rcases hstop with hnone | hfull | hmore
      · exact .inl hnone
      · have hlong := hroom hfull
        have hv0 : v ≠ 0 := by
          rintro rfl
          exact absurd hlong (by decide)
        exact .inr (.inr ((Nat.pow_le_pow_right (by decide) (by omega)).trans (bitLength_spec hv0).1))
      · exact .inr (.inl (by unfold maxScale at hmore; omega))
    · next hgo =>
      push Not at hgo
      obtain ⟨v', r', s, heq, hr', hs, hvalue, hend⟩ := ih (v := v * powTen k + r * powTen k / d)
        (Nat.mod_lt (r * powTen k) hd) hgo.2.2 (by omega)
      refine ⟨v', r', s, heq, hr', hs, hvalue.trans ?_, hend⟩
      have hdiv : (d : ℚ) * (r * powTen k / d : ℕ) + (r * powTen k % d : ℕ) = r * 10 ^ k := by
        rw [← powTen_cast]
        exact_mod_cast Nat.div_add_mod (r * powTen k) d
      have hd' : (d : ℚ) ≠ 0 := by exact_mod_cast hd.ne'
      generalize r * powTen k / d = q at hdiv
      generalize r * powTen k % d = t at hdiv
      push_cast [powTen_cast]
      rw [pow_add]
      field_simp
      linarith

/-- A last digit that is rounded up or left out is off by no more than one, and by nothing when
nothing is left. -/
theorem abs_up_sub_le {v r d up : ℕ} (hr : r < d)
    (hup : (if r > d / 2 ∨ (r = d / 2 ∧ r > 0 ∧ v % 2 = 1) then 1 else 0) = up) :
    |(up : ℚ) - r / d| ≤ 1 ∧ (r = 0 → (up : ℚ) - r / d = 0) := by
  have hshare : (0 : ℚ) ≤ r / d ∧ (r : ℚ) / d ≤ 1 :=
    ⟨by positivity, div_le_one_of_le₀ (by exact_mod_cast hr.le) (Nat.cast_nonneg d)⟩
  have hup01 : up = 0 ∨ up = 1 := by
    rw [← hup]
    split
    · exact .inr rfl
    · exact .inl rfl
  constructor
  · rw [abs_le]
    rcases hup01 with rfl | rfl <;> push_cast <;> constructor <;> linarith
  · rintro rfl
    rw [if_neg (by omega)] at hup
    rw [← hup]
    simp

/-- Digits that take the sign of the dividend are as close to a quotient as they are to its size. -/
theorem abs_sign_mul_sub_le {d : ℕ} {q : ℚ} (hq : |a.toRat / d| = q) (n s : ℕ) :
    |(⟨a.coefficient.sign * n, s⟩ : Wide).toRat - a.toRat / d| ≤ |(n : ℚ) / 10 ^ s - q| := by
  have hsign : |(a.coefficient.sign : ℚ)| ≤ 1 := by
    rcases Int.sign_trichotomy a.coefficient with h | h | h <;> rw [h] <;> norm_num
  have hquotient : a.toRat / d = a.coefficient.sign * q := by
    rw [← hq, abs_div, Nat.abs_cast, ← mul_div_assoc, abs_toRat, toRat, ← mul_div_assoc]
    congr 2
    rw [magnitude, Nat.cast_natAbs]
    exact_mod_cast (Int.sign_mul_abs a.coefficient).symm
  rw [hquotient, toRat]
  dsimp only
  rw [Int.cast_mul, Int.cast_natCast, mul_div_assoc, ← mul_sub, abs_mul]
  exact mul_le_of_le_one_left (abs_nonneg _) hsign

/-- An error of a unit is small where there are many decimals, and a small part of what is long. -/
theorem unit_error_le {v s : ℕ} {e part : ℚ} (he : e ≤ 1) (hpart : 0 ≤ part)
    (hend : 49 ≤ s ∨ 2 ^ 188 ≤ v) : e / 10 ^ s ≤ roundoff * Max.max 1 ((v + part) / 10 ^ s) := by
  rcases hend with hfine | hlong
  · calc e / 10 ^ s ≤ 1 / 10 ^ 49 := by
          have hpow : (10 : ℚ) ^ 49 ≤ 10 ^ s := pow_le_pow_right₀ (by norm_num) hfine
          gcongr
      _ ≤ roundoff * Max.max 1 ((v + part) / 10 ^ s) :=
          le_mul_of_one_le_right roundoff_pos.le (le_max_left _ _)
  · have hv : (2 : ℚ) ^ 188 ≤ v := by exact_mod_cast hlong
    have hunit : (1 : ℚ) ≤ roundoff * 2 ^ 188 := by norm_num [roundoff]
    calc e / 10 ^ s ≤ roundoff * ((v + part) / 10 ^ s) := by
          rw [← mul_div_assoc]
          gcongr
          refine (he.trans hunit).trans (mul_le_mul_of_nonneg_left ?_ roundoff_pos.le)
          linarith
      _ ≤ roundoff * Max.max 1 ((v + part) / 10 ^ s) :=
          mul_le_mul_of_nonneg_left (le_max_right _ _) roundoff_pos.le

theorem divSmall_close (ha : a.IsFine) {d : ℕ} (hd : 0 < d) :
    (a.divSmall d).IsFine ∧
      |(a.divSmall d).toRat - a.toRat / d| ≤ roundoff * Max.max 1 |a.toRat / d| := by
  have hmax := le_max_left 1 |a.toRat / d|
  unfold divSmall
  split
  · next htrivial =>
    have hexact : a.toRat / d = a.toRat := by
      rcases htrivial with hzero | rfl
      · rw [toRat_of_coefficient_eq_zero hzero, zero_div]
      · rw [Nat.cast_one, div_one]
    rw [hexact, sub_self, abs_zero]
    exact ⟨ha, mul_nonneg roundoff_pos.le (by positivity)⟩
  · have hd' : (d : ℚ) ≠ 0 := by exact_mod_cast hd.ne'
    have hdpos : (0 : ℚ) < d := by exact_mod_cast hd
    obtain ⟨v, r, s, heq, hr, hs, hvalue, hend⟩ := appendDigits_spec (v := a.magnitude / d) hd
      (Nat.mod_lt a.magnitude hd) ha (Nat.le_add_left _ _)
    have hdiv : ((a.magnitude / d : ℕ) : ℚ) + (a.magnitude % d : ℕ) / d = a.magnitude / d := by
      rw [eq_div_iff hd', add_mul, div_mul_cancel₀ _ hd']
      exact_mod_cast Nat.div_add_mod' a.magnitude d
    rw [hdiv] at hvalue
    rw [heq]
    refine ⟨hs, ?_⟩
    dsimp only
    generalize hup : (if r > d / 2 ∨ (r = d / 2 ∧ r > 0 ∧ v % 2 = 1) then 1 else 0) = up
    obtain ⟨hpart, hnone⟩ := abs_up_sub_le hr hup
    have hquotient : |a.toRat / d| = (v + r / d) / 10 ^ s := by
      rw [abs_div, abs_toRat, Nat.abs_cast, hvalue, div_div, div_div, mul_comm]
    have herror : |((v + up : ℕ) : ℚ) / 10 ^ s - (v + r / d) / 10 ^ s| =
        |(up : ℚ) - r / d| / 10 ^ s := by
      rw [← sub_div, abs_div, abs_of_pos (by positivity : (0 : ℚ) < 10 ^ s)]
      push_cast
      rw [add_sub_add_left_eq_sub]
    refine (abs_sign_mul_sub_le hquotient (v + up) s).trans ?_
    rw [herror, hquotient]
    rcases hend with rfl | hend
    · rw [hnone rfl, abs_zero, zero_div]
      exact mul_nonneg roundoff_pos.le (le_trans zero_le_one (le_max_left _ _))
    · exact unit_error_le hpart (by positivity) hend

/-! ## The end of a series -/

/-- What is too small to change a sum is less than one unit of the 28th decimal. -/
theorem abs_toRat_le_of_isNegligible {w : Wide} (h : w.isNegligible = true) :
    |w.toRat| ≤ Decimal.ulp := by
  rw [abs_toRat, Decimal.ulp]
  unfold isNegligible at h
  dsimp only at h
  rw [Bool.or_eq_true, beq_iff_eq, Bool.and_eq_true, decide_eq_true_eq, decide_eq_true_eq] at h
  have hsmall {n k : ℕ} (hv : w.magnitude ≤ n) (hs : k ≤ w.scale) (hnk : n * 10 ^ 28 ≤ 10 ^ k) :
      (w.magnitude : ℚ) / 10 ^ w.scale ≤ 1 / 10 ^ 28 := by
    rw [div_le_div_iff₀ (by positivity) (by positivity), one_mul]
    have hle : w.magnitude * 10 ^ 28 ≤ 10 ^ w.scale :=
      (Nat.mul_le_mul_right _ hv).trans (hnk.trans (Nat.pow_le_pow_right (by decide) hs))
    exact_mod_cast hle
  rcases h with hzero | ⟨hlt, hscale⟩
  · exact hsmall (n := 0) hzero.le (Nat.zero_le _) (by decide)
  · split at hscale
    · next hshort => exact hsmall hshort.le hscale (by norm_num [powTwo])
    · split at hscale
      · next hshort => exact hsmall hshort.le hscale (by norm_num [powTwo])
      · exact hsmall hlt.le hscale (by norm_num [Decimal.bound, powTwo, maxScale])

end

end Wide
end BondingCurve
