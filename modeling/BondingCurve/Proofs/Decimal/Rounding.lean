import BondingCurve.Proofs.Decimal.Value
import BondingCurve.Proofs.Outcome
import Mathlib.Data.Rat.Floor

/-!
# Rounding never crosses a whole number

A result that is too long for a coefficient loses decimals, rounded half to even. How many it
loses depends on its size, but a whole number stands on every grid of decimals: what is below a
whole number before rounding is not above it afterwards, and the other way round. Sums, products
and quotients inherit this, and with it every bound by an amount.
-/

namespace BondingCurve
namespace Decimal

/-- A sequence of arithmetic steps. -/
theorem Fault.bind_eq_ok {α β : Type} {r : Except Fault α} {f : α → Except Fault β} {b : β} :
    (r >>= f) = .ok b ↔ ∃ a, r = .ok a ∧ f a = .ok b := by
  cases r <;> simp [bind, Except.bind]

/-! ## Rounding a natural number -/

/-- `q` is one of the two whole numbers next to `y`, or `y` itself. -/
structure Near (y : ℚ) (q : ℕ) : Prop where
  floor_le : ⌊y⌋₊ ≤ q
  le_ceil : q ≤ ⌈y⌉₊

/-- What is near a number is no larger than any whole number above it. -/
theorem Near.le {y : ℚ} {q n : ℕ} (h : Near y q) (hn : y ≤ n) : q ≤ n :=
  h.le_ceil.trans (Nat.ceil_le.2 hn)

/-- What is near a number is no less than any whole number below it. -/
theorem Near.ge {y : ℚ} {q n : ℕ} (h : Near y q) (hn : (n : ℚ) ≤ y) : n ≤ q :=
  (Nat.le_floor hn).trans h.floor_le

/-- `q` is the whole number next to `y`, and the even one where two are equally near. -/
structure HalfEven (y : ℚ) (q : ℕ) : Prop where
  le : (q : ℚ) ≤ y + 1 / 2
  ge : y ≤ q + 1 / 2
  even : (q : ℚ) = y + 1 / 2 ∨ y = q + 1 / 2 → q % 2 = 0

/-- Rounding half to even stays near. -/
theorem HalfEven.near {y : ℚ} {q : ℕ} (h : HalfEven y q) (hy : 0 ≤ y) : Near y q := by
  constructor
  · have hlt : (⌊y⌋₊ : ℚ) < q + 1 := by
      have := Nat.floor_le hy
      linarith [h.ge]
    exact Nat.lt_succ_iff.1 (by exact_mod_cast hlt)
  · have hlt : (q : ℚ) < ⌈y⌉₊ + 1 := by
      have := Nat.le_ceil y
      linarith [h.le]
    exact Nat.lt_succ_iff.1 (by exact_mod_cast hlt)

/-- What is rounded to whole numbers in this way keeps its order. -/
theorem HalfEven.mono {y y' : ℚ} {q q' : ℕ} (h : HalfEven y q) (h' : HalfEven y' q')
    (hle : y ≤ y') : q ≤ q' := by
  by_contra hlt
  have hstep : ((q' + 1 : ℕ) : ℚ) ≤ q := by exact_mod_cast Nat.lt_of_not_le hlt
  push_cast at hstep
  have hq := h.le
  have hq' := h'.ge
  -- two even neighbours would both be half way from one number
  have heven := h.even (.inl (by linarith))
  have heven' := h'.even (.inr (by linarith))
  have hnext : (q : ℚ) = (q' + 1 : ℕ) := by push_cast; linarith
  have hnext' : q = q' + 1 := by exact_mod_cast hnext
  omega

/-- A whole part `n` and a rest below one, which decides between `n` and its successor. -/
theorem halfEven_of_rest {y f : ℚ} {n q : ℕ} (hy : y = n + f) (hf : 0 ≤ f) (hlt : f < 1)
    (hq : (q = n ∧ (2 * f < 1 ∨ 2 * f = 1 ∧ n % 2 = 0)) ∨
      (q = n + 1 ∧ (1 < 2 * f ∨ 2 * f = 1 ∧ n % 2 = 1))) : HalfEven y q := by
  rcases hq with ⟨rfl, hdown⟩ | ⟨rfl, hup⟩
  · rcases hdown with hless | ⟨hhalf, heven⟩
    · exact ⟨by linarith, by linarith, by rintro (h | h) <;> linarith⟩
    · exact ⟨by linarith, by linarith, fun _ => heven⟩
  · rcases hup with hmore | ⟨hhalf, hodd⟩
    · refine ⟨by push_cast; linarith, by push_cast; linarith, ?_⟩
      push_cast
      rintro (h | h) <;> linarith
    · exact ⟨by push_cast; linarith, by push_cast; linarith, fun _ => by omega⟩

/-- The rest of a division by `d` is decided by twice its remainder. -/
theorem halfEven_of_remainder {y : ℚ} {n q r d : ℕ} (hr : r < d) (hy : y = n + r / d)
    (hq : (q = n ∧ (2 * r < d ∨ 2 * r = d ∧ n % 2 = 0)) ∨
      (q = n + 1 ∧ (d < 2 * r ∨ 2 * r = d ∧ n % 2 = 1))) : HalfEven y q := by
  have hd : (0 : ℚ) < d := by exact_mod_cast (Nat.zero_le r).trans_lt hr
  have hlt : (r : ℚ) / d < 1 := (div_lt_one hd).2 (by exact_mod_cast hr)
  have hless : 2 * ((r : ℚ) / d) < 1 ↔ 2 * r < d := by
    rw [← mul_div_assoc, div_lt_one hd]
    exact_mod_cast Iff.rfl
  have hmore : 1 < 2 * ((r : ℚ) / d) ↔ d < 2 * r := by
    rw [← mul_div_assoc, one_lt_div hd]
    exact_mod_cast Iff.rfl
  have hhalf : 2 * ((r : ℚ) / d) = 1 ↔ 2 * r = d := by
    rw [← mul_div_assoc, div_eq_one_iff_eq hd.ne']
    exact_mod_cast Iff.rfl
  refine halfEven_of_rest hy (by positivity) hlt ?_
  rwa [hless, hmore, hhalf]

/-- The rounded quotient is rounded half to even, also on a tie. -/
theorem divHalfEven_halfEven {v d : ℕ} (hd : 0 < d) :
    HalfEven ((v : ℚ) / d) (divHalfEven v d) := by
  have hdiv : ((v / d : ℕ) : ℚ) * d + (v % d : ℕ) = v := by exact_mod_cast Nat.div_add_mod' v d
  have hd' : (d : ℚ) ≠ 0 := by exact_mod_cast hd.ne'
  refine halfEven_of_remainder (n := v / d) (Nat.mod_lt v hd) ?_ ?_
  · rw [← hdiv]
    field_simp
  · unfold divHalfEven
    dsimp only
    split <;> omega

/-- So it is near the quotient. -/
theorem divHalfEven_near {v d : ℕ} (hd : 0 < d) : Near ((v : ℚ) / d) (divHalfEven v d) :=
  (divHalfEven_halfEven hd).near (by positivity)

/-- What is at most `n` times the divisor is not rounded above `n`. -/
theorem divHalfEven_le {v n d : ℕ} (hd : 0 < d) (h : v ≤ n * d) : divHalfEven v d ≤ n := by
  apply (divHalfEven_near hd).le
  rw [div_le_iff₀ (by exact_mod_cast hd)]
  exact_mod_cast h

/-- What `fit` chooses: the least number of dropped decimals that gets under the bound. -/
theorem fit_eq_ok {v scale least q s : ℕ} (h : fit v scale least = .ok (q, s)) :
    ∃ k ≤ scale, least ≤ k ∧ v / powTen k < bound ∧ (least < k → bound ≤ v / powTen (k - 1)) ∧
      ((divHalfEven v (powTen k) < bound ∧ q = divHalfEven v (powTen k) ∧ s = scale - k) ∨
        (bound ≤ divHalfEven v (powTen k) ∧ k < scale ∧ q = bound / 10 + 1 ∧
          s = scale - k - 1)) := by
  unfold fit at h
  split at h
  · cases h
  · next k hk =>
    rw [List.find?_range'_eq_some] at hk
    obtain ⟨hlt, hmem, hfirst⟩ := hk
    obtain ⟨i, hi, rfl⟩ := List.mem_range'.1 hmem
    rw [Nat.one_mul] at *
    refine ⟨least + i, by omega, Nat.le_add_right _ _, by simpa using hlt, ?_, ?_⟩
    · intro hpos
      have hprev := hfirst (least + i - 1) (by omega) (by omega)
      simpa using hprev
    · dsimp only at h
      split at h
      · next hbound =>
        cases h
        exact .inl ⟨hbound, rfl, rfl⟩
      · next hbound =>
        split at h
        · cases h
        · next hne =>
          cases h
          exact .inr ⟨Nat.le_of_not_lt hbound, by omega, rfl, rfl⟩

/-- Dropping `k` of `scale` decimals leaves the rest. -/
theorem powTen_split {k scale : ℕ} (h : k ≤ scale) :
    powTen scale = powTen (scale - k) * powTen k := by
  rw [← powTen_add, Nat.sub_add_cancel h]

/-- Fitting a value into a decimal does not take it over a whole number. -/
theorem fit_le {v scale least q s n : ℕ} (h : fit v scale least = .ok (q, s))
    (hv : v ≤ n * powTen scale) : q ≤ n * powTen s := by
  obtain ⟨k, hk, -, -, -, hcase⟩ := fit_eq_ok h
  have hround : divHalfEven v (powTen k) ≤ n * powTen (scale - k) := by
    apply divHalfEven_le (powTen_pos k)
    rwa [Nat.mul_assoc, ← powTen_split hk]
  rcases hcase with ⟨-, rfl, rfl⟩ | ⟨hbound, hlt, rfl, rfl⟩
  · exact hround
  · -- a multiple of ten that reaches the bound is at least the next multiple of ten
    have hten : powTen (scale - k) = powTen (scale - k - 1) * 10 := powTen_split (by omega)
    rw [hten, ← Nat.mul_assoc] at hround
    have : bound = 79228162514264337593543950336 := by decide
    omega

/-- `fit` for a signed coefficient keeps the sign. -/
theorem fitSigned_eq_ok {v : ℤ} {scale least : ℕ} {r : Decimal}
    (h : fitSigned v scale least = .ok r) :
    ∃ q s, fit v.natAbs scale least = .ok (q, s) ∧ r.coefficient = v.sign * q ∧ r.scale = s ∧
      r.negativeZero = false := by
  unfold fitSigned at h
  rcases hfit : fit v.natAbs scale least with e | ⟨q, s⟩
  · rw [hfit] at h
    cases h
  · rw [hfit] at h
    cases h
    exact ⟨q, s, rfl, rfl, rfl, rfl⟩

/-- Fitting keeps the sign. -/
theorem fitSigned_nonneg {v : ℤ} {scale least : ℕ} {r : Decimal}
    (h : fitSigned v scale least = .ok r) (hv : 0 ≤ v) : 0 ≤ r.coefficient := by
  obtain ⟨q, s, -, hr, -⟩ := fitSigned_eq_ok h
  rw [hr]
  exact Int.mul_nonneg (Int.sign_nonneg_iff.2 hv) (Int.natCast_nonneg q)

/-- Fitting a signed value does not take it over a whole number either. -/
theorem fitSigned_le {v : ℤ} {scale least n : ℕ} {r : Decimal}
    (h : fitSigned v scale least = .ok r) (hv : v ≤ n * powTen scale) : r.toRat ≤ n := by
  obtain ⟨q, s, hfit, hr, rfl, -⟩ := fitSigned_eq_ok h
  rw [toRat, div_le_iff₀ (powTen_cast_pos _), hr]
  have hbound : v.sign * q ≤ n * powTen r.scale := by
    rcases Int.le_total v 0 with hneg | hpos
    · have hsign : v.sign ≤ 0 := Int.sign_nonpos_iff.2 hneg
      have hq : (0 : ℤ) ≤ q := Int.natCast_nonneg q
      have hn : (0 : ℤ) ≤ n * powTen r.scale := by positivity
      exact le_trans (mul_nonpos_of_nonpos_of_nonneg hsign hq) hn
    · have hq : q ≤ n * powTen r.scale := fit_le hfit (by zify; rwa [abs_of_nonneg hpos])
      have hsign : v.sign ≤ 1 := by rcases Int.sign_trichotomy v with h | h | h <;> omega
      have hmul : v.sign * q ≤ 1 * q := Int.mul_le_mul_of_nonneg_right hsign (Int.natCast_nonneg q)
      have hq' : (q : ℤ) ≤ n * powTen r.scale := by exact_mod_cast hq
      omega
  exact_mod_cast hbound

/-! ## Sums and products -/

/-- The exact value of a sum before it is rounded, on the finer of the two grids. -/
theorem toRat_add_aligned (a b : Decimal) :
    ((a.coefficient * powTen (Nat.max a.scale b.scale - a.scale) +
        b.coefficient * powTen (Nat.max a.scale b.scale - b.scale) : ℤ) : ℚ) =
      (a.toRat + b.toRat) * powTen (Nat.max a.scale b.scale) := by
  have ha : (powTen (Nat.max a.scale b.scale) : ℚ) =
      powTen a.scale * powTen (Nat.max a.scale b.scale - a.scale) := by
    exact_mod_cast powTen_split (Nat.le_max_left a.scale b.scale) |>.trans (Nat.mul_comm ..)
  have hb : (powTen (Nat.max a.scale b.scale) : ℚ) =
      powTen b.scale * powTen (Nat.max a.scale b.scale - b.scale) := by
    exact_mod_cast powTen_split (Nat.le_max_right a.scale b.scale) |>.trans (Nat.mul_comm ..)
  have hpa := (powTen_cast_pos a.scale).ne'
  have hpb := (powTen_cast_pos b.scale).ne'
  calc ((a.coefficient * powTen (Nat.max a.scale b.scale - a.scale) +
          b.coefficient * powTen (Nat.max a.scale b.scale - b.scale) : ℤ) : ℚ)
      = a.toRat * (powTen a.scale * powTen (Nat.max a.scale b.scale - a.scale)) +
          b.toRat * (powTen b.scale * powTen (Nat.max a.scale b.scale - b.scale)) := by
        rw [toRat, toRat]
        push_cast
        field_simp
    _ = (a.toRat + b.toRat) * powTen (Nat.max a.scale b.scale) := by
        rw [← ha, ← hb, add_mul]

/-- A sum that is not negative is not rounded below zero. -/
theorem add_nonneg_of_value {a b r : Decimal} (h : a.add b = .ok r)
    (hab : 0 ≤ a.toRat + b.toRat) : 0 ≤ r.toRat := by
  unfold add at h
  split at h
  · next ha =>
    cases h
    rwa [toRat_of_coefficient_eq_zero ha, zero_add] at hab
  · split at h
    · next hb =>
      cases h
      rwa [toRat_of_coefficient_eq_zero hb, add_zero] at hab
    · rw [toRat_nonneg_iff]
      apply fitSigned_nonneg h
      have hsum := toRat_add_aligned a b
      have hnonneg := mul_nonneg hab (powTen_cast_pos (Nat.max a.scale b.scale)).le
      rw [← hsum] at hnonneg
      exact_mod_cast hnonneg

/-- A sum is not rounded over a whole number. -/
theorem add_le {a b r : Decimal} {n : ℕ} (h : a.add b = .ok r)
    (hab : a.toRat + b.toRat ≤ n) : r.toRat ≤ n := by
  unfold add at h
  split at h
  · next ha =>
    cases h
    rwa [toRat_of_coefficient_eq_zero ha, zero_add] at hab
  · split at h
    · next hb =>
      cases h
      rwa [toRat_of_coefficient_eq_zero hb, add_zero] at hab
    · apply fitSigned_le h
      have hsum := toRat_add_aligned a b
      have hle := mul_le_mul_of_nonneg_right hab (powTen_cast_pos (Nat.max a.scale b.scale)).le
      rw [← hsum] at hle
      exact_mod_cast hle

/-- The difference to a smaller number is not negative. -/
theorem sub_nonneg_of_le {a b r : Decimal} (h : a.sub b = .ok r) (hab : b.toRat ≤ a.toRat) :
    0 ≤ r.toRat := by
  apply add_nonneg_of_value h
  rw [toRat_neg]
  linarith

/-- A difference is not rounded over a whole number above what it is taken from. -/
theorem sub_le {a b r : Decimal} {n : ℕ} (h : a.sub b = .ok r) (hb : 0 ≤ b.toRat)
    (ha : a.toRat ≤ n) : r.toRat ≤ n := by
  apply add_le h
  rw [toRat_neg]
  linarith

/-- A product of numbers that are not negative is not negative. -/
theorem mul_nonneg_of_nonneg {a b r : Decimal} (h : a.mul b = .ok r) (ha : 0 ≤ a.toRat)
    (hb : 0 ≤ b.toRat) : 0 ≤ r.toRat := by
  rw [toRat_nonneg_iff] at *
  unfold mul at h
  split at h
  · cases h
    exact le_refl 0
  · dsimp only at h
    split at h
    · cases h
      exact le_refl 0
    · exact fitSigned_nonneg h (Int.mul_nonneg ha hb)

/-- A product is not rounded over a whole number, so a share of a whole stays a share. -/
theorem mul_le {a b r : Decimal} {n : ℕ} (h : a.mul b = .ok r) (hab : a.toRat * b.toRat ≤ n) :
    r.toRat ≤ n := by
  have hn : (0 : ℚ) ≤ n := Nat.cast_nonneg n
  unfold mul at h
  split at h
  · cases h
    rwa [toRat_zero]
  · dsimp only at h
    split at h
    · cases h
      rwa [toRat_zero]
    · apply fitSigned_le h
      have hvalue : ((a.coefficient * b.coefficient : ℤ) : ℚ) =
          a.toRat * b.toRat * powTen (a.scale + b.scale) := by
        have hpa := (powTen_cast_pos a.scale).ne'
        have hpb := (powTen_cast_pos b.scale).ne'
        rw [toRat, toRat, powTen_add]
        push_cast
        field_simp
      have hle := mul_le_mul_of_nonneg_right hab (powTen_cast_pos (a.scale + b.scale)).le
      rw [← hvalue] at hle
      exact_mod_cast hle

/-! ## Quotients -/

/-- A quotient of numbers that are not negative is not negative. -/
theorem div_nonneg_of_nonneg {a b r : Decimal} (h : a.div b = .ok r) (ha : 0 ≤ a.toRat)
    (hb : 0 ≤ b.toRat) : 0 ≤ r.toRat := by
  rw [toRat_nonneg_iff] at *
  unfold div at h
  split at h
  · cases h
  · split at h
    · cases h
      exact le_refl 0
    · dsimp only at h
      rcases hq : longDivision b.magnitude ((maxScale - ((a.scale : ℤ) - b.scale)).toNat + 1)
          ⟨a.magnitude / b.magnitude, (a.scale : ℤ) - b.scale, false⟩
          (a.magnitude % b.magnitude) with e | q
      · rw [hq] at h
        cases h
      · rw [hq] at h
        cases h
        have hsign := Int.mul_nonneg (Int.sign_nonneg_iff.2 ha) (Int.sign_nonneg_iff.2 hb)
        exact Int.mul_nonneg hsign (Int.natCast_nonneg _)

end Decimal
end BondingCurve
