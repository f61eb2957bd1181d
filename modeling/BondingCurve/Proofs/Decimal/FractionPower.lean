import BondingCurve.Proofs.Decimal.PowerAccuracy
import BondingCurve.Proofs.Decimal.Shortening

/-!
# Whole powers keep order

The powers of two bases that are apart (`Apart`) are in the same order, digit for digit. For bases
above one that follows from how close a power is. A power of a fraction can be far smaller than its
rounding, so there it is followed through: in narrow arithmetic each product keeps the order of its
factors, in wide arithmetic the two powers have the same decimals when they are narrowed
(`wide_power_mono`), and then shortening keeps their order too.
-/

namespace BondingCurve

/-- The share by which numbers are apart that differ by one unit in 64 bits, less their rounding. -/
def separation : ℚ := 54 / 10 ^ 21

/-- `y` is above `x` by more than roundings can make up for. -/
def Apart (x y : ℚ) : Prop := x * (1 + separation) ≤ y

theorem Apart.lt {x y : ℚ} (h : Apart x y) (hx : 0 < x) : x < y := by
  refine lt_of_lt_of_le ?_ h
  rw [separation]
  linarith

theorem Apart.le {x y : ℚ} (h : Apart x y) (hx : 0 ≤ x) : x ≤ y := by
  refine le_trans ?_ h
  rw [separation]
  linarith

theorem Apart.trans_le {x y z : ℚ} (h : Apart x y) (hle : y ≤ z) : Apart x z :=
  le_trans h hle

/-- The distance grows with the exponent. -/
theorem Apart.pow {x y : ℚ} (h : Apart x y) (hx : 0 ≤ x) (n : ℕ) :
    x ^ n * (1 + n * separation) ≤ y ^ n := by
  have hsep : (0 : ℚ) ≤ separation := by norm_num [separation]
  calc x ^ n * (1 + n * separation) ≤ x ^ n * (1 + separation) ^ n :=
        mul_le_mul_of_nonneg_left (one_add_mul_le_pow (by linarith) n) (by positivity)
    _ = (x * (1 + separation)) ^ n := (mul_pow _ _ _).symm
    _ ≤ y ^ n := pow_le_pow_left₀ (by positivity) h n

/-- Approximate powers of a number and of one that is apart are in order, unless they are tiny. -/
theorem Apart.le_of_pow_close {x x' p p' : ℚ} {n : ℕ} (h : Apart x x') (h0 : 0 < x) (hn : n < 2 ^ 32)
    (hlong : 57 ≤ n) (hp : |p - x ^ n| ≤ 4 * n / 10 ^ 57) (hp' : |p' - x' ^ n| ≤ 4 * n / 10 ^ 57)
    (hlarge : 1 / 10 ^ 30 ≤ p) : p ≤ p' := by
  have hn0 : (57 : ℚ) ≤ n := by exact_mod_cast hlong
  have hn' : (n : ℚ) ≤ 4294967296 := by exact_mod_cast hn.le
  have hgap := h.pow h0.le n
  have hpower : 1 / 10 ^ 31 ≤ x ^ n := by linarith [(abs_le.1 hp).2]
  rw [separation] at hgap
  have hstep : 1 / 10 ^ 31 * (n * (54 / 10 ^ 21)) ≤ x ^ n * (n * (54 / 10 ^ 21)) :=
    mul_le_mul_of_nonneg_right hpower (by linarith)
  linarith [(abs_le.1 hp).2, (abs_le.1 hp').1]

namespace Wide

open Decimal (powTen powTwo powTen_cast powTen_pos powTen_add)

/-! ## Fractions -/

/-- Between zero and one, with no more decimals than a rounded value keeps. -/
structure IsFraction (w : Wide) : Prop where
  nonneg : w.IsNonneg
  le_one : w.magnitude ≤ powTen w.scale
  fine : w.IsFine

section

variable {a b r w : Wide}

theorem IsFraction.coefficient_eq (h : w.IsFraction) : w.coefficient = w.magnitude :=
  (Int.natAbs_of_nonneg h.nonneg).symm

theorem IsFraction.toRat_eq (h : w.IsFraction) : w.toRat = w.magnitude / 10 ^ w.scale := by
  rw [toRat, h.coefficient_eq, Int.cast_natCast]

/-- A fraction keeps 28 decimals when it is narrowed. -/
theorem IsFraction.narrow_eq (h : w.IsFraction) :
    w.narrow = .ok { coefficient := chopped w.magnitude (w.scale - Decimal.maxScale),
                     scale := w.scale - (w.scale - Decimal.maxScale) } := by
  have hle := h.le_one
  have hpos := powTen_pos w.scale
  exact Wide.narrow_eq h.nonneg (by omega)

theorem isFraction_one : one.IsFraction := ⟨isNonneg_one, by decide, by decide⟩

theorem isFraction_ofDecimal {d : Decimal} (hd : d.Valid) (h0 : 0 ≤ d.toRat) (h1 : d.toRat ≤ 1) :
    (ofDecimal d).IsFraction := by
  have hnonneg : 0 ≤ d.coefficient := Decimal.toRat_nonneg_iff.1 h0
  refine ⟨hnonneg, ?_, isFine_ofDecimal hd⟩
  rw [Decimal.toRat, div_le_one (Decimal.powTen_cast_pos _)] at h1
  have hle : d.coefficient ≤ powTen d.scale := by exact_mod_cast h1
  show d.coefficient.natAbs ≤ powTen d.scale
  omega

/-- The digits of a product of fractions, before the decimals that are too many are cut off. -/
theorem exists_product_digits (ha : a.IsFraction) (hb : b.IsFraction)
    (hne : a.magnitude * b.magnitude ≠ 0) (h : a.mul b = .ok r) :
    ∃ q : ℕ, r = ⟨q, a.scale + b.scale - (a.scale + b.scale - maxScale)⟩ ∧
      |(q : ℚ) - (a.magnitude * b.magnitude : ℕ) / 10 ^ (a.scale + b.scale - maxScale)| < 1 := by
  have hproduct : a.coefficient * b.coefficient = (a.magnitude * b.magnitude : ℕ) := by
    rw [ha.coefficient_eq, hb.coefficient_eq, Nat.cast_mul]
  have hle : a.magnitude * b.magnitude ≤ powTen (a.scale + b.scale) := by
    rw [powTen_add]
    exact Nat.mul_le_mul ha.le_one hb.le_one
  have hpos := powTen_pos (a.scale + b.scale)
  unfold mul at h
  dsimp only at h
  rw [hproduct, if_neg (by exact_mod_cast hne), Int.natAbs_natCast,
    Int.sign_eq_one_of_pos (by exact_mod_cast Nat.pos_of_ne_zero hne)] at h
  generalize a.magnitude * b.magnitude = c at h hle ⊢
  generalize a.scale + b.scale = s at h hle hpos ⊢
  split at h
  · cases h
    refine ⟨roundChunks (s - maxScale) c (s - maxScale), by rw [one_mul], ?_⟩
    refine (roundChunks_close le_rfl c).trans_lt ?_
    have hunit : (0 : ℚ) < 1 / 10 ^ (s - maxScale) := by positivity
    linarith
  · rw [shrink_eq (by decide) (by norm_num [powTen, maxScale]) (by decide) (by omega)] at h
    cases h
    exact ⟨chopped c (s - maxScale), by rw [one_mul], abs_chopped_sub_lt c _⟩

/-- Digits that are close to those of a number under one are the digits of a fraction. -/
theorem isFraction_of_close {q c s t : ℕ} (hle : c ≤ powTen (s + t)) (hs : s ≤ maxScale)
    (hq : |(q : ℚ) - c / 10 ^ t| < 1) : IsFraction ⟨q, s⟩ := by
  refine ⟨Int.natCast_nonneg q, ?_, hs⟩
  -- one unit less than one more than a power of ten
  have hc : (c : ℚ) / 10 ^ t ≤ powTen s := by
    rw [div_le_iff₀ (by positivity), powTen_cast, ← pow_add, ← powTen_cast]
    exact_mod_cast hle
  have hlt : (q : ℚ) < powTen s + 1 := by linarith [(abs_lt.1 hq).2]
  have hlt' : q < powTen s + 1 := by exact_mod_cast hlt
  exact Nat.le_of_lt_succ hlt'

/-- And no more than a unit of the 57th decimal from it, or the same where nothing was cut off. -/
theorem abs_digits_sub_le {q c s : ℕ} (hq : |(q : ℚ) - c / 10 ^ (s - maxScale)| < 1) :
    |(q : ℚ) / 10 ^ (s - (s - maxScale)) - c / 10 ^ s| ≤ 1 / 10 ^ 57 := by
  have hvalue : (c : ℚ) / 10 ^ s = c / 10 ^ (s - maxScale) / 10 ^ (s - (s - maxScale)) := by
    rw [div_div, ← pow_add, Nat.add_sub_cancel' (Nat.sub_le s maxScale)]
  rw [hvalue, ← sub_div, abs_div, abs_of_pos (by positivity : (0 : ℚ) < 10 ^ _)]
  rcases Nat.eq_zero_or_pos (s - maxScale) with hnone | hsome
  · -- whole digits less than one apart
    rw [hnone, pow_zero, div_one] at hq
    have hint : |(q : ℤ) - c| < 1 := by exact_mod_cast hq
    have heq : q = c := by
      rw [abs_lt] at hint
      omega
    rw [hnone, pow_zero, div_one, heq, sub_self, abs_zero, zero_div]
    positivity
  · rw [show s - (s - maxScale) = 57 from by unfold maxScale at *; omega]
    gcongr

/-- A product of fractions is a fraction, off by less than one unit of the 57th decimal, and
keeps all decimals that it has room for unless it vanishes. -/
theorem mul_isFraction (ha : a.IsFraction) (hb : b.IsFraction) (h : a.mul b = .ok r) :
    r.IsFraction ∧ |r.toRat - a.toRat * b.toRat| ≤ 1 / 10 ^ 57 ∧
      (r.magnitude = 0 ∨ a.magnitude ≠ 0 ∧ b.magnitude ≠ 0 ∧
        r.scale = Nat.min maxScale (a.scale + b.scale)) := by
  by_cases hzero : a.magnitude * b.magnitude = 0
  · have hcoefficient : a.coefficient * b.coefficient = 0 := by
      rw [ha.coefficient_eq, hb.coefficient_eq]
      exact_mod_cast hzero
    unfold mul at h
    dsimp only at h
    rw [if_pos hcoefficient] at h
    cases h
    refine ⟨⟨le_rfl, by decide, by decide⟩, ?_, .inl rfl⟩
    rw [toRat_mul_toRat, hcoefficient]
    simp [toRat]
  obtain ⟨q, rfl, hq⟩ := exists_product_digits ha hb hzero h
  have hle : a.magnitude * b.magnitude ≤ powTen (a.scale + b.scale) := by
    rw [powTen_add]
    exact Nat.mul_le_mul ha.le_one hb.le_one
  have hexact : a.toRat * b.toRat =
      (a.magnitude * b.magnitude : ℕ) / 10 ^ (a.scale + b.scale) := by
    rw [ha.toRat_eq, hb.toRat_eq, div_mul_div_comm, pow_add, Nat.cast_mul]
  have hfactors := Nat.mul_ne_zero_iff.1 hzero
  rw [hexact]
  generalize a.magnitude * b.magnitude = c at hq hle ⊢
  generalize a.scale + b.scale = s at hq hle ⊢
  refine ⟨isFraction_of_close ?_ (by omega) hq, ?_, .inr ⟨hfactors.1, hfactors.2, ?_⟩⟩
  · rwa [Nat.sub_add_cancel (Nat.sub_le s maxScale)]
  · rw [toRat, Int.cast_natCast]
    exact abs_digits_sub_le hq
  · show s - (s - maxScale) = Min.min maxScale s
    omega

/-- Products of fractions, for repeated squaring. -/
theorem closeMul_fraction : Decimal.CloseMul mul toRat IsFraction (1 / 10 ^ 57) 1 where
  close hx hy h := by
    obtain ⟨hfraction, hclose, -⟩ := mul_isFraction hx hy h
    exact ⟨hfraction, hclose.trans (le_mul_of_one_le_right (by norm_num) (le_max_left _ _))⟩
  exists_of_le _ _ h := exists_mul (h.trans_lt (by norm_num))

end

end Wide

namespace Decimal

/-! ## Repeated squaring, counted and compared -/

section Squaring

variable {α : Type} {mul : α → α → Except Fault α} {n : ℕ} {one base base' r r' : α}

section Tracks

variable {Q : ℕ → α → Prop}
  (hmul : ∀ {m n : ℕ} {x y z : α}, Q m x → Q n y → mul x y = .ok z → Q (m + n) z)
include hmul

/-- What products hand on with the sum of their exponents, a power has for its exponent. -/
theorem squareUp_tracks (n : ℕ) {m p : ℕ} {product power : α} (hproduct : Q m product)
    (hpower : Q p power) (h : squareUp mul (bits n) product power = .ok r) :
    Q (m + 2 * p * n) r := by
  induction n using Nat.strong_induction_on generalizing m p product power with
  | _ n ih =>
    rcases Nat.eq_zero_or_pos n with rfl | hpos
    · rw [bits_zero, squareUp] at h
      cases h
      exact hproduct
    · rw [bits_eq hpos.ne', squareUp, Fault.bind_eq_ok] at h
      obtain ⟨square, hsquare, h⟩ := h
      have hsq := hmul hpower hpower hsquare
      have hlt : n / 2 < n := Nat.div_lt_self hpos (by decide)
      rcases Nat.mod_two_eq_zero_or_one n with heven | hodd
      · rw [if_neg (by simp [heven])] at h
        have hrest := ih _ hlt hproduct hsq h
        rwa [show m + 2 * (p + p) * (n / 2) = m + 2 * p * n by
          obtain ⟨k, rfl⟩ : ∃ k, n = 2 * k := ⟨n / 2, by omega⟩
          rw [Nat.mul_div_cancel_left _ (by decide)]
          ring] at hrest
      · rw [if_pos (by simp [hodd])] at h
        obtain ⟨next, hnext, h⟩ := Fault.bind_eq_ok.1 h
        have hrest := ih _ hlt (hmul hproduct hsq hnext) hsq h
        rwa [show m + (p + p) + 2 * (p + p) * (n / 2) = m + 2 * p * n by
          obtain ⟨k, rfl⟩ : ∃ k, n = 2 * k + 1 := ⟨n / 2, by omega⟩
          rw [show (2 * k + 1) / 2 = k by omega]
          ring] at hrest

theorem powBits_tracks (hone : Q 0 one) (hbase : Q 1 base) (h : powBits mul one base n = .ok r) :
    Q n r := by
  rcases Nat.eq_zero_or_pos n with rfl | hpos
  · cases h
    exact hone
  · unfold powBits at h
    rw [bits_eq hpos.ne'] at h
    rcases Nat.mod_two_eq_zero_or_one n with heven | hodd
    · simp only [heven, Nat.zero_ne_one, decide_false, Bool.false_eq_true, if_false] at h
      have hrest := squareUp_tracks hmul (n / 2) hone hbase h
      rwa [show 0 + 2 * 1 * (n / 2) = n by omega] at hrest
    · simp only [hodd, decide_true, if_true] at h
      obtain ⟨next, hnext, h⟩ := Fault.bind_eq_ok.1 h
      have hrest := squareUp_tracks hmul (n / 2) (hmul hone hbase hnext) hbase h
      rwa [show 0 + 1 + 2 * 1 * (n / 2) = n by omega] at hrest

end Tracks

section Related

variable {R : α → α → Prop}
  (hmul : ∀ {x x' y y' z z' : α}, R x x' → R y y' → mul x y = .ok z → mul x' y' = .ok z' → R z z')
include hmul

/-- A relation that products keep, two runs of repeated squaring keep. -/
theorem squareUp_related (bs : List Bool) {product product' power power' : α}
    (hproduct : R product product') (hpower : R power power')
    (h : squareUp mul bs product power = .ok r) (h' : squareUp mul bs product' power' = .ok r') :
    R r r' := by
  induction bs generalizing product product' power power' with
  | nil =>
    cases h
    cases h'
    exact hproduct
  | cons b bs ih =>
    rw [squareUp, Fault.bind_eq_ok] at h h'
    obtain ⟨square, hsquare, h⟩ := h
    obtain ⟨square', hsquare', h'⟩ := h'
    have hsq := hmul hpower hpower hsquare hsquare'
    cases b with
    | false => exact ih hproduct hsq h h'
    | true =>
      obtain ⟨next, hnext, h⟩ := Fault.bind_eq_ok.1 h
      obtain ⟨next', hnext', h'⟩ := Fault.bind_eq_ok.1 h'
      exact ih (hmul hproduct hsq hnext hnext') hsq h h'

theorem powBits_related (hone : R one one) (hbase : R base base')
    (h : powBits mul one base n = .ok r) (h' : powBits mul one base' n = .ok r') : R r r' := by
  unfold powBits at h h'
  rcases hbits : bits n with _ | ⟨b, bs⟩ <;> rw [hbits] at h h'
  · cases h
    cases h'
    exact hone
  · cases b with
    | false => exact squareUp_related hmul bs hone hbase h h'
    | true =>
      obtain ⟨product, hproduct, h⟩ := Fault.bind_eq_ok.1 h
      obtain ⟨product', hproduct', h'⟩ := Fault.bind_eq_ok.1 h'
      exact squareUp_related hmul bs (hmul hone hbase hproduct hproduct') hbase h h'

end Related

end Squaring

/-! ## Fractions -/

section Fractions

variable {b b' r r' : Decimal} {n : ℕ} {w w' : Wide}

theorem scale_pos_of_lt_one (h0 : 0 < b.toRat) (h1 : b.toRat < 1) : 0 < b.scale := by
  rw [Nat.pos_iff_ne_zero]
  intro hscale
  rw [toRat, hscale, powTen_zero, Nat.cast_one, div_one] at h0 h1
  have h0' : 0 < b.coefficient := by exact_mod_cast h0
  have h1' : b.coefficient < 1 := by exact_mod_cast h1
  omega

theorem min_min_add_min (k m n : ℕ) : Nat.min k (Nat.min k m + Nat.min k n) = Nat.min k (m + n) := by
  show Min.min k (Min.min k m + Min.min k n) = Min.min k (m + n)
  omega

/-- A wide power of a fraction is off by a few units of the 57th decimal, and it has all of those
decimals when the exponent is large. -/
theorem wide_power_fraction (hb : b.Valid) (h0 : 0 < b.toRat) (h1 : b.toRat < 1) (hn : n < 2 ^ 32)
    (hlong : 57 ≤ n) (h : powBits Wide.mul Wide.one (Wide.ofDecimal b) n = .ok w) :
    w.IsFraction ∧ |w.toRat - b.toRat ^ n| ≤ 4 * n / 10 ^ 57 ∧
      (w.magnitude = 0 ∨ w.scale = Wide.maxScale) := by
  have hbase := Wide.isFraction_ofDecimal hb h0.le h1.le
  have hb1 : |(Wide.ofDecimal b).toRat| ≤ 1 := by
    rw [Wide.toRat_ofDecimal, abs_of_pos h0]
    exact h1.le
  obtain ⟨hfraction, hfollows⟩ := powBits_follows Wide.closeMul_fraction (by norm_num) le_rfl hb1
    Wide.isFraction_one Wide.toRat_one hbase h
  refine ⟨hfraction, ?_, ?_⟩
  · have hn' : (n : ℚ) ≤ 4294967296 := by exact_mod_cast hn.le
    have hsmall := one_add_pow_le (ε := 1 / 10 ^ 57) (k := 2 * n) (by norm_num) (by
      push_cast
      linarith)
    rw [Follows, Wide.toRat_ofDecimal, one_pow, mul_one] at hfollows
    push_cast at hsmall
    linarith
  · -- the decimals of the factors add up until there are 57
    have htracks := powBits_tracks
      (Q := fun m w => w.IsFraction ∧
        (w.magnitude = 0 ∨ w.scale = Nat.min Wide.maxScale (m * b.scale)))
      (fun {m m' x y z} hx hy hz => by
        obtain ⟨hzfraction, -, hscale⟩ := Wide.mul_isFraction hx.1 hy.1 hz
        refine ⟨hzfraction, hscale.imp_right ?_⟩
        rintro ⟨hx0, hy0, hscale⟩
        rw [hscale, hx.2.resolve_left hx0, hy.2.resolve_left hy0, Nat.add_mul]
        exact min_min_add_min _ _ _)
      ⟨Wide.isFraction_one, .inr (by simp [Wide.one])⟩
      ⟨hbase, .inr (by
        rw [Nat.one_mul]
        exact (min_eq_right (hb.scale_le.trans (by decide))).symm)⟩ h
    refine htracks.2.imp_right fun hscale => hscale.trans (min_eq_left ?_)
    calc Wide.maxScale ≤ n * 1 := by rwa [Nat.mul_one]
      _ ≤ n * b.scale := Nat.mul_le_mul_left n (scale_pos_of_lt_one h0 h1)

/-- When the power of the smaller base is not lost in narrowing, both powers have 57 decimals and
are apart by far more than their roundings. -/
theorem wide_power_mono (hb : b.Valid) (hb' : b'.Valid) (h0 : 0 < b.toRat)
    (hapart : Apart b.toRat b'.toRat) (h1 : b'.toRat < 1) (hn : n < 2 ^ 32) (hlong : 57 ≤ n)
    (hw : powBits Wide.mul Wide.one (Wide.ofDecimal b) n = .ok w)
    (hw' : powBits Wide.mul Wide.one (Wide.ofDecimal b') n = .ok w')
    (hr : w.narrow = .ok r) (hr' : w'.narrow = .ok r') : r.toRat ≤ r'.toRat := by
  have hlt := hapart.lt h0
  obtain ⟨hf, hclose, hscale⟩ := wide_power_fraction hb h0 (hlt.trans h1) hn hlong hw
  obtain ⟨hf', hclose', hscale'⟩ := wide_power_fraction hb' (h0.trans hlt) h1 hn hlong hw'
  have hr0' : 0 ≤ r'.toRat := toRat_nonneg_iff.2 (Wide.narrow_nonneg hf'.nonneg hr')
  rw [hf.narrow_eq] at hr
  rw [hf'.narrow_eq] at hr'
  cases hr
  rcases hscale with hzero | hscale
  · rwa [hzero, Wide.chopped_zero, toRat_of_coefficient_eq_zero rfl]
  rw [hscale]
  rcases Nat.lt_or_ge w.magnitude (powTen 27) with htiny | hlarge
  · rwa [Wide.chopped_of_lt (by decide) htiny, toRat_of_coefficient_eq_zero rfl]
  have hvalue : 1 / 10 ^ 30 ≤ w.toRat := by
    rw [hf.toRat_eq, hscale, div_le_div_iff₀ (by positivity) (by positivity)]
    have hle : (powTen 27 : ℚ) ≤ w.magnitude := by exact_mod_cast hlarge
    rw [powTen_cast] at hle
    rw [Wide.maxScale]
    linarith
  have hless := hapart.le_of_pow_close h0 hn hlong hclose hclose' hvalue
  rcases hscale' with hzero' | hscale'
  · rw [hf'.toRat_eq, hzero', Nat.cast_zero, zero_div] at hless
    linarith
  rw [hscale'] at hr'
  cases hr'
  have hmagnitude : w.magnitude ≤ w'.magnitude := by
    rw [hf.toRat_eq, hf'.toRat_eq, hscale, hscale',
      div_le_div_iff_of_pos_right (by positivity)] at hless
    exact_mod_cast hless
  rw [toRat, toRat, div_le_div_iff_of_pos_right (powTen_cast_pos _)]
  exact Int.cast_le.2 (Int.ofNat_le.2 (Wide.chopped_mono hmagnitude _))

/-- Products of numbers that are not negative are in the order of their factors. -/
theorem mul_mono {a a' c c' : Decimal} (ha : 0 ≤ a.toRat) (hc : 0 ≤ c.toRat)
    (hle : a.toRat ≤ a'.toRat) (hle' : c.toRat ≤ c'.toRat) (h : a.mul c = .ok r)
    (h' : a'.mul c' = .ok r') : r.toRat ≤ r'.toRat :=
  (mul_nearest h ha hc).mono (mul_nearest h' (ha.trans hle) (hc.trans hle')) (mul_nonneg ha hc)
    (mul_le_mul hle hle' hc (ha.trans hle))

theorem narrow_power_mono (h0 : 0 ≤ b.toRat) (hle : b.toRat ≤ b'.toRat)
    (h : powBits mul one b n = .ok r) (h' : powBits mul one b' n = .ok r') :
    r.toRat ≤ r'.toRat := by
  have hrelated := powBits_related
    (R := fun x y => 0 ≤ x.toRat ∧ x.toRat ≤ y.toRat)
    (fun hx hy hz hz' => ⟨mul_nonneg_of_nonneg hz hx.1 hy.1, mul_mono hx.1 hy.1 hx.2 hy.2 hz hz'⟩)
    ⟨by rw [toRat_one]; exact zero_le_one, le_rfl⟩ ⟨h0, hle⟩ h h'
  exact hrelated.2

/-! ## Whole exponents -/

/-- Which way a whole power goes, for a base above zero that is not one. -/
theorem powNat_eq (h0 : 0 < b.toRat) (h1 : b.toRat ≠ 1) :
    b.powNat n =
      if n = 0 then .ok one
      else if n = 1 then .ok b
      else if n = 2 then b.mul b
      else if n ≥ 1024 then do
        let w ← powBits Wide.mul Wide.one (Wide.ofDecimal b) n
        return (← w.narrow).normalize
      else return (← powBits mul one b n).normalize := by
  have hb0 : b.coefficient ≠ 0 := fun hzero =>
    h0.ne' (toRat_of_coefficient_eq_zero hzero)
  have hb1 : b.coefficient ≠ powTen b.scale := by
    intro hone
    rw [toRat, hone, Int.cast_natCast, div_self (powTen_cast_pos _).ne'] at h1
    exact h1 rfl
  unfold powNat
  rw [if_neg hb0, if_neg hb1]

theorem powNat_mono_of_lt_one (hb : b.Valid) (hb' : b'.Valid) (h0 : 0 < b.toRat)
    (hapart : Apart b.toRat b'.toRat) (h1 : b'.toRat < 1) (hn : n < 2 ^ 32)
    (h : b.powNat n = .ok r) (h' : b'.powNat n = .ok r') : r.toRat ≤ r'.toRat := by
  have hlt := hapart.lt h0
  rw [powNat_eq h0 (hlt.trans h1).ne] at h
  rw [powNat_eq (h0.trans hlt) h1.ne] at h'
  split at h
  · next hn0 =>
    rw [if_pos hn0] at h'
    cases h
    cases h'
    exact le_rfl
  next hn0 =>
  rw [if_neg hn0] at h'
  split at h
  · next hn1 =>
    rw [if_pos hn1] at h'
    cases h
    cases h'
    exact hlt.le
  next hn1 =>
  rw [if_neg hn1] at h'
  split at h
  · next hn2 =>
    rw [if_pos hn2] at h'
    exact mul_mono h0.le h0.le hlt.le hlt.le h h'
  next hn2 =>
  rw [if_neg hn2] at h'
  split at h
  · next hlong =>
    rw [if_pos hlong] at h'
    obtain ⟨w, hw, h⟩ := Fault.bind_eq_ok.1 h
    obtain ⟨w', hw', h'⟩ := Fault.bind_eq_ok.1 h'
    obtain ⟨d, hd, h⟩ := Fault.bind_eq_ok.1 h
    obtain ⟨d', hd', h'⟩ := Fault.bind_eq_ok.1 h'
    cases h
    cases h'
    rw [toRat_normalize, toRat_normalize]
    exact wide_power_mono hb hb' h0 hapart h1 hn (by omega) hw hw' hd hd'
  · next hshort =>
    rw [if_neg hshort] at h'
    obtain ⟨d, hd, h⟩ := Fault.bind_eq_ok.1 h
    obtain ⟨d', hd', h'⟩ := Fault.bind_eq_ok.1 h'
    cases h
    cases h'
    rw [toRat_normalize, toRat_normalize]
    exact narrow_power_mono h0.le hlt.le hd hd'

/-- Above one the rounding is relative, and smaller than what bases are apart by. -/
theorem powNat_mono_of_one_le (hb : b.Valid) (hb' : b'.Valid) (h1 : 1 ≤ b.toRat)
    (hapart : Apart b.toRat b'.toRat) (hn : n < 2 ^ 32) (h : b.powNat n = .ok r)
    (h' : b'.powNat n = .ok r') : r.toRat ≤ r'.toRat := by
  have hlt := hapart.lt (zero_lt_one.trans_le h1)
  have hclose := (powNat_close hb hn h).2
  have hclose' := (powNat_close hb' hn h').2
  rw [abs_of_pos (show 0 < b.toRat by linarith), max_eq_right h1] at hclose
  rw [abs_of_pos (show 0 < b'.toRat by linarith), max_eq_right (by linarith)] at hclose'
  have hgap := hapart.pow (zero_le_one.trans h1) n
  have hn' : (n : ℚ) ≤ 4294967296 := by exact_mod_cast hn.le
  have hn0 : (0 : ℚ) ≤ n := Nat.cast_nonneg n
  have hpow : 0 < b.toRat ^ n := by positivity
  generalize b.toRat ^ n = x at hclose hgap hpow
  generalize b'.toRat ^ n = x' at hclose' hgap
  rw [ulp] at hclose hclose'
  rw [separation] at hgap
  -- the errors of both powers, in shares of the smaller one
  have hkeep : x * (1 + n * (54 / 10 ^ 21)) * (1 - 4 * n * (1 / 10 ^ 28)) ≤
      x' * (1 - 4 * n * (1 / 10 ^ 28)) := mul_le_mul_of_nonneg_right hgap (by linarith)
  have hshare : x * (1 + 4 * n * (1 / 10 ^ 28)) ≤
      x * (1 + n * (54 / 10 ^ 21)) * (1 - 4 * n * (1 / 10 ^ 28)) := by
    rw [mul_assoc x]
    refine mul_le_mul_of_nonneg_left ?_ hpow.le
    have hsquare : (n : ℚ) * n ≤ n * 4294967296 := mul_le_mul_of_nonneg_left hn' hn0
    linarith
  linarith [(abs_le.1 hclose).2, (abs_le.1 hclose').1]

end Fractions

end Decimal
end BondingCurve
