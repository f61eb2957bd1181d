import BondingCurve.Proofs.Decimal.Wide

/-!
# Whole powers are close to the exact ones

Repeated squaring follows the binary digits of the exponent (`bits_eq`). Each multiplication adds
one rounding to those of its factors, relative to the larger of one and the exact power
(`Follows.mul`), and there are no more than two for each unit of the exponent. That holds for any
multiplication that is close, so the narrow and the wide one share it; `powNat_close` is what comes
out for both.
-/

namespace BondingCurve
namespace Decimal

/-! ## Binary digits -/

theorem bits_zero : bits 0 = [] := rfl

/-- The bits of a number are its lowest bit and those of its half. -/
theorem bits_eq {n : ℕ} (h : n ≠ 0) : bits n = (decide (n % 2 = 1)) :: bits (n / 2) := by
  have hlength : Wide.bitLength n = Wide.bitLength (n / 2) + 1 := by
    unfold Wide.bitLength
    rw [if_neg h]
    split
    · next hhalf =>
      obtain rfl : n = 1 := by omega
      rfl
    · rw [Nat.log2_def, if_pos (by omega)]
  have htail : n.testBit ∘ Nat.succ = (n / 2).testBit := funext fun i => Nat.testBit_succ n i
  rw [bits, hlength, List.range_succ_eq_map, List.map_cons, List.map_map, htail, Nat.testBit_zero]
  rfl

/-! ## Roundings -/

section Follows

variable {ε b B x y z : ℚ} {m m' n n' : ℕ}

/-- `x` stands for `b ^ m` after `n` roundings, each relative to a power of `B`. -/
def Follows (ε b B : ℚ) (m n : ℕ) (x : ℚ) : Prop := |x - b ^ m| ≤ ((1 + ε) ^ n - 1) * B ^ m

/-- One follows the power of nothing, with no rounding at all. -/
theorem follows_one : Follows ε b B 0 0 1 := by
  simp [Follows]

/-- The base follows itself. -/
theorem follows_base : Follows ε b B (0 + 1) 0 b := by
  simp [Follows]

/-- More roundings allow as much. -/
theorem Follows.mono (hε : 0 ≤ ε) (hB : 1 ≤ B) (h : Follows ε b B m n x) (hn : n ≤ n') :
    Follows ε b B m n' x := by
  refine h.trans (mul_le_mul_of_nonneg_right ?_ (by positivity))
  exact sub_le_sub_right (pow_le_pow_right₀ (by linarith) hn) 1

/-- What follows a power is no larger than the power with all its roundings. -/
theorem Follows.abs_le (hb : |b| ≤ B) (h : Follows ε b B m n x) :
    |x| ≤ (1 + ε) ^ n * B ^ m := by
  have hpow : |b ^ m| ≤ B ^ m := by
    rw [abs_pow]
    exact pow_le_pow_left₀ (abs_nonneg b) hb m
  calc |x| ≤ |x - b ^ m| + |b ^ m| := by
        linarith [abs_sub_abs_le_abs_sub x (b ^ m)]
    _ ≤ ((1 + ε) ^ n - 1) * B ^ m + B ^ m := add_le_add h hpow
    _ = (1 + ε) ^ n * B ^ m := by ring

/-- A product has the roundings of both factors and one more. -/
theorem Follows.mul (hε : 0 ≤ ε) (hB : 1 ≤ B) (hb : |b| ≤ B) (hx : Follows ε b B m n x)
    (hy : Follows ε b B m' n' y) (hz : |z - x * y| ≤ ε * Max.max 1 |x * y|) :
    Follows ε b B (m + m') (n + n' + 1) z := by
  have hxle := hx.abs_le hb
  have hyle := hy.abs_le hb
  have hn1 : (1 : ℚ) ≤ (1 + ε) ^ n := one_le_pow₀ (by linarith)
  have hn1' : (1 : ℚ) ≤ (1 + ε) ^ n' := one_le_pow₀ (by linarith)
  have hm1 : (1 : ℚ) ≤ B ^ m := one_le_pow₀ hB
  have hm1' : (1 : ℚ) ≤ B ^ m' := one_le_pow₀ hB
  have hpow : |b ^ m'| ≤ B ^ m' := by
    rw [abs_pow]
    exact pow_le_pow_left₀ (abs_nonneg b) hb m'
  have hproduct : |x * y| ≤ (1 + ε) ^ n * B ^ m * ((1 + ε) ^ n' * B ^ m') := by
    rw [abs_mul]
    gcongr
  have hmax : Max.max 1 |x * y| ≤ (1 + ε) ^ n * B ^ m * ((1 + ε) ^ n' * B ^ m') := by
    refine max_le ?_ hproduct
    exact one_le_mul_of_one_le_of_one_le (one_le_mul_of_one_le_of_one_le hn1 hm1)
      (one_le_mul_of_one_le_of_one_le hn1' hm1')
  have hexact : |x * y - b ^ (m + m')| ≤
      (1 + ε) ^ n * B ^ m * (((1 + ε) ^ n' - 1) * B ^ m') +
        ((1 + ε) ^ n - 1) * B ^ m * B ^ m' := by
    have hsplit : x * y - b ^ (m + m') = x * (y - b ^ m') + (x - b ^ m) * b ^ m' := by
      rw [pow_add]
      ring
    rw [hsplit]
    refine (abs_add_le _ _).trans (add_le_add ?_ ?_)
    · rw [abs_mul]
      exact mul_le_mul hxle hy (abs_nonneg _) (by positivity)
    · rw [abs_mul]
      exact mul_le_mul hx hpow (abs_nonneg _) (by nlinarith)
  calc |z - b ^ (m + m')| ≤ |z - x * y| + |x * y - b ^ (m + m')| := abs_sub_le _ _ _
    _ ≤ ε * ((1 + ε) ^ n * B ^ m * ((1 + ε) ^ n' * B ^ m')) +
        ((1 + ε) ^ n * B ^ m * (((1 + ε) ^ n' - 1) * B ^ m') +
          ((1 + ε) ^ n - 1) * B ^ m * B ^ m') :=
        add_le_add (hz.trans (mul_le_mul_of_nonneg_left hmax hε)) hexact
    _ = ((1 + ε) ^ (n + n' + 1) - 1) * B ^ (m + m') := by ring

/-- A few roundings add up. -/
theorem one_add_pow_le {k : ℕ} (hε : 0 ≤ ε) (hk : k * ε ≤ 1 / 2) :
    (1 + ε) ^ k ≤ 1 + 2 * (k * ε) := by
  have hinv : ∀ k : ℕ, (k : ℚ) * ε ≤ 1 / 2 → (1 + ε) ^ k * (1 - k * ε) ≤ 1 := by
    intro k
    induction k with
    | zero => simp
    | succ k ih =>
      intro hk
      push_cast at hk ⊢
      have hpow : (0 : ℚ) ≤ (1 + ε) ^ k := by positivity
      have hk0 : (0 : ℚ) ≤ k := Nat.cast_nonneg k
      calc (1 + ε) ^ (k + 1) * (1 - (k + 1) * ε)
          = (1 + ε) ^ k * (1 - k * ε - (k + 1) * ε ^ 2) := by ring
        _ ≤ (1 + ε) ^ k * (1 - k * ε) := by
            apply mul_le_mul_of_nonneg_left _ hpow
            linarith [mul_nonneg (by linarith : (0 : ℚ) ≤ k + 1) (sq_nonneg ε)]
        _ ≤ 1 := ih (by linarith)
  have hle := hinv k hk
  have hk0 : (0 : ℚ) ≤ k * ε := by positivity
  have hpow : (0 : ℚ) ≤ (1 + ε) ^ k := by positivity
  generalize (k : ℚ) * ε = t at hk hle hk0 ⊢
  have hhalf : (1 + ε) ^ k ≤ 2 := by nlinarith
  nlinarith

end Follows

/-! ## Repeated squaring -/

section Squaring

variable {α : Type} {mul : α → α → Except Fault α} {value : α → ℚ} {P : α → Prop}
  {ε b B limit : ℚ}

/-- A multiplication that is close, for factors of which `P` holds. -/
structure CloseMul (mul : α → α → Except Fault α) (value : α → ℚ) (P : α → Prop) (ε limit : ℚ) :
    Prop where
  close : ∀ {x y z : α}, P x → P y → mul x y = .ok z →
    P z ∧ |value z - value x * value y| ≤ ε * Max.max 1 |value x * value y|
  exists_of_le : ∀ {x y : α}, P x → P y → |value x * value y| ≤ limit → ∃ z, mul x y = .ok z

/-- The state of repeated squaring: `product` for `b ^ m` and `power` for `b ^ (p + 1)`. -/
structure Squares (value : α → ℚ) (P : α → Prop) (ε b B : ℚ) (m p : ℕ) (product power : α) :
    Prop where
  product_spec : P product
  power_spec : P power
  product_follows : Follows ε b B m (2 * m) (value product)
  power_follows : Follows ε b B (p + 1) p (value power)

variable (hmul : CloseMul mul value P ε limit) (hε : 0 ≤ ε) (hB : 1 ≤ B) (hb : |b| ≤ B)
include hmul hε hB hb

/-- Squaring doubles the exponent and adds a rounding. -/
theorem Squares.square {m p : ℕ} {product power square : α}
    (h : Squares value P ε b B m p product power) (hsquare : mul power power = .ok square) :
    Squares value P ε b B m (2 * p + 1) product square := by
  obtain ⟨hP, hclose⟩ := hmul.close h.power_spec h.power_spec hsquare
  refine ⟨h.product_spec, hP, h.product_follows, ?_⟩
  have hfollows := h.power_follows.mul hε hB hb h.power_follows hclose
  rwa [show p + 1 + (p + 1) = 2 * p + 1 + 1 from by ring, show p + p + 1 = 2 * p + 1 from by ring]
    at hfollows

/-- Multiplying adds the exponents and a rounding. -/
theorem Squares.multiply {m p : ℕ} {product power next : α}
    (h : Squares value P ε b B m p product power) (hnext : mul product power = .ok next) :
    Squares value P ε b B (m + (p + 1)) p next power := by
  obtain ⟨hP, hclose⟩ := hmul.close h.product_spec h.power_spec hnext
  exact ⟨hP, h.power_spec,
    (h.product_follows.mul hε hB hb h.power_follows hclose).mono hε hB (by omega), h.power_follows⟩

/-- Bit by bit the product takes in the powers, and follows the power of the whole exponent. -/
theorem squareUp_follows (n : ℕ) {m p : ℕ} {product power r : α}
    (h : Squares value P ε b B m p product power)
    (hr : squareUp mul (bits n) product power = .ok r) :
    P r ∧ Follows ε b B (m + 2 * (p + 1) * n) (2 * (m + 2 * (p + 1) * n)) (value r) := by
  induction n using Nat.strong_induction_on generalizing m p product power with
  | _ n ih =>
    rcases Nat.eq_zero_or_pos n with rfl | hpos
    · rw [bits_zero, squareUp] at hr
      cases hr
      exact ⟨h.product_spec, h.product_follows⟩
    · rw [bits_eq hpos.ne', squareUp, Fault.bind_eq_ok] at hr
      obtain ⟨square, hsquare, hr⟩ := hr
      have hsq := h.square hmul hε hB hb hsquare
      have hlt : n / 2 < n := Nat.div_lt_self hpos (by decide)
      rcases Nat.mod_two_eq_zero_or_one n with heven | hodd
      · rw [if_neg (by simp [heven])] at hr
        have hrest := ih _ hlt hsq hr
        rwa [show m + 2 * (2 * p + 1 + 1) * (n / 2) = m + 2 * (p + 1) * n by
          obtain ⟨k, rfl⟩ : ∃ k, n = 2 * k := ⟨n / 2, by omega⟩
          rw [Nat.mul_div_cancel_left _ (by decide)]
          ring] at hrest
      · rw [if_pos (by simp [hodd])] at hr
        obtain ⟨next, hnext, hr⟩ := Fault.bind_eq_ok.1 hr
        have hrest := ih _ hlt (hsq.multiply hmul hε hB hb hnext) hr
        rwa [show m + (2 * p + 1 + 1) + 2 * (2 * p + 1 + 1) * (n / 2) = m + 2 * (p + 1) * n by
          obtain ⟨k, rfl⟩ : ∃ k, n = 2 * k + 1 := ⟨n / 2, by omega⟩
          rw [show (2 * k + 1) / 2 = k by omega]
          ring] at hrest

/-- Two powers whose exponents add up to no more than that of the result have a product. -/
theorem exists_product {m n m' n' M : ℕ} {x y : α} (hPx : P x) (hPy : P y)
    (hx : Follows ε b B m n (value x)) (hy : Follows ε b B m' n' (value y)) (hn : n ≤ 2 * m)
    (hn' : n' ≤ 2 * m') (hm : m + m' ≤ M) (hlimit : (1 + ε) ^ (2 * M) * B ^ M ≤ limit) :
    ∃ z, mul x y = .ok z := by
  apply hmul.exists_of_le hPx hPy
  have hε1 : 1 ≤ 1 + ε := by linarith
  calc |value x * value y| = |value x| * |value y| := abs_mul _ _
    _ ≤ (1 + ε) ^ n * B ^ m * ((1 + ε) ^ n' * B ^ m') :=
        mul_le_mul (hx.abs_le hb) (hy.abs_le hb) (abs_nonneg _) (by positivity)
    _ = (1 + ε) ^ (n + n') * B ^ (m + m') := by ring
    _ ≤ (1 + ε) ^ (2 * M) * B ^ M := by
        gcongr
        omega
    _ ≤ limit := hlimit

/-- As long as the result has room, so have the powers on the way. -/
theorem exists_squareUp (n : ℕ) {m p : ℕ} {product power : α}
    (h : Squares value P ε b B m p product power)
    (hlimit : (1 + ε) ^ (2 * (m + 2 * (p + 1) * n)) * B ^ (m + 2 * (p + 1) * n) ≤ limit) :
    ∃ r, squareUp mul (bits n) product power = .ok r := by
  induction n using Nat.strong_induction_on generalizing m p product power with
  | _ n ih =>
    rcases Nat.eq_zero_or_pos n with rfl | hpos
    · exact ⟨product, rfl⟩
    · have hlt : n / 2 < n := Nat.div_lt_self hpos (by decide)
      have hroom : 2 * (p + 1) ≤ 2 * (p + 1) * n := Nat.le_mul_of_pos_right _ hpos
      obtain ⟨square, hsquare⟩ := exists_product hmul hε hB hb h.power_spec h.power_spec
        h.power_follows h.power_follows (by omega) (by omega)
        (show p + 1 + (p + 1) ≤ m + 2 * (p + 1) * n by omega) hlimit
      have hsq := h.square hmul hε hB hb hsquare
      rw [bits_eq hpos.ne', squareUp, hsquare]
      rcases Nat.mod_two_eq_zero_or_one n with heven | hodd
      · have hM : m + 2 * (2 * p + 1 + 1) * (n / 2) = m + 2 * (p + 1) * n := by
          obtain ⟨k, rfl⟩ : ∃ k, n = 2 * k := ⟨n / 2, by omega⟩
          rw [Nat.mul_div_cancel_left _ (by decide)]
          ring
        obtain ⟨r, hr⟩ := ih _ hlt hsq (by rwa [hM])
        refine ⟨r, Fault.bind_eq_ok.2 ⟨square, rfl, ?_⟩⟩
        rw [if_neg (by simp [heven])]
        exact hr
      · have hM : m + (2 * p + 1 + 1) + 2 * (2 * p + 1 + 1) * (n / 2) = m + 2 * (p + 1) * n := by
          obtain ⟨k, rfl⟩ : ∃ k, n = 2 * k + 1 := ⟨n / 2, by omega⟩
          rw [show (2 * k + 1) / 2 = k by omega]
          ring
        obtain ⟨next, hnext⟩ := exists_product hmul hε hB hb hsq.product_spec hsq.power_spec
          hsq.product_follows hsq.power_follows le_rfl (by omega)
          (show m + (2 * p + 1 + 1) ≤ m + 2 * (p + 1) * n by omega) hlimit
        obtain ⟨r, hr⟩ := ih _ hlt (hsq.multiply hmul hε hB hb hnext) (by rwa [hM])
        refine ⟨r, Fault.bind_eq_ok.2 ⟨square, rfl, ?_⟩⟩
        rw [if_pos (by simp [hodd])]
        exact Fault.bind_eq_ok.2 ⟨next, hnext, hr⟩

end Squaring

section PowBits

variable {α : Type} {mul : α → α → Except Fault α} {value : α → ℚ} {P : α → Prop}
  {ε B limit : ℚ} {unit base r : α}

/-- At first nothing was multiplied and the power is the base. -/
theorem squares_start (hunit : P unit) (hunit1 : value unit = 1) (hbase : P base) :
    Squares value P ε (value base) B 0 0 unit base :=
  ⟨hunit, hbase, hunit1 ▸ follows_one, follows_base⟩

variable (hmul : CloseMul mul value P ε limit) (hε : 0 ≤ ε) (hB : 1 ≤ B) (hb : |value base| ≤ B)
  (hunit : P unit) (hunit1 : value unit = 1) (hbase : P base)
include hmul hε hB hb hunit hunit1 hbase

/-- Repeated squaring gives the power after two roundings for each unit of the exponent. -/
theorem powBits_follows {n : ℕ} (h : powBits mul unit base n = .ok r) :
    P r ∧ Follows ε (value base) B n (2 * n) (value r) := by
  have hstart := squares_start (ε := ε) (B := B) hunit hunit1 hbase
  rcases Nat.eq_zero_or_pos n with rfl | hpos
  · cases h
    exact ⟨hunit, hunit1 ▸ follows_one⟩
  · unfold powBits at h
    rw [bits_eq hpos.ne'] at h
    rcases Nat.mod_two_eq_zero_or_one n with heven | hodd
    · simp only [heven, Nat.zero_ne_one, decide_false, Bool.false_eq_true, if_false] at h
      have hrest := squareUp_follows hmul hε hB hb (n / 2) hstart h
      rwa [show 0 + 2 * (0 + 1) * (n / 2) = n by omega] at hrest
    · simp only [hodd, decide_true, if_true] at h
      obtain ⟨next, hnext, h⟩ := Fault.bind_eq_ok.1 h
      have hrest := squareUp_follows hmul hε hB hb (n / 2)
        (hstart.multiply hmul hε hB hb hnext) h
      rwa [show 0 + (0 + 1) + 2 * (0 + 1) * (n / 2) = n by omega] at hrest

/-- A power exists when no product on the way can run over the limit. -/
theorem exists_powBits {n : ℕ} (hlimit : (1 + ε) ^ (2 * n) * B ^ n ≤ limit) :
    ∃ r, powBits mul unit base n = .ok r := by
  have hstart := squares_start (ε := ε) (B := B) hunit hunit1 hbase
  rcases Nat.eq_zero_or_pos n with rfl | hpos
  · exact ⟨unit, rfl⟩
  · unfold powBits
    rw [bits_eq hpos.ne']
    rcases Nat.mod_two_eq_zero_or_one n with heven | hodd
    · simp only [heven, Nat.zero_ne_one, decide_false, Bool.false_eq_true, if_false]
      exact exists_squareUp hmul hε hB hb (n / 2) hstart
        (by rwa [show 0 + 2 * (0 + 1) * (n / 2) = n by omega])
    · simp only [hodd, decide_true, if_true]
      obtain ⟨next, hnext⟩ := exists_product hmul hε hB hb hstart.product_spec
        hstart.power_spec hstart.product_follows hstart.power_follows le_rfl (by omega)
        (show 0 + (0 + 1) ≤ n by omega) hlimit
      obtain ⟨r, hr⟩ := exists_squareUp hmul hε hB hb (n / 2)
        (hstart.multiply hmul hε hB hb hnext)
        (by rwa [show 0 + (0 + 1) + 2 * (0 + 1) * (n / 2) = n by omega])
      exact ⟨r, Fault.bind_eq_ok.2 ⟨next, hnext, hr⟩⟩

end PowBits

/-! ## Narrow and wide -/

/-- Products of decimals are close, and exist up to the largest coefficient. -/
theorem closeMul : CloseMul mul toRat Valid ulp ((bound : ℚ) - 1) where
  close _ _ h := ⟨mul_valid h, mul_close h⟩
  exists_of_le _ _ h := exists_mul_of_abs_le h

/-- Wide numbers multiply with an error of their last digit. -/
theorem Wide.closeMul : CloseMul Wide.mul Wide.toRat Wide.IsFine Wide.roundoff (2 ^ 190) where
  close _ _ h := Wide.mul_close h
  exists_of_le _ _ h := Wide.exists_mul (h.trans_lt (by norm_num))

/-- Stripping zeros keeps the value. -/
theorem toRat_normalize (d : Decimal) : d.normalize.toRat = d.toRat := by
  have hstrip : ∀ (s : ℕ) (c : ℤ), (normalize.strip c s).toRat = c / 10 ^ s := by
    intro s
    induction s with
    | zero =>
      intro c
      simp [normalize.strip, toRat]
    | succ s ih =>
      intro c
      rw [normalize.strip]
      split
      · next hzero =>
        obtain ⟨k, rfl⟩ := Int.dvd_of_emod_eq_zero hzero
        rw [ih, Int.mul_ediv_cancel_left _ (by decide), pow_succ]
        push_cast
        field_simp
      · rw [toRat, powTen_cast]
  rw [normalize, hstrip, toRat, powTen_cast]

/-- A valid decimal stays valid without its zeros. -/
theorem Valid.normalize {d : Decimal} (h : d.Valid) : d.normalize.Valid := by
  have hstrip : ∀ (s : ℕ) (c : ℤ), c.natAbs < bound →
      (normalize.strip c s).coefficient.natAbs < bound ∧
        (normalize.strip c s).negativeZero = false := by
    intro s
    induction s with
    | zero => exact fun c hc => ⟨hc, rfl⟩
    | succ s ih =>
      intro c hc
      rw [normalize.strip]
      split
      · exact ih _ (by omega)
      · exact ⟨hc, rfl⟩
  obtain ⟨hlt, hsign⟩ := hstrip d.scale d.coefficient h.coefficient_lt
  refine ⟨hlt, (normalize_scale_le d).trans h.scale_le, fun hneg => ?_⟩
  rw [show d.normalize.negativeZero = false from hsign] at hneg
  exact absurd hneg Bool.false_ne_true

section PowNat

variable {base r : Decimal} {n : ℕ} {B : ℚ}

/-- The square of a decimal is rounded in its last digits only. -/
theorem square_close (hB : 1 ≤ B) (hb : |base.toRat| ≤ B) (h : base.mul base = .ok r) :
    |r.toRat - base.toRat ^ 2| ≤ 4 * ulp * B ^ 2 := by
  have hclose := mul_close h
  rw [← pow_two] at hclose
  have hmax : Max.max 1 |base.toRat ^ 2| ≤ B ^ 2 := by
    rw [abs_pow]
    exact max_le (one_le_pow₀ hB) (pow_le_pow_left₀ (abs_nonneg _) hb 2)
  have hmul := mul_le_mul_of_nonneg_left hmax ulp_pos.le
  have hpos : 0 < ulp * B ^ 2 := mul_pos ulp_pos (by positivity)
  exact hclose.trans (by linarith)

/-- In narrow arithmetic each unit of the exponent costs two roundings. -/
theorem narrow_power_close (hbase : base.Valid) (hn : n < 2 ^ 32) (hB : 1 ≤ B)
    (hb : |base.toRat| ≤ B) (h : powBits mul one base n = .ok r) :
    r.Valid ∧ |r.toRat - base.toRat ^ n| ≤ 4 * n * ulp * B ^ n := by
  have hn' : (n : ℚ) ≤ 4294967296 := by exact_mod_cast hn.le
  obtain ⟨hvalid, hfollows⟩ := powBits_follows closeMul ulp_pos.le hB hb (valid_ofInt (by decide))
    toRat_one hbase h
  have hsmall := one_add_pow_le (k := 2 * n) ulp_pos.le (by
    rw [ulp]
    push_cast
    linarith)
  push_cast at hsmall
  exact ⟨hvalid, hfollows.trans (mul_le_mul_of_nonneg_right (by linarith) (by positivity))⟩

/-- In wide arithmetic the roundings are nothing beside the one that makes the power narrow. -/
theorem wide_power_close {w : Wide} (hbase : base.Valid) (hn : n < 2 ^ 32) (hn0 : n ≠ 0) (hB : 1 ≤ B)
    (hb : |base.toRat| ≤ B) (hw : powBits Wide.mul Wide.one (Wide.ofDecimal base) n = .ok w)
    (hr : w.narrow = .ok r) : r.Valid ∧ |r.toRat - base.toRat ^ n| ≤ 4 * n * ulp * B ^ n := by
  have hn' : (n : ℚ) ≤ 4294967296 := by exact_mod_cast hn.le
  have hn1 : (1 : ℚ) ≤ n := by exact_mod_cast Nat.one_le_iff_ne_zero.2 hn0
  have hBn : (0 : ℚ) < B ^ n := by positivity
  have hBn1 : 1 ≤ B ^ n := one_le_pow₀ hB
  rw [← Wide.toRat_ofDecimal] at hb
  obtain ⟨-, hfollows⟩ := powBits_follows Wide.closeMul Wide.roundoff_pos.le hB hb
    (show Wide.one.IsFine by decide) Wide.toRat_one (Wide.isFine_ofDecimal hbase) hw
  have hwle := hfollows.abs_le hb
  have hsmall := one_add_pow_le (k := 2 * n) Wide.roundoff_pos.le (by
    rw [Wide.roundoff]
    push_cast
    linarith)
  push_cast at hsmall
  obtain ⟨hvalid, hnarrow⟩ := Wide.narrow_close hr
  rw [Follows, Wide.toRat_ofDecimal] at hfollows
  have hwide : (1 + Wide.roundoff) ^ (2 * n) ≤ 1 + ulp / 2 := by
    refine hsmall.trans ?_
    rw [Wide.roundoff, ulp]
    linarith
  have hw1 : Max.max 1 |w.toRat| ≤ (1 + ulp / 2) * B ^ n := by
    refine max_le ?_ (hwle.trans (mul_le_mul_of_nonneg_right hwide hBn.le))
    exact one_le_mul_of_one_le_of_one_le (by linarith [ulp_pos]) hBn1
  refine ⟨hvalid, ?_⟩
  calc |r.toRat - base.toRat ^ n| ≤ |r.toRat - w.toRat| + |w.toRat - base.toRat ^ n| :=
        abs_sub_le _ _ _
    _ ≤ 3 * ulp * ((1 + ulp / 2) * B ^ n) + ulp / 2 * B ^ n := by
        refine add_le_add (hnarrow.trans ?_) (hfollows.trans ?_)
        · exact mul_le_mul_of_nonneg_left hw1 (by linarith [ulp_pos])
        · exact mul_le_mul_of_nonneg_right (by linarith) hBn.le
    _ = (3 * (1 + ulp / 2) + 1 / 2) * ulp * B ^ n := by ring
    _ ≤ 4 * n * ulp * B ^ n := by
        have hulp1 : ulp ≤ 1 / 10 := by norm_num [ulp]
        gcongr ?_ * B ^ n
        exact mul_le_mul_of_nonneg_right (by linarith) ulp_pos.le

end PowNat

/-- A whole power is off by four units of the 28th decimal for each unit of the exponent, relative
to a power above one. -/
theorem powNat_close {base r : Decimal} {n : ℕ} (hbase : base.Valid) (hn : n < 2 ^ 32)
    (h : base.powNat n = .ok r) :
    r.Valid ∧ |r.toRat - base.toRat ^ n| ≤ 4 * n * ulp * Max.max 1 |base.toRat| ^ n := by
  have hB : 1 ≤ Max.max 1 |base.toRat| := le_max_left _ _
  have hb : |base.toRat| ≤ Max.max 1 |base.toRat| := le_max_right _ _
  have hone : one.Valid := valid_ofInt (by decide)
  generalize Max.max 1 |base.toRat| = B at hB hb ⊢
  have hexact {x : ℚ} (hx : x = base.toRat ^ n) :
      |x - base.toRat ^ n| ≤ 4 * n * ulp * B ^ n := by
    rw [hx, sub_self, abs_zero]
    exact mul_nonneg (mul_nonneg (by positivity) ulp_pos.le) (by positivity)
  unfold powNat at h
  split at h
  · next hzero =>
    cases h
    exact ⟨hone, hexact (by rw [hzero, toRat_one, pow_zero])⟩
  next hn0 =>
  split at h
  · next hzero =>
    cases h
    exact ⟨valid_ofInt (by decide), hexact (by
      rw [toRat_zero, toRat_of_coefficient_eq_zero hzero, zero_pow hn0])⟩
  split at h
  · next hunit =>
    cases h
    refine ⟨hone, hexact ?_⟩
    rw [toRat_one, toRat, hunit, Int.cast_natCast, div_self (powTen_cast_pos _).ne', one_pow]
  split at h
  · next hn1 =>
    cases h
    exact ⟨hbase, hexact (by rw [hn1, pow_one])⟩
  split at h
  · next hn2 =>
    subst hn2
    have hpos : 0 < ulp * B ^ 2 := mul_pos ulp_pos (by positivity)
    refine ⟨mul_valid h, (square_close hB hb h).trans ?_⟩
    push_cast
    linarith
  split at h
  · obtain ⟨w, hw, h⟩ := Fault.bind_eq_ok.1 h
    obtain ⟨d, hd, h⟩ := Fault.bind_eq_ok.1 h
    cases h
    obtain ⟨hvalid, hclose⟩ := wide_power_close hbase hn hn0 hB hb hw hd
    exact ⟨hvalid.normalize, by rwa [toRat_normalize]⟩
  · obtain ⟨d, hd, h⟩ := Fault.bind_eq_ok.1 h
    cases h
    obtain ⟨hvalid, hclose⟩ := narrow_power_close hbase hn hB hb hd
    exact ⟨hvalid.normalize, by rwa [toRat_normalize]⟩

/-- A whole power exists when it is well within the range of a decimal. -/
theorem exists_powNat {base : Decimal} {n : ℕ} (hbase : base.Valid) (hn : n < 2 ^ 32)
    (hle : Max.max 1 |base.toRat| ^ n ≤ 10 ^ 28) : ∃ r, base.powNat n = .ok r := by
  have hB : 1 ≤ Max.max 1 |base.toRat| := le_max_left _ _
  have hb : |base.toRat| ≤ Max.max 1 |base.toRat| := le_max_right _ _
  have hn' : (n : ℚ) ≤ 4294967296 := by exact_mod_cast hn.le
  generalize Max.max 1 |base.toRat| = B at hB hb hle
  have hroom {u : ℚ} (hu : 0 ≤ u) (hsmall : u ≤ ulp) : (1 + u) ^ (2 * n) * B ^ n ≤ 2 * 10 ^ 28 := by
    have hpow := one_add_pow_le (k := 2 * n) hu (by
      rw [ulp] at hsmall
      push_cast
      nlinarith)
    have hulp : (n : ℚ) * u ≤ 1 / 4 := by
      rw [ulp] at hsmall
      nlinarith
    push_cast at hpow
    calc (1 + u) ^ (2 * n) * B ^ n ≤ 2 * B ^ n := by
          gcongr
          linarith
      _ ≤ 2 * 10 ^ 28 := by gcongr
  unfold powNat
  split
  · exact ⟨_, rfl⟩
  split
  · exact ⟨_, rfl⟩
  split
  · exact ⟨_, rfl⟩
  split
  · exact ⟨_, rfl⟩
  split
  · next hn2 =>
    subst hn2
    apply exists_mul_of_abs_le
    rw [← pow_two, abs_pow, bound_eq]
    calc |base.toRat| ^ 2 ≤ B ^ 2 := pow_le_pow_left₀ (abs_nonneg _) hb 2
      _ ≤ 10 ^ 28 := hle
      _ ≤ _ := by norm_num
  split
  · rw [← Wide.toRat_ofDecimal] at hb
    have hlimit := hroom Wide.roundoff_pos.le (by norm_num [Wide.roundoff, ulp])
    obtain ⟨w, hw⟩ := exists_powBits Wide.closeMul Wide.roundoff_pos.le hB hb
      (show Wide.one.IsFine by decide) Wide.toRat_one (Wide.isFine_ofDecimal hbase)
      (hlimit.trans (by norm_num))
    obtain ⟨-, hfollows⟩ := powBits_follows Wide.closeMul Wide.roundoff_pos.le hB hb
      (show Wide.one.IsFine by decide) Wide.toRat_one (Wide.isFine_ofDecimal hbase) hw
    obtain ⟨d, hd⟩ := Wide.exists_narrow
      (((hfollows.abs_le hb).trans hlimit).trans_lt (by norm_num))
    exact ⟨d.normalize, Fault.bind_eq_ok.2 ⟨w, hw, Fault.bind_eq_ok.2 ⟨d, hd, rfl⟩⟩⟩
  · have hone : one.Valid := valid_ofInt (by decide)
    obtain ⟨d, hd⟩ := exists_powBits closeMul ulp_pos.le hB hb hone toRat_one hbase
      ((hroom ulp_pos.le le_rfl).trans (by rw [bound_eq]; norm_num))
    exact ⟨d.normalize, Fault.bind_eq_ok.2 ⟨d, hd, rfl⟩⟩

end Decimal
end BondingCurve
