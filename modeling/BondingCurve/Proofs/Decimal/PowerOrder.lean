import BondingCurve.Proofs.Decimal.ExponentialOrder
import BondingCurve.Proofs.Decimal.FractionPower

/-!
# Powers keep order

The powers of two bases that are apart and on the same side of one are in their order, for every
exponent that is not below `10 ^ -9` (`pow_mono`). The logarithms of the bases are apart by more than
their errors. Their products with an exponent above a thousandth are then apart by more than the error
of the exponential, and those with a smaller one are different, or the same decimal.

An exponent below `10 ^ -9` can make of the two logarithms one number with different decimals, and
the exponential of such a number is not always the same.
-/

namespace BondingCurve
namespace Decimal

variable {a a' b b' k l l' m m' r r' d d' : Decimal}

/-! ## Products below one -/

/-- What a small coefficient loses is what it has too many decimals for. -/
theorem fit_of_lt_powTen {v s q t : ℕ} (hv : v < powTen s) (h : fit v s (s - maxScale) = .ok (q, t)) :
    q = divHalfEven v (powTen (s - maxScale)) ∧ t = s - (s - maxScale) := by
  have hten : powTen maxScale < bound := by decide
  have hfew : v < powTen maxScale * powTen (s - maxScale) := by
    refine hv.trans_le ?_
    rw [← powTen_add]
    exact Nat.pow_le_pow_right (by decide) (by omega)
  have hdiv : v / powTen (s - maxScale) < powTen maxScale :=
    (Nat.div_lt_iff_lt_mul (powTen_pos _)).2 hfew
  have hround : divHalfEven v (powTen (s - maxScale)) ≤ powTen maxScale :=
    divHalfEven_le (powTen_pos _) hfew.le
  obtain ⟨k, hk, hleast, hlt, hfirst, hcase⟩ := fit_eq_ok h
  obtain rfl : k = s - maxScale := by
    rcases hleast.eq_or_lt with heq | hmore
    · exact heq.symm
    · have hle : v / powTen (k - 1) ≤ v / powTen (s - maxScale) :=
        Nat.div_le_div_left (Nat.pow_le_pow_right (by decide) (by omega)) (powTen_pos _)
      have hbound := hfirst hmore
      omega
  rcases hcase with ⟨-, hq, ht⟩ | ⟨hbound, -⟩
  · exact ⟨hq, ht⟩
  · omega

/-- The decimals that are too many are rounded by half a unit of the 28th at most. -/
theorem abs_divHalfEven_sub_le (v s : ℕ) :
    |(divHalfEven v (powTen (s - maxScale)) : ℚ) / 10 ^ (s - (s - maxScale)) - v / 10 ^ s| ≤
      ulp / 2 := by
  have heven := divHalfEven_halfEven (v := v) (powTen_pos (s - maxScale))
  rw [← dropped_eq (Nat.sub_le s maxScale)] at heven
  have hpow : (0 : ℚ) < 10 ^ (s - (s - maxScale)) := by positivity
  rcases le_total s maxScale with hfew | hmany
  · rw [Nat.sub_eq_zero_of_le hfew, powTen_zero, divHalfEven_one, Nat.sub_zero, sub_self, abs_zero]
    exact (half_pos ulp_pos).le
  · rw [Nat.sub_sub_self hmany] at heven hpow ⊢
    rw [ulp, div_div, show (10 : ℚ) ^ 28 * 2 = 2 * 10 ^ maxScale by rw [maxScale]; ring,
      ← div_div, le_div_iff₀ hpow, ← abs_of_pos hpow, ← abs_mul, abs_of_pos hpow, sub_mul,
      div_mul_cancel₀ _ hpow.ne', abs_le]
    constructor <;> linarith [heven.le, heven.ge]

/-- A product `x` below one with `s` decimals: exact while there is room for those, and rounded to
the nearest number with 28 decimals from there on. -/
structure IsFineProduct (x : ℚ) (s : ℕ) (r : Decimal) : Prop where
  close : |r.toRat - x| ≤ ulp / 2
  exact : s ≤ maxScale → r.toRat = x
  scale_eq : r.toRat = 0 ∨ r.scale = s - (s - maxScale)
  plain : r.negativeZero = false

theorem mul_isFineProduct (ha : 0 < a.toRat) (hb : 0 < b.toRat) (hlt : a.toRat * b.toRat < 1)
    (h : a.mul b = .ok r) : IsFineProduct (a.toRat * b.toRat) (a.scale + b.scale) r := by
  have hnonzero {d : Decimal} (hd : 0 < d.toRat) : d.coefficient ≠ 0 := fun hzero =>
    hd.ne' (toRat_of_coefficient_eq_zero hzero)
  unfold mul at h
  rw [if_neg (not_or.2 ⟨hnonzero ha, hnonzero hb⟩)] at h
  dsimp only at h
  split at h
  · next hshort =>
    cases h
    obtain ⟨hsa, hsb, hscale⟩ := hshort
    refine ⟨?_, fun hs => ?_, .inl toRat_zero, rfl⟩
    · rw [toRat_zero, zero_sub, abs_neg]
      exact short_product_le hsa hsb hscale
    · unfold maxScale at hs
      omega
  · have hpos : 0 < a.coefficient * b.coefficient := by
      have hprod := mul_pos ha hb
      rw [toRat_mul_toRat, lt_div_iff₀ (by positivity), zero_mul] at hprod
      exact_mod_cast hprod
    obtain ⟨v, hv⟩ := Int.eq_ofNat_of_zero_le hpos.le
    rw [toRat_mul_toRat, hv, Int.cast_natCast] at hlt ⊢
    rw [hv] at h hpos
    generalize a.scale + b.scale = s at h hlt ⊢
    obtain ⟨q, t, hfit, hcoefficient, hscale, hplain⟩ := fitSigned_eq_ok h
    have hvlt : v < powTen s := by
      rw [div_lt_one (by positivity), ← powTen_cast] at hlt
      exact_mod_cast hlt
    obtain ⟨rfl, rfl⟩ := fit_of_lt_powTen hvlt hfit
    rw [Int.sign_eq_one_of_pos hpos, one_mul] at hcoefficient
    have hvalue : r.toRat =
        divHalfEven v (powTen (s - maxScale)) / 10 ^ (s - (s - maxScale)) := by
      rw [toRat, hcoefficient, hscale, powTen_cast, Int.cast_natCast]
    refine ⟨?_, fun hs => ?_, .inr hscale, hplain⟩
    · rw [hvalue]
      exact abs_divHalfEven_sub_le v s
    · rw [hvalue, Nat.sub_eq_zero_of_le hs, powTen_zero, divHalfEven_one, Nat.sub_zero]

/-- Products that are apart by more than a rounding are different or the same decimal. -/
theorem IsFineProduct.lt_or_same {x x' : ℚ} {s s' : ℕ} (h : IsFineProduct x s r)
    (h' : IsFineProduct x' s' r') (hgap : x + ulp / 2 < x') (hle : r.toRat ≤ r'.toRat) :
    r.toRat < r'.toRat ∨ r.expNonneg = r'.expNonneg := by
  rcases hle.lt_or_eq with hlt | heq
  · exact .inl hlt
  right
  have hmany : maxScale < s := by
    by_contra hfew
    have hexact := h.exact (Nat.not_lt.1 hfew)
    linarith [(abs_le.1 h'.close).1]
  have hmany' : maxScale < s' := by
    by_contra hfew
    have hexact := h'.exact (Nat.not_lt.1 hfew)
    linarith [(abs_le.1 h.close).2]
  rcases h.scale_eq with hzero | hscale
  · rw [expNonneg_zero hzero, expNonneg_zero (heq ▸ hzero)]
  rcases h'.scale_eq with hzero' | hscale'
  · rw [expNonneg_zero hzero', expNonneg_zero (heq.symm ▸ hzero')]
  have hscales : r.scale = r'.scale := by omega
  have hcoefficient : r.coefficient = r'.coefficient := by
    rw [toRat, toRat, hscales, div_left_inj' (powTen_cast_pos _).ne'] at heq
    exact_mod_cast heq
  have hplain : r.negativeZero = r'.negativeZero := h.plain.trans h'.plain.symm
  have hsame : r = r' := by
    cases r
    cases r'
    rw [Decimal.mk.injEq]
    exact ⟨hcoefficient, hscales, hplain⟩
  rw [hsame]

/-! ## The exponential of a product -/

/-- A number whose exponential has a coefficient is small. -/
theorem lt_of_expNonneg (hm : m.Valid) (h0 : 0 ≤ m.toRat) (h : m.expNonneg = .ok d) :
    m.toRat < 70 := by
  obtain ⟨hvalid, hwithin⟩ := expNonneg_within hm h0 h
  have hd : (d.toRat : ℝ) ≤ (bound : ℚ) - 1 := by
    exact_mod_cast (le_abs_self _).trans hvalid.abs_toRat_le
  rw [bound_eq] at hd
  push_cast at hd
  have hlt : (m.toRat : ℝ) < ((70 : ℚ) : ℝ) := by
    push_cast
    exact lt_of_exp_le (by linarith [hwithin.ge])
  exact_mod_cast hlt

/-- An exponent of more than a thousandth leaves the products apart. -/
theorem product_add_le (hk : 1 / 1000 ≤ k.toRat) (hl : 0 < l.toRat)
    (hgap : l.toRat + 539 / 10 ^ 22 ≤ l'.toRat) (hm : l.mul k = .ok m) (hm' : l'.mul k = .ok m')
    (h70 : m'.toRat ≤ 70) : m.toRat + 1 / 10 ^ 25 ≤ m'.toRat := by
  have hclose := mul_close hm
  have hclose' := mul_close hm'
  have hl' : 0 < l'.toRat := by linarith
  have hk0 : 0 < k.toRat := by linarith
  have hprod := mul_pos hl hk0
  have hstep : 539 / 10 ^ 22 * (1 / 1000) ≤ (l'.toRat - l.toRat) * k.toRat :=
    mul_le_mul (by linarith) hk (by norm_num) (by linarith)
  rw [Close, abs_of_pos hprod, ulp] at hclose
  rw [Close, abs_of_pos (mul_pos hl' hk0), ulp] at hclose'
  have hle : l.toRat * k.toRat ≤ l'.toRat * k.toRat :=
    mul_le_mul_of_nonneg_right (by linarith) hk0.le
  rw [sub_mul] at hstep
  generalize l.toRat * k.toRat = x at hclose hprod hstep hle
  generalize l'.toRat * k.toRat = x' at hclose' hstep hle
  have hx' : x' ≤ 72 := by
    have hmax : Max.max 1 x' ≤ 1 + x' := max_le (by linarith) (by linarith)
    linarith [(abs_le.1 hclose').1]
  have hmax : Max.max 1 x ≤ 72 := max_le (by norm_num) (by linarith)
  have hmax' : Max.max 1 x' ≤ 72 := max_le (by norm_num) hx'
  linarith [(abs_le.1 hclose).2, (abs_le.1 hclose').1]

/-- The exponentials of the products of an exponent with two logarithms that are apart. -/
theorem expNonneg_product_mono (hk : 1 / 10 ^ 9 ≤ k.toRat) (hl : 0 < l.toRat)
    (hgap : l.toRat + 539 / 10 ^ 22 ≤ l'.toRat) (hl68 : l'.toRat ≤ 68) (hm : l.mul k = .ok m)
    (hm' : l'.mul k = .ok m') (h : m.expNonneg = .ok d) (h' : m'.expNonneg = .ok d') :
    d.toRat ≤ d'.toRat := by
  have hk0 : 0 < k.toRat := by linarith
  have hl' : 0 < l'.toRat := by linarith
  have hm0 : 0 ≤ m.toRat := mul_nonneg_of_nonneg hm hl.le hk0.le
  have hm0' : 0 ≤ m'.toRat := mul_nonneg_of_nonneg hm' hl'.le hk0.le
  rcases le_total (1 / 1000) k.toRat with hlarge | hsmall
  · exact expNonneg_mono_of_add_le (mul_valid hm) (mul_valid hm') hm0
      (product_add_le hlarge hl hgap hm hm' (lt_of_expNonneg (mul_valid hm') hm0' h').le) h h'
  · have hle' : l'.toRat * k.toRat ≤ 68 * (1 / 1000) := mul_le_mul hl68 hsmall hk0.le (by norm_num)
    have hle : l.toRat * k.toRat ≤ l'.toRat * k.toRat :=
      mul_le_mul_of_nonneg_right (by linarith) hk0.le
    have hfine := mul_isFineProduct hl hk0 (by linarith) hm
    have hfine' := mul_isFineProduct hl' hk0 (by linarith) hm'
    have hstep : 539 / 10 ^ 22 * (1 / 10 ^ 9) ≤ (l'.toRat - l.toRat) * k.toRat :=
      mul_le_mul (by linarith) hk (by norm_num) (by linarith)
    have hhalf : m'.toRat ≤ 1 / 2 := by
      have hclose := (abs_le.1 hfine'.close).2
      rw [ulp] at hclose
      linarith
    rcases hfine.lt_or_same hfine' (by rw [ulp]; linarith)
      (mul_mono hl.le hk0.le (by linarith) le_rfl hm hm') with hlt | hsame
    · exact expNonneg_mono_of_le_half (mul_valid hm) (mul_valid hm') hm0 hlt hhalf h h'
    · obtain rfl := Except.ok.inj (h.symm.trans (hsame.trans h'))
      exact le_rfl

/-! ## Both signs -/

theorem neg_mul_eq_ok (h : a.mul b = .ok r) : (-a).mul b = .ok (-r) := by
  have hneg : (-a).coefficient = -a.coefficient := rfl
  have hscale : (-a).scale = a.scale := rfl
  have hmagnitude : (-a).magnitude = a.magnitude := Int.natAbs_neg _
  unfold mul at h ⊢
  rw [hneg, hscale, hmagnitude]
  split at h
  · next hzero =>
    cases h
    rw [if_pos (hzero.imp_left neg_eq_zero.2)]
    rfl
  · next hnonzero =>
    rw [if_neg (mt (Or.imp_left neg_eq_zero.1) hnonzero)]
    dsimp only at h ⊢
    split at h
    · next hshort =>
      cases h
      rw [if_pos hshort]
      rfl
    · next hlong =>
      rw [if_neg hlong, neg_mul]
      unfold fitSigned at h ⊢
      obtain ⟨⟨q, s⟩, hfit, h⟩ := Fault.bind_eq_ok.1 h
      cases h
      rw [Int.natAbs_neg, hfit, Int.sign_neg]
      show Except.ok _ = Except.ok _
      rw [neg_mul]
      rfl

/-- The exponential of a number that is not positive is nearest to one over that of its size. -/
theorem exp_nearest_inverse (hm : m.Valid) (h0 : m.toRat ≤ 0) (h : m.exp = .ok r) :
    ∃ d, (-m).expNonneg = .ok d ∧ 1 / 2 ≤ d.toRat ∧ r.Nearest (1 / d.toRat) := by
  unfold exp at h
  split at h
  · next hneg =>
    obtain ⟨d, hd, hdiv⟩ := Fault.bind_eq_ok.1 h
    have hhalf := (inverts hm hneg hd).half_le
    have hnearest := div_nearest hdiv valid_one (by rw [toRat_one]; exact zero_le_one)
      (by linarith)
    rw [toRat_one] at hnearest
    exact ⟨d, hd, hhalf, hnearest⟩
  · next hpos =>
    have hzero : m.toRat = 0 := le_antisymm h0 (toRat_nonneg_iff.2 (Int.not_lt.1 hpos))
    rw [expNonneg_zero hzero] at h
    cases h
    refine ⟨one, expNonneg_zero (by rw [toRat_neg, hzero, neg_zero]), ?_, ?_⟩
    · rw [toRat_one]
      norm_num
    · rw [toRat_one, div_one]
      exact ⟨1, 0, .exact (by norm_num), by decide, by decide, by norm_num⟩

/-! ## Powers -/

/-- The logarithms of numbers that are apart. -/
theorem Apart.log_add_le {x y : ℚ} (h : Apart x y) (hx : 0 < x) :
    Real.log x + 5399 / 10 ^ 23 ≤ Real.log y := by
  have hx' : (0 : ℝ) < x := by exact_mod_cast hx
  have hle : ((x * (1 + separation) : ℚ) : ℝ) ≤ y := by exact_mod_cast h
  rw [separation] at hle
  push_cast at hle
  have hlog := Real.log_le_log (by positivity) hle
  rw [Real.log_mul hx'.ne' (by norm_num)] at hlog
  have hstep := Real.one_sub_inv_le_log_of_pos (show (0 : ℝ) < 1 + 54 / 10 ^ 21 by norm_num)
  have hvalue : (5399 / 10 ^ 23 : ℝ) ≤ 1 - (1 + 54 / 10 ^ 21)⁻¹ := by norm_num
  linarith

/-- The computed logarithms are apart as well. -/
theorem ln_add_le (hb : b.Valid) (hb' : b'.Valid) (h0 : 0 < b.toRat)
    (hapart : Apart b.toRat b'.toRat) (hl : b.ln = .ok l) (hl' : b'.ln = .ok l') :
    l.toRat + 539 / 10 ^ 22 ≤ l'.toRat := by
  obtain ⟨_, hln, -, hclose⟩ := exists_ln hb h0
  obtain ⟨_, hln', -, hclose'⟩ := exists_ln hb' (h0.trans (hapart.lt h0))
  obtain rfl := Except.ok.inj (hl.symm.trans hln)
  obtain rfl := Except.ok.inj (hl'.symm.trans hln')
  have hlog := Apart.log_add_le hapart h0
  have hreal : ((l.toRat + 539 / 10 ^ 22 : ℚ) : ℝ) ≤ l'.toRat := by
    push_cast
    linarith [(abs_le.1 hclose).2, (abs_le.1 hclose').1]
  exact_mod_cast hreal

theorem abs_ln_le (hb : b.Valid) (h0 : 0 < b.toRat) (hl : b.ln = .ok l) : |l.toRat| ≤ 68 := by
  obtain ⟨_, hln, -, hclose⟩ := exists_ln hb h0
  obtain rfl := Except.ok.inj (hl.symm.trans hln)
  have hlog := abs_log_le hb h0
  have hreal : |(l.toRat : ℝ)| ≤ ((68 : ℚ) : ℝ) := by
    push_cast
    linarith [abs_sub_abs_le_abs_sub (l.toRat : ℝ) (Real.log b.toRat)]
  exact_mod_cast hreal

theorem ln_one : one.ln = .ok zero := by
  unfold ln
  exact if_pos rfl

/-- The way of a base below one: its logarithm is negative, and its power is nearest to one over the
exponential of the size of the exponent. -/
theorem exp_ln_nearest_inverse (hb : b.Valid) (h0 : 0 < b.toRat) (hbelow : Apart b.toRat 1)
    (hk : 0 < k.toRat) (h : (do exp (← (← ln b).mul k)) = .ok r) :
    ∃ l m d, b.ln = .ok l ∧ l.toRat + 539 / 10 ^ 22 ≤ 0 ∧ (-l).mul k = .ok m ∧
      m.expNonneg = .ok d ∧ 1 / 2 ≤ d.toRat ∧ r.Nearest (1 / d.toRat) := by
  obtain ⟨l, hl, h⟩ := Fault.bind_eq_ok.1 h
  obtain ⟨m, hm, h⟩ := Fault.bind_eq_ok.1 h
  have hneg := ln_add_le hb valid_one h0 (by rwa [toRat_one]) hl ln_one
  rw [toRat_zero] at hneg
  have hsize := neg_mul_eq_ok hm
  have hm0 := mul_nonneg_of_nonneg hsize (by rw [toRat_neg]; linarith) hk.le
  rw [toRat_neg] at hm0
  obtain ⟨d, hd, hhalf, hnear⟩ := exp_nearest_inverse (mul_valid hm) (by linarith) h
  exact ⟨l, -m, d, hl, hneg, hsize, hd, hhalf, hnear⟩

/-- On which side of one two bases are, and that they are apart from it too. -/
inductive SameSide (b b' : Decimal) : Prop
  | above (h : Apart 1 b.toRat)
  | below (h : Apart b'.toRat 1)

theorem exp_ln_mono (hb : b.Valid) (hb' : b'.Valid) (h0 : 0 < b.toRat)
    (hapart : Apart b.toRat b'.toRat) (hside : SameSide b b') (hk : 1 / 10 ^ 9 ≤ k.toRat)
    (h : (do exp (← (← ln b).mul k)) = .ok r) (h' : (do exp (← (← ln b').mul k)) = .ok r') :
    r.toRat ≤ r'.toRat := by
  have hlt := hapart.lt h0
  have h0' : 0 < b'.toRat := h0.trans hlt
  have hk0 : 0 < k.toRat := by linarith
  cases hside with
  | above habove =>
    obtain ⟨l, hl, h⟩ := Fault.bind_eq_ok.1 h
    obtain ⟨l', hl', h'⟩ := Fault.bind_eq_ok.1 h'
    obtain ⟨m, hm, h⟩ := Fault.bind_eq_ok.1 h
    obtain ⟨m', hm', h'⟩ := Fault.bind_eq_ok.1 h'
    have hgap := ln_add_le hb hb' h0 hapart hl hl'
    have hpos := ln_add_le valid_one hb
      (by rw [toRat_one]; exact zero_lt_one) (by rwa [toRat_one]) ln_one hl
    rw [toRat_zero] at hpos
    have hexp {x y : Decimal} (hx : 0 ≤ x.toRat) (hy : x.exp = .ok y) : x.expNonneg = .ok y := by
      unfold exp at hy
      rwa [if_neg (Int.not_lt.2 (toRat_nonneg_iff.1 hx))] at hy
    exact expNonneg_product_mono hk (by linarith) hgap
      ((le_abs_self _).trans (abs_ln_le hb' h0' hl')) hm hm'
      (hexp (mul_nonneg_of_nonneg hm (by linarith) hk0.le) h)
      (hexp (mul_nonneg_of_nonneg hm' (by linarith) hk0.le) h')
  | below hbelow =>
    have hbelow' : Apart b.toRat 1 := hapart.trans_le (hbelow.lt h0').le
    obtain ⟨l, m, d, hl, -, hm, hd, hhalf, hnear⟩ := exp_ln_nearest_inverse hb h0 hbelow' hk0 h
    obtain ⟨l', m', d', hl', hneg, hm', hd', hhalf', hnear'⟩ :=
      exp_ln_nearest_inverse hb' h0' hbelow hk0 h'
    have hgap := ln_add_le hb hb' h0 hapart hl hl'
    -- the sizes of the exponents are in the other order, and so are their exponentials
    have hle := expNonneg_product_mono hk (by rw [toRat_neg]; linarith)
      (by rw [toRat_neg, toRat_neg]; linarith)
      (by rw [toRat_neg]; exact (neg_le_abs _).trans (abs_ln_le hb h0 hl)) hm' hm hd' hd
    exact hnear.mono hnear' (one_div_nonneg.2 (by linarith))
      (one_div_le_one_div_of_le (by linarith) hle)

/-- No power of a base below one is far above one. -/
theorem pow_le_two (hb : b.Valid) (h0 : 0 < b.toRat) (hbelow : Apart b.toRat 1)
    (hk : 0 < k.toRat) (h : b.pow k = .ok r) : r.toRat ≤ 2 := by
  have h1 := hbelow.lt h0
  by_cases hk1 : k.toRat = 1
  · obtain ⟨_, hr, -, hvalue⟩ := pow_trivial (.inr (.inr hk1)) hk hb
    obtain rfl := Except.ok.inj (h.symm.trans hr)
    rw [hk1, Rat.cast_one, Real.rpow_one] at hvalue
    rw [Rat.cast_injective hvalue]
    linarith
  rw [pow_eq h0.ne' h1.ne hk hk1] at h
  split at h
  · split at h
    · cases h
    · next hn =>
      have hn' : k.normalize.magnitude < 2 ^ 32 := Nat.not_le.1 hn
      have hclose := (powNat_close hb hn' h).2
      rw [abs_of_pos h0, max_eq_left h1.le, one_pow, mul_one, ulp] at hclose
      have hcast : (k.normalize.magnitude : ℚ) ≤ 4294967296 := by exact_mod_cast hn'.le
      have hpow : b.toRat ^ k.normalize.magnitude ≤ 1 := pow_le_one₀ h0.le h1.le
      linarith [(abs_le.1 hclose).2]
  · obtain ⟨l, m, d, -, -, -, -, hhalf, hnear⟩ :=
      exp_ln_nearest_inverse hb h0 hbelow (by rwa [toRat_normalize]) h
    have htwo : (ofInt 2).Valid := valid_ofInt (by decide)
    have hinv : 1 / d.toRat ≤ (ofInt 2).toRat := by
      rw [toRat_ofInt, div_le_iff₀ (by linarith)]
      push_cast
      linarith
    have hle := (hnear.rounds (one_div_nonneg.2 (by linarith))).le htwo hinv
    rwa [toRat_ofInt] at hle

/-- The powers of two bases that are apart, and both above one or both below, are in their order. -/
theorem pow_mono (hb : b.Valid) (hb' : b'.Valid) (h0 : 0 < b.toRat)
    (hapart : Apart b.toRat b'.toRat) (hside : SameSide b b') (hk : 1 / 10 ^ 9 ≤ k.toRat)
    (h : b.pow k = .ok r) (h' : b'.pow k = .ok r') : r.toRat ≤ r'.toRat := by
  have hlt := hapart.lt h0
  have hk0 : 0 < k.toRat := by linarith
  by_cases hk1 : k.toRat = 1
  · obtain ⟨_, hr, -, hvalue⟩ := pow_trivial (.inr (.inr hk1)) hk0 hb
    obtain ⟨_, hr', -, hvalue'⟩ := pow_trivial (.inr (.inr hk1)) hk0 hb'
    obtain rfl := Except.ok.inj (h.symm.trans hr)
    obtain rfl := Except.ok.inj (h'.symm.trans hr')
    rw [hk1, Rat.cast_one, Real.rpow_one] at hvalue hvalue'
    rw [Rat.cast_injective hvalue, Rat.cast_injective hvalue']
    exact hlt.le
  have hne1 : b.toRat ≠ 1 ∧ b'.toRat ≠ 1 := by
    cases hside with
    | above habove =>
      have hone := habove.lt zero_lt_one
      exact ⟨hone.ne', (hone.trans hlt).ne'⟩
    | below hbelow =>
      have hone := hbelow.lt (h0.trans hlt)
      exact ⟨(hlt.trans hone).ne, hone.ne⟩
  rw [pow_eq h0.ne' hne1.1 hk0 hk1] at h
  rw [pow_eq (h0.trans hlt).ne' hne1.2 hk0 hk1] at h'
  split at h
  · next hwhole =>
    rw [if_pos hwhole] at h'
    split at h
    · cases h
    · next hn =>
      rw [if_neg hn] at h'
      have hn' : k.normalize.magnitude < 2 ^ 32 := Nat.not_le.1 hn
      cases hside with
      | above habove =>
        exact powNat_mono_of_one_le hb hb' (habove.lt zero_lt_one).le hapart hn' h h'
      | below hbelow =>
        exact powNat_mono_of_lt_one hb hb' h0 hapart (hbelow.lt (h0.trans hlt)) hn' h h'
  · next hfraction =>
    rw [if_neg hfraction] at h'
    exact exp_ln_mono hb hb' h0 hapart hside (by rwa [toRat_normalize]) h h'

end Decimal
end BondingCurve
