import BondingCurve.Proofs.Decimal.Rounding

/-!
# No decimal lies between a number and its rounding

How many decimals a result keeps depends on its size, so decimals have no single grid. Still, what
an operation makes of an exact result `x` is on the same side as `x` of every decimal that there
is (`Decimal.Rounds`): the result is exact, or it has all 28 decimals, or so many digits that one
more would be too many. Comparisons with a rounded result are comparisons with the exact one.

On its grid the exact result goes to the nearest decimal, half way to the even one
(`Decimal.Nearest`). That keeps the order of any two results (`Nearest.mono`): a greater one has no
more decimals, and between two grids lies the bound of coefficients, which rounding to the coarser
grid reaches and rounding to the finer one does not.
-/

namespace BondingCurve
namespace Decimal

/-- `r` is what rounding makes of the number `x`: no valid decimal lies between the two. -/
structure Rounds (r : Decimal) (x : ℚ) : Prop where
  le : ∀ {d : Decimal}, d.Valid → x ≤ d.toRat → r.toRat ≤ d.toRat
  ge : ∀ {d : Decimal}, d.Valid → d.toRat ≤ x → d.toRat ≤ r.toRat

theorem powTen_cast (n : ℕ) : (powTen n : ℚ) = 10 ^ n := Nat.cast_pow 10 n

theorem valid_ofInt {n : ℤ} (h : n.natAbs < bound) : (ofInt n).Valid where
  coefficient_lt := h
  scale_le := Nat.zero_le _
  coefficient_eq_zero := nofun

theorem valid_one : one.Valid := valid_ofInt (by decide)

theorem valid_of_inRange {n : ℤ} (h : Amount.InRange n) : (ofInt n).Valid := by
  have hb : bound = 79228162514264337593543950336 := by decide
  have hleast : (-9223372036854775808 : ℤ) ≤ n := h.1
  have hgreatest : n ≤ (9223372036854775807 : ℤ) := h.2
  exact valid_ofInt (by omega)

/-- An exact result that is a valid decimal is not rounded. -/
theorem Rounds.toRat_eq {r d : Decimal} {x : ℚ} (h : r.Rounds x) (hd : d.Valid)
    (hx : d.toRat = x) : r.toRat = x :=
  le_antisymm (hx ▸ h.le hd hx.ge) (hx ▸ h.ge hd hx.le)

theorem Rounds.nonneg {r : Decimal} {x : ℚ} (h : r.Rounds x) (hx : 0 ≤ x) : 0 ≤ r.toRat := by
  have hle := h.ge (valid_ofInt (n := 0) (by decide))
  rw [toRat_ofInt, Int.cast_zero] at hle
  exact hle hx

theorem Rounds.max_zero {r : Decimal} {x : ℚ} (h : r.Rounds x) (hx : 0 ≤ x) :
    (r.max zero).Rounds x := by
  have hsame : (r.max zero).toRat = r.toRat := by
    rw [toRat_max, toRat_zero, max_eq_left (h.nonneg hx)]
  exact ⟨fun hd hle => hsame ▸ h.le hd hle, fun hd hle => hsame ▸ h.ge hd hle⟩

/-- What is strictly below a rounding is strictly below the number itself. -/
theorem Rounds.lt {r d : Decimal} {x : ℚ} (h : r.Rounds x) (hd : d.Valid) (hlt : d < r) :
    d.toRat < x := by
  by_contra hle
  exact (h.le hd (le_of_not_gt hle)).not_gt (toRat_lt_toRat.2 hlt)

theorem Rounds.gt {r d : Decimal} {x : ℚ} (h : r.Rounds x) (hd : d.Valid) (hlt : r < d) :
    x < d.toRat := by
  by_contra hle
  exact (h.ge hd (le_of_not_gt hle)).not_gt (toRat_lt_toRat.2 hlt)

/-- A whole number that is not above a number is not above its rounding. -/
theorem Rounds.le_floor {r : Decimal} {x : ℚ} (h : r.Rounds x) {n : ℤ}
    (hn : Amount.InRange n) (hx : n ≤ x) : n ≤ ⌊r.toRat⌋ := by
  have hle := h.ge (valid_of_inRange hn)
  rw [toRat_ofInt] at hle
  exact Int.le_floor.2 (hle hx)

/-- A whole number that is not below a number is not below its rounding. -/
theorem Rounds.ceil_le {r : Decimal} {x : ℚ} (h : r.Rounds x) {n : ℤ}
    (hn : Amount.InRange n) (hx : x ≤ n) : ⌈r.toRat⌉ ≤ n := by
  have hle := h.le (valid_of_inRange hn)
  rw [toRat_ofInt] at hle
  exact Int.ceil_le.2 (hle hx)

/-- A rounding that is cut off is next to the number, or the number itself. -/
theorem Rounds.floor_near {r : Decimal} {x : ℚ} (h : r.Rounds x)
    (hin : Amount.InRange ⌊r.toRat⌋) : ⌊x⌋ ≤ ⌊r.toRat⌋ ∧ ⌊r.toRat⌋ ≤ ⌈x⌉ := by
  have hfloor := Int.floor_le r.toRat
  have hlt := Int.lt_floor_add_one r.toRat
  generalize ⌊r.toRat⌋ = n at hin hfloor hlt
  have hvalid (m : ℤ) (hm : m = n + 1 ∨ m = n - 1) : (ofInt m).Valid := by
    have hb : bound = 79228162514264337593543950336 := by decide
    have hleast : (-9223372036854775808 : ℤ) ≤ n := hin.1
    have hgreatest : n ≤ (9223372036854775807 : ℤ) := hin.2
    exact valid_ofInt (by omega)
  constructor
  · -- a whole number above the cut rounding is above the number
    by_contra hle
    have hge := h.ge (hvalid (n + 1) (.inl rfl))
    rw [toRat_ofInt] at hge
    have hr := hge (Int.le_floor.1 (Int.add_one_le_iff.2 (Int.not_le.1 hle)))
    push_cast at hr
    linarith
  · by_contra hle
    have hge := h.le (hvalid (n - 1) (.inr rfl))
    rw [toRat_ofInt] at hge
    have hr := hge (Int.ceil_le.1 (Int.le_sub_one_iff.2 (Int.not_le.1 hle)))
    push_cast at hr
    linarith

/-! ## Rounded coefficients -/

/-- `q` units of the last of `s` decimals are `x`, or what is left of it when it is rounded half to
even on the finest grid there is, or on the finest one that a coefficient of this size leaves. -/
inductive Rounded (x : ℚ) (q s : ℕ) : Prop
  | exact (h : (q : ℚ) = x * 10 ^ s)
  | finest (hs : maxScale ≤ s) (heven : HalfEven (x * 10 ^ s) q)
  | full (heven : HalfEven (x * 10 ^ s) q) (hx : (bound : ℚ) - 1 / 2 ≤ x * 10 ^ (s + 1))

/-- A decimal with no more decimals than `s` is a whole number of units of the last of `s`. -/
theorem toRat_mul_pow {d : Decimal} {s : ℕ} (h : d.scale ≤ s) :
    d.toRat * 10 ^ s = ((d.coefficient * 10 ^ (s - d.scale) : ℤ) : ℚ) := by
  have hsplit : (10 : ℚ) ^ s = 10 ^ d.scale * 10 ^ (s - d.scale) := by
    rw [← pow_add, Nat.add_sub_cancel' h]
  have hne : (10 : ℚ) ^ d.scale ≠ 0 := by positivity
  rw [toRat, powTen_cast, hsplit, Int.cast_mul, Int.cast_pow]
  push_cast
  field_simp

/-- A valid decimal with more than `s` decimals is below `bound` units of the decimal after the
`s`th. -/
theorem toRat_mul_pow_lt {d : Decimal} {s : ℕ} (hd : d.Valid) (h : s < d.scale) :
    d.toRat * 10 ^ (s + 1) ≤ (bound : ℚ) - 1 := by
  have hcoefficient : (d.coefficient : ℚ) ≤ (bound : ℚ) - 1 := by
    have hlt := hd.coefficient_lt
    have hle : d.coefficient ≤ (bound : ℤ) - 1 := by omega
    exact_mod_cast hle
  have hbound : (0 : ℚ) ≤ (bound : ℚ) - 1 := by
    have h1 : 1 ≤ bound := by decide
    have h1' : (1 : ℚ) ≤ bound := by exact_mod_cast h1
    linarith
  have hpow : (10 : ℚ) ^ (s + 1) ≤ 10 ^ d.scale := pow_le_pow_right₀ (by norm_num) h
  rw [toRat, powTen_cast, div_mul_eq_mul_div, div_le_iff₀ (by positivity)]
  calc (d.coefficient : ℚ) * 10 ^ (s + 1)
      ≤ ((bound : ℚ) - 1) * 10 ^ (s + 1) := by gcongr
    _ ≤ ((bound : ℚ) - 1) * 10 ^ d.scale := by gcongr

section Rounded

variable {x : ℚ} {q s : ℕ} {d : Decimal}

theorem Near.toRat_le (h : Near (x * 10 ^ s) q) (hscale : d.scale ≤ s) (hx : 0 ≤ x)
    (hle : x ≤ d.toRat) : (q : ℚ) / 10 ^ s ≤ d.toRat := by
  have hpow : (0 : ℚ) < 10 ^ s := by positivity
  rw [div_le_iff₀ hpow, toRat_mul_pow hscale]
  have hunits : x * 10 ^ s ≤ ((d.coefficient * 10 ^ (s - d.scale) : ℤ) : ℚ) := by
    rw [← toRat_mul_pow hscale]
    exact mul_le_mul_of_nonneg_right hle hpow.le
  -- the number of units is a natural one
  have hnonneg : 0 ≤ d.coefficient * 10 ^ (s - d.scale) := by
    have := (mul_nonneg hx hpow.le).trans hunits
    exact_mod_cast this
  obtain ⟨n, hn⟩ := Int.eq_ofNat_of_zero_le hnonneg
  rw [hn] at hunits ⊢
  exact_mod_cast h.le (by exact_mod_cast hunits)

theorem Near.le_toRat (h : Near (x * 10 ^ s) q) (hscale : d.scale ≤ s) (hle : d.toRat ≤ x) :
    d.toRat ≤ (q : ℚ) / 10 ^ s := by
  have hpow : (0 : ℚ) < 10 ^ s := by positivity
  rw [le_div_iff₀ hpow, toRat_mul_pow hscale]
  have hunits : ((d.coefficient * 10 ^ (s - d.scale) : ℤ) : ℚ) ≤ x * 10 ^ s := by
    rw [← toRat_mul_pow hscale]
    exact mul_le_mul_of_nonneg_right hle hpow.le
  rcases Int.le_total (d.coefficient * 10 ^ (s - d.scale)) 0 with hneg | hpos
  · exact (by exact_mod_cast hneg : _ ≤ (0 : ℚ)).trans (Nat.cast_nonneg q)
  · obtain ⟨n, hn⟩ := Int.eq_ofNat_of_zero_le hpos
    rw [hn] at hunits ⊢
    exact_mod_cast h.ge (by exact_mod_cast hunits)

/-- The bound ends in a six: what reaches it and loses its last digit is rounded up. -/
theorem HalfEven.bound_le (h : HalfEven (x * 10 ^ s) q)
    (hx : (bound : ℚ) - 1 / 2 ≤ x * 10 ^ (s + 1)) : bound ≤ q * 10 := by
  have hb : bound = 79228162514264337593543950336 := by decide
  have hge := h.ge
  rw [pow_succ, ← mul_assoc] at hx
  have hq : (bound : ℚ) * 2 ≤ q * 20 + 11 := by linarith
  have hq' : bound * 2 ≤ q * 20 + 11 := by exact_mod_cast hq
  omega

theorem Rounded.le (h : Rounded x q s) (hx : 0 ≤ x) (hd : d.Valid) (hle : x ≤ d.toRat) :
    (q : ℚ) / 10 ^ s ≤ d.toRat := by
  have hpow : (0 : ℚ) < 10 ^ s := by positivity
  have hunits : 0 ≤ x * 10 ^ s := mul_nonneg hx hpow.le
  cases h with
  | exact h =>
    rw [h, mul_div_cancel_right₀ _ hpow.ne']
    exact hle
  | finest hs heven => exact (heven.near hunits).toRat_le (hd.scale_le.trans hs) hx hle
  | full heven hbound =>
    rcases Nat.lt_or_ge s d.scale with hlt | hge
    · -- with more decimals, a decimal as large as `x` would not be valid
      exfalso
      have hsmall := toRat_mul_pow_lt hd hlt
      have hmul : x * 10 ^ (s + 1) ≤ d.toRat * 10 ^ (s + 1) :=
        mul_le_mul_of_nonneg_right hle (by positivity)
      linarith
    · exact (heven.near hunits).toRat_le hge hx hle

theorem Rounded.ge (h : Rounded x q s) (hx : 0 ≤ x) (hd : d.Valid) (hle : d.toRat ≤ x) :
    d.toRat ≤ (q : ℚ) / 10 ^ s := by
  have hpow : (0 : ℚ) < 10 ^ s := by positivity
  have hunits : 0 ≤ x * 10 ^ s := mul_nonneg hx hpow.le
  cases h with
  | exact h =>
    rw [h, mul_div_cancel_right₀ _ hpow.ne']
    exact hle
  | finest hs heven => exact (heven.near hunits).le_toRat (hd.scale_le.trans hs) hle
  | full heven hbound =>
    rcases Nat.lt_or_ge s d.scale with hlt | hge
    · -- with more decimals, a valid decimal is smaller than the result
      have hsmall := toRat_mul_pow_lt hd hlt
      have hq : (bound : ℚ) ≤ q * 10 := by exact_mod_cast heven.bound_le hbound
      rw [le_div_iff₀ hpow]
      rw [pow_succ] at hsmall
      linarith
    · exact (heven.near hunits).le_toRat hge hle

/-- A decimal with a rounded coefficient. -/
theorem Rounded.rounds {r : Decimal} (h : Rounded x q s) (hx : 0 ≤ x)
    (hr : r.toRat = q / 10 ^ s) : r.Rounds x where
  le hd hle := hr ▸ h.le hx hd hle
  ge hd hle := hr ▸ h.ge hx hd hle

/-! ## Rounding keeps the order -/

/-- A coefficient under the bound that cannot be had with one decimal more. -/
structure Finest (x : ℚ) (q s : ℕ) : Prop where
  halfEven : HalfEven (x * 10 ^ s) q
  lt_bound : q < bound
  scale_le : s ≤ maxScale
  finest : s < maxScale → (bound : ℚ) - 1 / 2 ≤ x * 10 ^ (s + 1)

/-- A greater number has no more decimals when it is rounded, and on one grid the rounding keeps
the order. Between two grids lies the bound. -/
theorem Finest.mono {x' : ℚ} {q' s' : ℕ} (h : Finest x q s) (h' : Finest x' q' s')
    (hle : x ≤ x') : (q : ℚ) / 10 ^ s ≤ q' / 10 ^ s' := by
  have hb : bound = 79228162514264337593543950336 := by decide
  rcases lt_trichotomy s s' with hlt | rfl | hgt
  · -- the greater number would be rounded to the odd predecessor of the bound from half way
    exfalso
    have hfine := h.finest (hlt.trans_le h'.scale_le)
    have hpow : (10 : ℚ) ^ (s + 1) ≤ 10 ^ s' := pow_le_pow_right₀ (by norm_num) hlt
    have hx : 0 < x := by
      have hpos : 0 < x * 10 ^ (s + 1) := by
        refine lt_of_lt_of_le ?_ hfine
        rw [hb]
        norm_num
      exact pos_of_mul_pos_left hpos (by positivity)
    have hfine' : (bound : ℚ) - 1 / 2 ≤ x' * 10 ^ s' :=
      hfine.trans (mul_le_mul hle hpow (by positivity) (hx.le.trans hle))
    have hge := h'.halfEven.ge
    have hq' : (q' : ℚ) + 1 ≤ bound := by exact_mod_cast h'.lt_bound
    have heven := h'.halfEven.even (.inr (by linarith))
    have hlast : (q' : ℚ) + 1 = bound := by linarith
    have hlast' : q' + 1 = bound := by exact_mod_cast hlast
    omega
  · have hq : (q : ℚ) ≤ q' := by
      refine Nat.cast_le.2 (h.halfEven.mono h'.halfEven ?_)
      exact mul_le_mul_of_nonneg_right hle (by positivity)
    gcongr
  · -- the coarser rounding is at least the bound on the next grid, the finer one is below it
    have hbound := h'.halfEven.bound_le (h'.finest (hgt.trans_le h.scale_le))
    have hq : (q : ℚ) ≤ q' * 10 := by exact_mod_cast h.lt_bound.le.trans hbound
    have hpow : (10 : ℚ) ^ (s' + 1) ≤ 10 ^ s := pow_le_pow_right₀ (by norm_num) hgt
    calc (q : ℚ) / 10 ^ s ≤ q' * 10 / 10 ^ (s' + 1) := by gcongr
      _ = q' / 10 ^ s' := by rw [pow_succ, mul_div_mul_right _ _ (by norm_num)]

/-- An exact coefficient is a valid decimal, any other one is the finest. -/
theorem Rounded.exact_or_finest (h : Rounded x q s) (hq : q < bound) (hs : s ≤ maxScale) :
    (∃ d : Decimal, d.Valid ∧ d.toRat = x ∧ (q : ℚ) / 10 ^ s = x) ∨ Finest x q s := by
  cases h with
  | exact h =>
    have hx : (q : ℚ) / 10 ^ s = x := by rw [h, mul_div_cancel_right₀ _ (by positivity)]
    refine .inl ⟨{ coefficient := q, scale := s }, ⟨hq, hs, nofun⟩, ?_, hx⟩
    rw [toRat, powTen_cast, Int.cast_natCast, hx]
  | finest hle heven => exact .inr ⟨heven, hq, hs, fun hlt => absurd hle (Nat.not_le.2 hlt)⟩
  | full heven hbound => exact .inr ⟨heven, hq, hs, fun _ => hbound⟩

theorem Rounded.mono {x' : ℚ} {q' s' : ℕ} (h : Rounded x q s) (h' : Rounded x' q' s')
    (hq : q < bound) (hs : s ≤ maxScale) (hq' : q' < bound) (hs' : s' ≤ maxScale) (hx : 0 ≤ x)
    (hle : x ≤ x') : (q : ℚ) / 10 ^ s ≤ q' / 10 ^ s' := by
  -- no decimal lies between a number and its rounding, so an exact side is easy
  rcases h.exact_or_finest hq hs with ⟨d, hd, rfl, heq⟩ | hfinest
  · exact heq.trans_le (h'.ge (hx.trans hle) hd hle)
  · rcases h'.exact_or_finest hq' hs' with ⟨d, hd, rfl, heq⟩ | hfinest'
    · exact (h.le hx hd hle).trans_eq heq.symm
    · exact hfinest.mono hfinest' hle

end Rounded

/-- `r` is the number `x`, rounded half to even where it has to be rounded at all. -/
def Nearest (r : Decimal) (x : ℚ) : Prop :=
  ∃ q s, Rounded x q s ∧ q < bound ∧ s ≤ maxScale ∧ r.toRat = (q : ℚ) / 10 ^ s

theorem Nearest.rounds {r : Decimal} {x : ℚ} (h : r.Nearest x) (hx : 0 ≤ x) : r.Rounds x := by
  obtain ⟨q, s, hrounded, -, -, hr⟩ := h
  exact hrounded.rounds hx hr

theorem Nearest.mono {r r' : Decimal} {x x' : ℚ} (h : r.Nearest x) (h' : r'.Nearest x')
    (hx : 0 ≤ x) (hle : x ≤ x') : r.toRat ≤ r'.toRat := by
  obtain ⟨q, s, hrounded, hq, hs, hr⟩ := h
  obtain ⟨q', s', hrounded', hq', hs', hr'⟩ := h'
  rw [hr, hr']
  exact hrounded.mono hrounded' hq hs hq' hs' hx hle

/-- Zero is not rounded. -/
theorem nearest_zero : zero.Nearest 0 := ⟨0, 0, .exact (by simp), by decide, by decide, by simp⟩

/-! ## Sums and products -/

theorem divHalfEven_one (v : ℕ) : divHalfEven v 1 = v := by
  unfold divHalfEven
  simp [Nat.mod_one]

/-- The exact coefficient of `v` with `scale` decimals when `k` of them are dropped. -/
theorem dropped_eq {v scale k : ℕ} (hk : k ≤ scale) :
    (v : ℚ) / 10 ^ scale * 10 ^ (scale - k) = v / powTen k := by
  have hsplit : (10 : ℚ) ^ scale = 10 ^ (scale - k) * 10 ^ k := by
    rw [← pow_add, Nat.sub_add_cancel hk]
  rw [hsplit, powTen_cast]
  field_simp

theorem fit_rounded {v scale q s : ℕ} (h : fit v scale (scale - maxScale) = .ok (q, s)) :
    Rounded ((v : ℚ) / 10 ^ scale) q s ∧ q < bound ∧ s ≤ maxScale := by
  obtain ⟨k, hk, hleast, hlt, hfirst, hcase⟩ := fit_eq_ok h
  have hb : bound = 79228162514264337593543950336 := by decide
  have heven : HalfEven ((v : ℚ) / 10 ^ scale * 10 ^ (scale - k)) (divHalfEven v (powTen k)) := by
    rw [dropped_eq hk]
    exact divHalfEven_halfEven (powTen_pos k)
  rcases hcase with ⟨hbound, rfl, rfl⟩ | ⟨hbound, hks, rfl, rfl⟩
  · refine ⟨?_, hbound, by omega⟩
    rcases Nat.eq_or_lt_of_le hleast with heq | hgt
    · rcases Nat.eq_zero_or_pos k with rfl | hpos
      · -- nothing is dropped
        refine .exact ?_
        rw [dropped_eq hk, powTen_zero, divHalfEven_one, Nat.cast_one, div_one]
      · exact .finest (by omega) heven
    · -- one decimal more would have been too many
      obtain ⟨j, rfl⟩ : ∃ j, k = j + 1 := ⟨k - 1, by omega⟩
      have hprev : bound * powTen j ≤ v :=
        (Nat.le_div_iff_mul_le (powTen_pos j)).1 (hfirst hgt)
      refine .full heven ?_
      rw [show scale - (j + 1) + 1 = scale - j by omega, dropped_eq (by omega),
        le_div_iff₀ (powTen_cast_pos j)]
      have hprev' : (bound : ℚ) * powTen j ≤ v := by exact_mod_cast hprev
      have hpos := powTen_cast_pos j
      linarith
  · -- the rounded coefficient is the bound itself, and loses one decimal more
    refine ⟨?_, by rw [hb]; decide, by omega⟩
    have hlow : (bound : ℚ) - 1 / 2 ≤ (v : ℚ) / 10 ^ scale * 10 ^ (scale - k) := by
      have hreached : (bound : ℚ) ≤ divHalfEven v (powTen k) := by exact_mod_cast hbound
      linarith [heven.le]
    have hhigh : (v : ℚ) / 10 ^ scale * 10 ^ (scale - k) < bound := by
      rw [dropped_eq hk, div_lt_iff₀ (powTen_cast_pos k)]
      exact_mod_cast (Nat.div_lt_iff_lt_mul (powTen_pos k)).1 hlt
    obtain ⟨j, hj⟩ : ∃ j, scale - k = j + 1 := ⟨scale - k - 1, by omega⟩
    rw [hj, pow_succ, ← mul_assoc] at hlow hhigh
    rw [hj, Nat.add_sub_cancel]
    refine .full ?_ (by rwa [pow_succ, ← mul_assoc])
    rw [hb] at hlow hhigh ⊢
    push_cast at hlow hhigh
    have hten : 79228162514264337593543950336 / 10 + 1 = 7922816251426433759354395034 := by decide
    rw [hten]
    refine ⟨?_, ?_, ?_⟩
    · push_cast
      linarith
    · push_cast
      linarith
    · intro
      decide

/-- The exact product, in units of the last of all decimals of its factors. -/
theorem toRat_mul_toRat (a b : Decimal) :
    a.toRat * b.toRat = ((a.coefficient * b.coefficient : ℤ) : ℚ) / 10 ^ (a.scale + b.scale) := by
  rw [toRat, toRat, powTen_cast, powTen_cast, div_mul_div_comm, pow_add]
  push_cast
  rfl

/-- A positive coefficient is brought under the bound with as many decimals as it can keep. -/
theorem fitSigned_nearest {v : ℤ} {scale : ℕ} {r : Decimal}
    (h : fitSigned v scale (scale - maxScale) = .ok r) (hv : 0 < v) :
    r.Nearest ((v : ℚ) / 10 ^ scale) := by
  obtain ⟨n, rfl⟩ := Int.eq_ofNat_of_zero_le hv.le
  obtain ⟨q, s, hfit, hcoefficient, hscale, -⟩ := fitSigned_eq_ok h
  obtain ⟨hrounded, hq, hs⟩ := fit_rounded hfit
  refine ⟨q, s, hrounded, hq, hs, ?_⟩
  rw [toRat, hcoefficient, hscale, powTen_cast, Int.sign_eq_one_of_pos hv, one_mul,
    Int.cast_natCast]

theorem fitSigned_valid {v : ℤ} {scale : ℕ} {r : Decimal}
    (h : fitSigned v scale (scale - maxScale) = .ok r) : r.Valid := by
  obtain ⟨q, s, hfit, hcoefficient, rfl, hsign⟩ := fitSigned_eq_ok h
  obtain ⟨-, hq, hs⟩ := fit_rounded hfit
  refine ⟨?_, hs, fun hneg => by rw [hsign] at hneg; cases hneg⟩
  rw [hcoefficient, Int.natAbs_mul, Int.natAbs_natCast]
  have hone : v.sign.natAbs ≤ 1 := by rw [Int.natAbs_sign]; split <;> omega
  calc v.sign.natAbs * q ≤ 1 * q := Nat.mul_le_mul_right q hone
    _ < bound := by rwa [Nat.one_mul]

/-- A coefficient that is below the bound without its decimals can be brought under it. -/
theorem exists_fit {v scale least : ℕ} (hleast : least ≤ scale)
    (hv : v ≤ (bound - 1) * powTen scale) : ∃ q s, fit v scale least = .ok (q, s) := by
  have hb : bound = 79228162514264337593543950336 := by decide
  have hall : v / powTen scale < bound := by
    have := Nat.div_le_of_le_mul (Nat.mul_comm _ _ ▸ hv)
    omega
  unfold fit
  split
  · next hnone =>
    -- dropping all decimals would have been enough
    have := List.find?_eq_none.1 hnone scale (by rw [List.mem_range'_1]; omega)
    exact absurd (decide_eq_true hall) this
  · next k hk =>
    dsimp only
    split
    · exact ⟨_, _, rfl⟩
    · next hbound =>
      split
      · next heq =>
        subst heq
        have hle := divHalfEven_le (powTen_pos scale) hv
        omega
      · exact ⟨_, _, rfl⟩

/-- The product of two decimals that are not negative. -/
theorem mul_nearest {a b r : Decimal} (h : a.mul b = .ok r) (ha : 0 ≤ a.toRat)
    (hb : 0 ≤ b.toRat) : r.Nearest (a.toRat * b.toRat) := by
  have hx := mul_nonneg ha hb
  rw [toRat_nonneg_iff] at ha hb
  unfold mul at h
  split at h
  · next hzero =>
    -- nothing times anything is nothing
    cases h
    have hexact : a.toRat * b.toRat = 0 := by
      rcases hzero with h | h <;> simp [toRat_of_coefficient_eq_zero h]
    rw [hexact]
    exact nearest_zero
  · next hne =>
    dsimp only at h
    split at h
    · next hshort =>
      -- two short coefficients make less than half a unit of the last decimal
      cases h
      obtain ⟨hashort, hbshort, hscale⟩ := hshort
      have hproduct : ((a.coefficient * b.coefficient : ℤ) : ℚ) < 10 ^ 20 / 2 := by
        have hlt : a.magnitude * b.magnitude < shortBound * shortBound :=
          Nat.mul_lt_mul'' hashort hbshort
        have hbound : shortBound * shortBound * 2 ≤ 10 ^ 20 := by decide
        have hnat : a.coefficient * b.coefficient = ((a.magnitude * b.magnitude : ℕ) : ℤ) := by
          rw [magnitude, magnitude, ← Int.natAbs_mul,
            Int.natAbs_of_nonneg (Int.mul_nonneg ha hb)]
        rw [lt_div_iff₀ (by norm_num), hnat]
        exact_mod_cast (Nat.mul_lt_mul_of_pos_right hlt (by decide)).trans_le hbound
      have hsmall : a.toRat * b.toRat * 10 ^ maxScale < 1 / 2 := by
        rw [toRat_mul_toRat, div_mul_eq_mul_div, div_lt_iff₀ (by positivity)]
        calc ((a.coefficient * b.coefficient : ℤ) : ℚ) * 10 ^ maxScale
            < 10 ^ 20 / 2 * 10 ^ maxScale := by gcongr
          _ = 1 / 2 * 10 ^ 48 := by rw [maxScale]; norm_num
          _ ≤ 1 / 2 * 10 ^ (a.scale + b.scale) := by
            have hpow : (10 : ℚ) ^ 48 ≤ 10 ^ (a.scale + b.scale) :=
              pow_le_pow_right₀ (by norm_num) hscale
            linarith
      refine ⟨0, maxScale, .finest le_rfl ⟨?_, ?_, fun _ => rfl⟩, by decide, le_rfl, by simp⟩
      · rw [Nat.cast_zero]
        have hunits : 0 ≤ a.toRat * b.toRat * 10 ^ maxScale := mul_nonneg hx (by positivity)
        linarith
      · rw [Nat.cast_zero]
        linarith
    · rw [toRat_mul_toRat]
      have hpos : 0 < a.coefficient * b.coefficient :=
        (Int.mul_nonneg ha hb).lt_of_ne' (by simpa using hne)
      exact fitSigned_nearest h hpos

theorem mul_rounds {a b r : Decimal} (h : a.mul b = .ok r) (ha : 0 ≤ a.toRat)
    (hb : 0 ≤ b.toRat) : r.Rounds (a.toRat * b.toRat) :=
  (mul_nearest h ha hb).rounds (mul_nonneg ha hb)

theorem mul_valid {a b r : Decimal} (h : a.mul b = .ok r) : r.Valid := by
  unfold mul at h
  split at h
  · cases h
    exact valid_ofInt (by decide)
  · dsimp only at h
    split at h
    · cases h
      exact valid_ofInt (by decide)
    · exact fitSigned_valid h

/-- A product of decimals that are not negative exists unless it is too large. -/
theorem exists_mul {a b : Decimal} (ha : 0 ≤ a.toRat) (hb : 0 ≤ b.toRat)
    (hab : a.toRat * b.toRat ≤ (bound : ℚ) - 1) : ∃ r, a.mul b = .ok r := by
  have hvalue := toRat_mul_toRat a b
  rw [toRat_nonneg_iff] at ha hb
  unfold mul
  split
  · exact ⟨_, rfl⟩
  · dsimp only
    split
    · exact ⟨_, rfl⟩
    · obtain ⟨n, hn⟩ := Int.eq_ofNat_of_zero_le (Int.mul_nonneg ha hb)
      rw [hvalue, div_le_iff₀ (by positivity), hn] at hab
      have hone : ((bound - 1 : ℕ) : ℚ) = (bound : ℚ) - 1 := by
        rw [Nat.cast_sub (by decide), Nat.cast_one]
      have hlarge : n ≤ (bound - 1) * powTen (a.scale + b.scale) := by
        rw [← hone, ← powTen_cast] at hab
        exact_mod_cast hab
      obtain ⟨q, s, hfit⟩ := exists_fit (Nat.sub_le _ maxScale) hlarge
      rw [hn, fitSigned, Int.natAbs_natCast, hfit]
      exact ⟨_, rfl⟩

end Decimal
end BondingCurve
