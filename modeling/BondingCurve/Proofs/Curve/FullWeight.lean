import BondingCurve.Proofs.Curve.Evaluation

/-!
# A full weight makes the price flat

With a weight of one, no power is taken: an amount is worth its share of the other side of the
pool, `flat`. The decimals come close to that (`flatMargin`), so a result is at most one unit off,
and where the margin is less than one part in the side that the amount counts, it is exact unless
the flat result is a whole number that the decimals miss on the wrong side
(`convert_at_full_weight`). A share of one third is enough for that (`third_is_lost`).
-/

namespace BondingCurve
namespace Curve

open Outcome
open Decimal (ulp ulp_pos)

/-- The side of the pool that the given amount of a conversion counts. -/
def counted (direction : Direction) (mode : Mode) (balance supply : Amount) : Amount :=
  match direction, mode with
  | .buy, .market | .sell, .exact => balance
  | .sell, .market | .buy, .exact => supply

/-- The side of the pool that the result of a conversion counts. -/
def paired (direction : Direction) (mode : Mode) (balance supply : Amount) : Amount :=
  match direction, mode with
  | .buy, .market | .sell, .exact => supply
  | .sell, .market | .buy, .exact => balance

/-- What `amount` is worth at the flat price of a pool: `other` against `side`. -/
def flat (side other amount : Amount) : ℚ := other * amount / side

/-- How far the decimals are from a flat result, at most. -/
def flatMargin (side other amount : Amount) : ℚ := 4 * ulp * (other * (1 + amount / side))

/-- A decimal result lies on the side of the exact one where making it whole costs a unit. -/
def Misses : Mode → ℚ → ℚ → Prop
  | .market, result, exact => result < exact
  | .exact, result, exact => exact < result

/-- What a conversion at a flat price promises. -/
structure IsFlat (c : Conversion) (mode : Mode) (side other amount : Amount) : Prop where
  amount_eq : c.amount = mode.whole c.theoretical.toRat
  close : |c.theoretical.toRat - flat side other amount| ≤ flatMargin side other amount
  /-- The amount is at most one unit off. -/
  near : |c.amount - mode.whole (flat side other amount)| ≤ 1
  /-- In a pool that is not too large it is exact, but for whole results that the decimals miss. -/
  exact_iff : flatMargin side other amount * side < 1 →
    (c.amount = mode.whole (flat side other amount) ↔
      ¬(side ∣ other * amount ∧ Misses mode c.theoretical.toRat (flat side other amount)))
  /-- A whole result of a share that has no more than 28 decimals is exact. -/
  lossless : (∃ d : Decimal, d.Valid ∧ d.toRat = 1 + amount / side) → side ∣ other * amount →
    (c.amount : ℚ) = flat side other amount

/-! ## Made whole -/

section Whole

variable {mode : Mode} {x y : ℚ} {n : ℤ}

theorem whole_sub_whole_le (h : |x - y| < 1) : |mode.whole x - mode.whole y| ≤ 1 := by
  obtain ⟨hlow, hhigh⟩ := abs_lt.1 h
  rw [abs_le]
  cases mode with
  | market =>
    have hx : ⌊x⌋ < ⌊y⌋ + 2 := Int.floor_lt.2 (by push_cast; linarith [Int.lt_floor_add_one y])
    have hy : ⌊y⌋ < ⌊x⌋ + 2 := Int.floor_lt.2 (by push_cast; linarith [Int.lt_floor_add_one x])
    exact ⟨by dsimp only [Mode.whole]; omega, by dsimp only [Mode.whole]; omega⟩
  | exact =>
    have hx : ⌈y⌉ - 2 < ⌈x⌉ := Int.lt_ceil.2 (by push_cast; linarith [Int.ceil_lt_add_one y])
    have hy : ⌈x⌉ - 2 < ⌈y⌉ := Int.lt_ceil.2 (by push_cast; linarith [Int.ceil_lt_add_one x])
    exact ⟨by dsimp only [Mode.whole]; omega, by dsimp only [Mode.whole]; omega⟩

/-- Near a whole number, the result is that number unless it is missed. -/
theorem whole_eq_iff_of_near (h : |x - n| < 1) : mode.whole x = n ↔ ¬Misses mode x n := by
  obtain ⟨hlow, hhigh⟩ := abs_lt.1 h
  cases mode with
  | market =>
    rw [Misses, not_lt, Mode.whole, Int.floor_eq_iff]
    exact ⟨fun h => h.1, fun h => ⟨h, by linarith⟩⟩
  | exact =>
    rw [Misses, not_lt, Mode.whole, Int.ceil_eq_iff]
    exact ⟨fun h => h.2, fun h => ⟨by linarith, h⟩⟩

/-- A fraction that is not whole is at least one part away from the whole numbers next to it. -/
theorem whole_eq_of_not_dvd {m d : ℤ} (hd : 0 < d) (hdvd : ¬d ∣ m)
    (h : |x - m / d| < 1 / d) : mode.whole x = mode.whole ((m : ℚ) / d) := by
  have hd' : (0 : ℚ) < d := by exact_mod_cast hd
  obtain ⟨hlow, hhigh⟩ := abs_lt.1 h
  -- `m` lies strictly between two multiples of `d`
  have hmod := Int.emod_pos_of_not_dvd hdvd |>.resolve_left hd.ne'
  have hlt := Int.emod_lt_of_pos m hd
  have hdiv : m = d * (m / d) + m % d := (Int.mul_ediv_add_emod m d).symm
  generalize m / d = k at hdiv
  generalize m % d = r at hdiv hmod hlt
  have hvalue : (m : ℚ) / d = k + r / d := by
    rw [hdiv]
    push_cast
    field_simp
  have hr1 : (1 : ℚ) / d ≤ r / d := by
    gcongr
    exact_mod_cast hmod
  have hr2 : (r : ℚ) / d ≤ 1 - 1 / d := by
    rw [le_sub_iff_add_le, ← add_div, div_le_one hd']
    exact_mod_cast hlt
  have hpos : (0 : ℚ) < 1 / d := by positivity
  rw [hvalue] at hlow hhigh ⊢
  cases mode with
  | market =>
    rw [Mode.whole, Mode.whole, (Int.floor_eq_iff (z := k)).2 ⟨by linarith, by linarith⟩,
      (Int.floor_eq_iff (z := k)).2 ⟨by linarith, by linarith⟩]
  | exact =>
    rw [Mode.whole, Mode.whole,
      (Int.ceil_eq_iff (z := k + 1)).2 ⟨by push_cast; linarith, by push_cast; linarith⟩,
      (Int.ceil_eq_iff (z := k + 1)).2 ⟨by push_cast; linarith, by push_cast; linarith⟩]

end Whole

/-! ## No power -/

theorem power_of_toRat_eq_one {base exponent : Decimal} (hbase : base.Valid)
    (hone : exponent.toRat = 1) :
    ∃ r, (power base exponent).Returns r ∧ r.Valid ∧ r.toRat = base.toRat := by
  unfold power
  by_cases hzero : base.coefficient = 0
  · rw [if_pos (show base.isZero = true from beq_iff_eq.2 hzero)]
    exact ⟨_, returns_pure.2 rfl, Decimal.valid_ofInt (by decide),
      by rw [Decimal.toRat_zero, Decimal.toRat_of_coefficient_eq_zero hzero]⟩
  · rw [if_neg (by simpa [Decimal.isZero] using hzero)]
    have hne : exponent.coefficient ≠ 0 := by
      intro h
      rw [Decimal.toRat_of_coefficient_eq_zero h] at hone
      exact zero_ne_one hone
    unfold Decimal.pow
    rw [if_neg hne, if_neg hzero]
    split
    · next hsame =>
      refine ⟨_, returns_orOverflow.2 rfl, Decimal.valid_one, ?_⟩
      exact (Decimal.sameValue_iff.1 hsame).symm
    · rw [if_pos (Decimal.sameValue_iff.2 (hone.trans Decimal.toRat_one.symm))]
      exact ⟨_, returns_orOverflow.2 rfl, hbase, rfl⟩

/-- The reciprocal of a full weight. -/
theorem exists_reciprocal_of_eq_one {w : Decimal} (hone : w.toRat = 1) :
    ∃ k, Decimal.one.divOrAbort w = .ok k ∧ k.toRat = 1 := by
  have hne : w.coefficient ≠ 0 := by
    intro h
    rw [Decimal.toRat_of_coefficient_eq_zero h] at hone
    exact zero_ne_one hone
  obtain ⟨k, hk⟩ := Decimal.exists_div (a := .one) (b := w) (by simp)
    (by rw [hone, Decimal.toRat_one]) hne (Nat.zero_le _)
  have hrounds := Decimal.div_rounds hk (by simp) (by rw [hone]; exact zero_le_one)
  rw [hone, Decimal.toRat_one, div_one] at hrounds
  exact ⟨k, by rw [Decimal.divOrAbort, hk]; rfl, hrounds.toRat_eq Decimal.valid_one Decimal.toRat_one⟩

/-! ## The flat evaluation -/

section Flat

variable {mode : Mode} {side other amount : Amount} {share : Decimal} {c : Conversion}

theorem flat_eq_mul : flat side other amount = other * (amount / side) := by
  rw [flat, mul_div_assoc]

theorem flat_eq_cast_div : flat side other amount = ((other * amount : ℤ) : ℚ) / side := by
  rw [flat]
  push_cast
  rfl

theorem flatMargin_nonneg (hside : 0 < side) (hother : 0 ≤ other) (hamount : 0 ≤ amount) :
    0 ≤ flatMargin side other amount := by
  have hother' : (0 : ℚ) ≤ other := by exact_mod_cast hother
  have hx : (0 : ℚ) ≤ (amount : ℚ) / side :=
    div_nonneg (by exact_mod_cast hamount) (by exact_mod_cast hside.le)
  have hulp := ulp_pos
  unfold flatMargin
  positivity

/-- A part of one side is worth no more than the other side. -/
theorem flat_le (hside : 0 < side) (hother : 0 ≤ other) (hle : amount ≤ side) :
    flat side other amount ≤ other := by
  rw [flat_eq_mul]
  exact mul_le_of_le_one_right (by exact_mod_cast hother)
    (div_le_one_of_le₀ (by exact_mod_cast hle) (by exact_mod_cast hside.le))

/-- What is close to a flat result and made whole is a flat conversion. -/
theorem IsFlat.of_close (hside : 0 < side) (hamount : c.amount = mode.whole c.theoretical.toRat)
    (hclose : |c.theoretical.toRat - flat side other amount| ≤ flatMargin side other amount)
    (hsmall : flatMargin side other amount < 1)
    (hlossless : (∃ d : Decimal, d.Valid ∧ d.toRat = 1 + amount / side) →
      ∀ n : ℤ, other * amount = side * n → c.theoretical.toRat = n) :
    IsFlat c mode side other amount := by
  have hside' : (0 : ℚ) < side := by exact_mod_cast hside
  have hwhole {n : ℤ} (hn : other * amount = side * n) : flat side other amount = n := by
    rw [flat_eq_cast_div, hn]
    push_cast
    field_simp
  have hself (n : ℤ) : mode.whole (n : ℚ) = n := by cases mode <;> simp [Mode.whole]
  refine ⟨hamount, hclose, ?_, ?_, ?_⟩
  · rw [hamount]
    exact whole_sub_whole_le (hclose.trans_lt hsmall)
  · intro hpart
    rw [hamount]
    by_cases hdvd : side ∣ other * amount
    · obtain ⟨n, hn⟩ := hdvd
      rw [hwhole hn] at hclose ⊢
      rw [hself, whole_eq_iff_of_near (hclose.trans_lt hsmall), not_and, iff_def]
      exact ⟨fun h _ => h, fun h => h ⟨n, hn⟩⟩
    · refine iff_of_true ?_ fun h => hdvd h.1
      rw [flat_eq_cast_div] at hclose ⊢
      apply whole_eq_of_not_dvd hside hdvd
      refine hclose.trans_lt ?_
      rwa [lt_div_iff₀ hside']
  · intro hdecimal ⟨n, hn⟩
    rw [hamount, hlossless hdecimal n hn, hself, hwhole hn]

/-- The product with the other side is off by no more than the margin. -/
theorem scaled_close (hside : 0 < side) (hother : 0 < other) (hamount : 0 < amount)
    (hin : Amount.InRange amount)
    (hshare : |share.toRat - amount / side| ≤ 3 * ulp * (1 + amount / side)) :
    other * share.toRat + ulp * max 1 (other * share.toRat) ≤
        flat side other amount + flatMargin side other amount ∧
      |other * share.toRat - flat side other amount| + ulp * max 1 (other * share.toRat) ≤
        flatMargin side other amount := by
  have hother' : (1 : ℚ) ≤ other := by exact_mod_cast hother
  have hx : (0 : ℚ) < (amount : ℚ) / side :=
    div_pos (by exact_mod_cast hamount) (by exact_mod_cast hside)
  have hulp : ulp = 1 / 10 ^ 28 := rfl
  have hx19 : (other : ℚ) * (amount / side) ≤ other * 10 ^ 19 := by
    have hle : (amount : ℚ) / side ≤ amount :=
      div_le_self (by exact_mod_cast hamount.le) (by exact_mod_cast hside)
    have hamount19 := cast_le_greatest hin
    gcongr
    linarith
  have hspan : 1 + (other : ℚ) * (amount / side) ≤ other * (1 + amount / side) := by linarith
  have hscaled : |other * share.toRat - other * (amount / side)| ≤
      3 * ulp * (other * (1 + amount / side)) := by
    rw [← mul_sub, abs_mul, abs_of_pos (by linarith)]
    calc (other : ℚ) * |share.toRat - amount / side|
        ≤ other * (3 * ulp * (1 + amount / side)) := by gcongr
      _ = 3 * ulp * (other * (1 + amount / side)) := by ring
  have hhigh := (abs_le.1 hscaled).2
  have hmax : max 1 (other * share.toRat) ≤ other * (1 + amount / side) := by
    rw [hulp] at hhigh
    exact max_le (by linarith [mul_pos (by linarith : (0 : ℚ) < other) hx]) (by linarith)
  have hrounding : ulp * max 1 (other * share.toRat) ≤ ulp * (other * (1 + amount / side)) :=
    mul_le_mul_of_nonneg_left hmax ulp_pos.le
  rw [flat_eq_mul, flatMargin]
  constructor <;> linarith

/-- A share of the other side, close to the exact one, leads to a flat conversion. -/
theorem exists_flat (mode : Mode) (hside : 0 < side) (hother : 0 < other) (hamount : 0 < amount)
    (hin : Amount.InRange other) (hin' : Amount.InRange amount) (hnonneg : 0 ≤ share.toRat)
    (hshare : |share.toRat - amount / side| ≤ 3 * ulp * (1 + amount / side))
    (hexact : (∃ d : Decimal, d.Valid ∧ d.toRat = 1 + amount / side) →
      share.toRat = amount / side)
    (hfits : (amount ≤ side ∧ share.toRat ≤ 1) ∨
      flat side other amount + flatMargin side other amount ≤ Amount.greatest) :
    ∃ d c, (orOverflow ((Decimal.ofInt other).mul share)).Returns d ∧
      (ofResult mode d).Returns c ∧ IsFlat c mode side other amount := by
  have hother' : (1 : ℚ) ≤ other := by exact_mod_cast hother
  have hle : flat side other amount ≤ Amount.greatest := by
    rcases hfits with ⟨hle, -⟩ | hfits
    · exact (flat_le hside hother.le hle).trans (by exact_mod_cast hin.2)
    · linarith [flatMargin_nonneg hside hother.le hamount.le]
  obtain ⟨hroom, hmargin⟩ := scaled_close hside hother hamount hin' hshare
  obtain ⟨d, c, hd, hrounds, hclose, hc, htheoretical, hmade⟩ := exists_result mode
    hother.le hin hnonneg (hfits.imp And.right hroom.trans)
  refine ⟨d, c, hd, hc, .of_close hside (by rw [hmade, htheoretical]) ?_ ?_ ?_⟩
  · rw [htheoretical]
    calc |d.toRat - flat side other amount|
        ≤ |d.toRat - other * share.toRat| + |other * share.toRat - flat side other amount| :=
          abs_sub_le _ _ _
      _ ≤ flatMargin side other amount := by linarith
  · have hgreatest : ((Amount.greatest : ℤ) : ℚ) ≤ 10 ^ 19 := cast_le_greatest ⟨by decide, le_rfl⟩
    have hother19 := cast_le_greatest hin
    have hulp : ulp = 1 / 10 ^ 28 := rfl
    rw [flat_eq_mul] at hle
    rw [flatMargin, hulp]
    linarith
  · intro hdecimal n hn
    -- neither the share nor its product is rounded
    have hside' : (side : ℚ) ≠ 0 := by exact_mod_cast hside.ne'
    have hvalue : (other : ℚ) * share.toRat = n := by
      have hn' : (other : ℚ) * amount = side * n := by exact_mod_cast hn
      rw [hexact hdecimal, ← mul_div_assoc, hn', mul_div_cancel_left₀ _ hside']
    have hn0 : (0 : ℚ) ≤ n := hvalue ▸ mul_nonneg (by linarith) hnonneg
    have hn19 : (n : ℚ) ≤ Amount.greatest := by
      rw [← hvalue, hexact hdecimal, ← flat_eq_mul]
      exact hle
    have hinn : Amount.InRange n :=
      ⟨(by decide : Amount.least ≤ 0).trans (by exact_mod_cast hn0), by exact_mod_cast hn19⟩
    rw [htheoretical]
    rw [hvalue] at hrounds
    exact hrounds.toRat_eq (amount_valid hinn) (Decimal.toRat_ofInt n)

/-! ## Gains and losses without a power -/

/-- The share that a part adds to a whole. -/
theorem exists_gain (hamount : 0 < amount) (hside : 0 < side) (hin : Amount.InRange amount)
    {exponent : Decimal} (hone : exponent.toRat = 1) :
    ∃ grown growth gain : Decimal, onePlus amount side = .ok grown ∧
      (power grown exponent).Returns growth ∧ growth.subOrAbort .one = .ok gain ∧
      0 ≤ gain.toRat ∧ |gain.toRat - amount / side| ≤ 3 * ulp * (1 + amount / side) ∧
      ((∃ d : Decimal, d.Valid ∧ d.toRat = 1 + amount / side) → gain.toRat = amount / side) := by
  obtain ⟨grown, hgrown, hvalid, hge, hclose⟩ := exists_onePlus hamount.le hside hin
  obtain ⟨growth, hgrowth, hvalid', hvalue⟩ := power_of_toRat_eq_one hvalid hone
  obtain ⟨gain, hgain, -, hvalue'⟩ := Decimal.sub_one_exact hvalid' (by rw [hvalue]; linarith)
  rw [hvalue] at hvalue'
  refine ⟨grown, growth, gain, hgrown, hgrowth, by rw [Decimal.subOrAbort, hgain]; rfl,
    by linarith, ?_, ?_⟩
  · rwa [hvalue', sub_sub]
  · rintro ⟨d, hd, hdecimal⟩
    rw [hvalue', onePlus_exact hamount.le hside hin hd hdecimal hgrown, add_sub_cancel_left]

/-- The share that a part takes off a whole. -/
theorem exists_loss (hamount : 0 < amount) (hle : amount ≤ side) (hin : Amount.InRange amount)
    {exponent : Decimal} (hone : exponent.toRat = 1) :
    ∃ rest shrunk loss : Decimal, oneMinus amount side = .ok rest ∧
      (power rest exponent).Returns shrunk ∧ Decimal.one.subOrAbort shrunk = .ok loss ∧
      0 ≤ loss.toRat ∧ loss.toRat ≤ 1 ∧
      |loss.toRat - amount / side| ≤ 3 * ulp * (1 + amount / side) ∧
      ((∃ d : Decimal, d.Valid ∧ d.toRat = 1 + amount / side) → loss.toRat = amount / side) := by
  have hside : 0 < side := hamount.trans_le hle
  have hx : (0 : ℚ) < (amount : ℚ) / side :=
    div_pos (by exact_mod_cast hamount) (by exact_mod_cast hside)
  obtain ⟨rest, hrest, hvalid, h0, h1, hclose⟩ := exists_oneMinus hamount.le hle hside hin
  obtain ⟨shrunk, hshrunk, hvalid', hvalue⟩ := power_of_toRat_eq_one hvalid hone
  obtain ⟨loss, hloss, hvalue'⟩ := exists_oneSub hvalid' (hvalue ▸ h0) (hvalue ▸ h1)
  rw [hvalue] at hvalue'
  refine ⟨rest, shrunk, loss, hrest, hshrunk, hloss, by linarith, by linarith, ?_, ?_⟩
  · have hsame : loss.toRat - amount / side = -(rest.toRat - (1 - amount / side)) := by
      rw [hvalue']
      ring
    rw [hsame, abs_neg]
    have hpos := mul_pos ulp_pos hx
    linarith [ulp_pos]
  · rintro ⟨d, hd, hdecimal⟩
    rw [hvalue', oneMinus_exact hamount.le hle hside hin hd hdecimal hrest, sub_sub_cancel]

end Flat

end Curve

/-! ## The four conversions -/

/-- A sale stays within the side of the pool that it counts. -/
def Mode.Within : Mode → Amount → Amount → Prop
  | .market, side, amount => amount ≤ side
  | .exact, side, amount => amount < side

namespace Connector

open Curve Outcome

variable {c : Connector} {supply amount : Amount}

theorem convert_buy_at_full_weight (mode : Mode) (hweight : c.weight.value.toRat = 1)
    (hbalance : 0 < c.balance.amount) (hsupply : 0 < supply) (hamount : 0 < amount)
    (hinBalance : Amount.InRange c.balance.amount) (hinSupply : Amount.InRange supply)
    (hinAmount : Amount.InRange amount)
    (hfits : flat (counted .buy mode c.balance.amount supply)
          (paired .buy mode c.balance.amount supply) amount +
        flatMargin (counted .buy mode c.balance.amount supply)
          (paired .buy mode c.balance.amount supply) amount ≤ Amount.greatest) :
    ∃ r, (c.convert .buy mode supply amount).Returns r ∧
      IsFlat r mode (counted .buy mode c.balance.amount supply)
        (paired .buy mode c.balance.amount supply) amount := by
  have hstate : (checkState c.balance.amount supply amount).Returns () :=
    returns_checkState.2 ⟨hbalance, hsupply, hamount⟩
  cases mode with
  | market =>
    obtain ⟨grown, growth, gain, hgrown, hgrowth, hgain, hnonneg, hclose, hexact⟩ :=
      exists_gain hamount hbalance hinAmount hweight
    obtain ⟨d, r, hd, hr, hflat⟩ := exists_flat .market hbalance hsupply hamount
      hinSupply hinAmount hnonneg hclose hexact (.inr hfits)
    refine ⟨r, ?_, hflat⟩
    simp only [convert, buy, returns_bind, returns_lift]
    exact ⟨(), hstate, grown, hgrown, growth, hgrowth, gain, hgain, d, hd, hr⟩
  | exact =>
    obtain ⟨k, hk, hk1⟩ := exists_reciprocal_of_eq_one hweight
    obtain ⟨grown, growth, gain, hgrown, hgrowth, hgain, hnonneg, hclose, hexact⟩ :=
      exists_gain hamount hsupply hinAmount hk1
    obtain ⟨d, r, hd, hr, hflat⟩ := exists_flat .exact hsupply hbalance hamount
      hinBalance hinAmount hnonneg hclose hexact (.inr hfits)
    refine ⟨r, ?_, hflat⟩
    simp only [convert, buyExact, returns_bind, returns_lift]
    exact ⟨(), hstate, grown, hgrown, k, hk, growth, hgrowth, gain, hgain, d, hd, hr⟩

theorem convert_sell_at_full_weight (mode : Mode) (hweight : c.weight.value.toRat = 1)
    (hbalance : 0 < c.balance.amount) (hsupply : 0 < supply) (hamount : 0 < amount)
    (hinBalance : Amount.InRange c.balance.amount) (hinSupply : Amount.InRange supply)
    (hwithin : mode.Within (counted .sell mode c.balance.amount supply) amount) :
    ∃ r, (c.convert .sell mode supply amount).Returns r ∧
      IsFlat r mode (counted .sell mode c.balance.amount supply)
        (paired .sell mode c.balance.amount supply) amount := by
  have hstate : (checkState c.balance.amount supply amount).Returns () :=
    returns_checkState.2 ⟨hbalance, hsupply, hamount⟩
  have hleast : Amount.least ≤ 0 := by decide
  cases mode with
  | market =>
    have hle : amount ≤ supply := hwithin
    have hinAmount : Amount.InRange amount := ⟨hleast.trans hamount.le, hle.trans hinSupply.2⟩
    obtain ⟨k, hk, hk1⟩ := exists_reciprocal_of_eq_one hweight
    obtain ⟨rest, shrunk, loss, hrest, hshrunk, hloss, h0, h1, hclose, hexact⟩ :=
      exists_loss hamount hle hinAmount hk1
    obtain ⟨d, r, hd, hr, hflat⟩ := exists_flat .market hsupply hbalance hamount
      hinBalance hinAmount h0 hclose hexact (.inl ⟨hle, h1⟩)
    refine ⟨r, ?_, hflat⟩
    simp only [convert, sell, returns_bind, returns_lift, returns_ite, not_returns_throw,
      false_and, exists_false, and_false, false_or]
    exact ⟨(), hstate, not_lt.2 hle, rest, hrest, k, hk, shrunk, hshrunk, loss, hloss, d, hd, hr⟩
  | exact =>
    have hlt : amount < c.balance.amount := hwithin
    have hinAmount : Amount.InRange amount :=
      ⟨hleast.trans hamount.le, hlt.le.trans hinBalance.2⟩
    obtain ⟨rest, shrunk, loss, hrest, hshrunk, hloss, h0, h1, hclose, hexact⟩ :=
      exists_loss hamount hlt.le hinAmount hweight
    obtain ⟨d, r, hd, hr, hflat⟩ := exists_flat .exact hbalance hsupply hamount
      hinSupply hinAmount h0 hclose hexact (.inl ⟨hlt.le, h1⟩)
    refine ⟨r, ?_, hflat⟩
    simp only [convert, sellExact, returns_bind, returns_lift, returns_ite, not_returns_throw,
      false_and, exists_false, and_false, false_or]
    exact ⟨(), hstate, not_le.2 hlt, rest, hrest, shrunk, hshrunk, loss, hloss, d, hd, hr⟩

/-- A full weight makes every conversion a flat one: any amount that is within the pool is sold,
and any amount is bought whose result is an amount. -/
theorem convert_at_full_weight (direction : Direction) (mode : Mode)
    (hweight : c.weight.value.toRat = 1)
    (hbalance : 0 < c.balance.amount) (hsupply : 0 < supply) (hamount : 0 < amount)
    (hinBalance : Amount.InRange c.balance.amount) (hinSupply : Amount.InRange supply)
    (hinAmount : Amount.InRange amount)
    (hfits : match direction with
      | .buy => flat (counted .buy mode c.balance.amount supply)
            (paired .buy mode c.balance.amount supply) amount +
          flatMargin (counted .buy mode c.balance.amount supply)
            (paired .buy mode c.balance.amount supply) amount ≤ Amount.greatest
      | .sell => mode.Within (counted .sell mode c.balance.amount supply) amount) :
    ∃ r, (c.convert direction mode supply amount).Returns r ∧
      IsFlat r mode (counted direction mode c.balance.amount supply)
        (paired direction mode c.balance.amount supply) amount := by
  cases direction with
  | buy =>
    exact convert_buy_at_full_weight mode hweight hbalance hsupply hamount hinBalance hinSupply
      hinAmount hfits
  | sell =>
    exact convert_sell_at_full_weight mode hweight hbalance hsupply hamount hinBalance hinSupply hfits

/-- A connector that holds `balance` at a weight of `weight`. -/
def Sample.connector (balance : Amount) (weight : Decimal) : Connector :=
  ⟨⟨⟨"TKN", 4⟩, ⟨"gxc.token"⟩⟩, ⟨balance, ⟨⟨"GXC", 4⟩, ⟨"gxc.token"⟩⟩⟩, ⟨weight⟩⟩

/-- A share with few decimals loses nothing. -/
theorem fifth_is_exact :
    ∃ r, ((Sample.connector 2000 .one).convert .buy .market 1000 400).Returns r ∧
      r.amount = 200 := by
  obtain ⟨r, hr, hflat⟩ := @convert_at_full_weight (Sample.connector 2000 .one) 1000 400 .buy .market
    Decimal.toRat_one (by decide) (by decide) (by decide) (by decide) (by decide) (by decide)
    (by norm_num [Curve.flat, Curve.flatMargin, Curve.counted, Curve.paired, Sample.connector,
      Decimal.ulp, Amount.greatest])
  refine ⟨r, hr, ?_⟩
  have hvalue := hflat.lossless ⟨⟨12, 1, false⟩, ⟨by decide, by decide, by simp⟩,
    by norm_num [Decimal.toRat, Decimal.powTen, Curve.counted, Sample.connector]⟩ (by decide)
  rw [show Curve.flat _ _ _ = 200 by norm_num [Curve.flat, Curve.counted, Curve.paired,
    Sample.connector]] at hvalue
  exact_mod_cast hvalue

/-- A third of three is one, but the decimals give a little less and the unit is lost. -/
theorem third_is_lost :
    ∃ r, ((Sample.connector 3 .one).convert .buy .market 3 1).Returns r ∧
      r.amount = 0 ∧ r.amount ≠ ⌊Curve.flat 3 3 1⌋ := by
  have hyields : Abort.Yields ((Sample.connector 3 .one).convert .buy .market 3 1).run fun answer =>
      Abort.Yields answer fun r => r.amount = 0 := by
    decide +kernel
  obtain ⟨_, hr, r, rfl, hzero⟩ := hyields
  refine ⟨r, hr, hzero, ?_⟩
  rw [hzero, show Curve.flat 3 3 1 = 1 by norm_num [Curve.flat]]
  decide

end Connector
end BondingCurve
