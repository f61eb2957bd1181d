import BondingCurve.Proofs.Curve.Safety
import BondingCurve.Proofs.Decimal.PowerOrder

/-!
# Larger amounts convert to no less

A unit more of an amount that fits moves the base of the power by more than its rounding
(`onePlus_apart`, `oneMinus_apart`). The powers of bases that are apart are in their order, so what a
conversion delivers or requires grows with its amount (`Connector.convert_mono`).

The power of a market purchase and of an exact sale has the weight for an exponent. With a weight
below `10 ^ -9` the power is close to one and its order can be lost, though by no more than its error:
then the outcome is one unit less at most.
-/

namespace BondingCurve
namespace Curve

open Outcome
open Decimal (ulp SameSide)

variable {part part' whole side : Amount} {b b' k r r' share share' : Decimal}
  {direction : Direction} {mode : Mode} {c c' : Conversion}

/-! ## Bases -/

/-- A part and a larger one, added to a whole: the sums differ by more than the errors of both. -/
theorem one_add_share_mul_le (hlt : part < part') (hwhole : 0 < whole)
    (hin : whole ≤ Amount.greatest) (hin' : part' ≤ Amount.greatest) :
    (1 + part / whole : ℚ) * (1 + 542 / 10 ^ 22) ≤ 1 + part' / whole := by
  have hwhole' : (0 : ℚ) < whole := by exact_mod_cast hwhole
  have hstep : (part : ℚ) + 1 ≤ part' := by exact_mod_cast hlt
  have hsum : (whole : ℚ) + part ≤ 2 * 9223372036854775807 := by
    have hwhole19 : (whole : ℚ) ≤ 9223372036854775807 := by exact_mod_cast hin
    have hpart19 : (part' : ℚ) ≤ 9223372036854775807 := by exact_mod_cast hin'
    linarith
  have hmul : ((whole : ℚ) + part) * (1 + 542 / 10 ^ 22) ≤ whole + part' := by linarith
  have hshare (n : Amount) : (1 + n / whole : ℚ) = (whole + n) / whole := by
    rw [add_div, div_self hwhole'.ne']
  rw [hshare, hshare, div_mul_eq_mul_div]
  exact div_le_div_of_nonneg_right hmul hwhole'.le

/-- The bases of two amounts that are added, and one. -/
theorem onePlus_apart (hpart : 0 < part) (hlt : part < part') (hwhole : 0 < whole)
    (hin : whole ≤ Amount.greatest) (hin' : part' ≤ Amount.greatest)
    (h : onePlus part whole = .ok b) (h' : onePlus part' whole = .ok b') :
    b.Valid ∧ b'.Valid ∧ Apart b.toRat b'.toRat ∧ Apart 1 b.toRat := by
  have hrange {n : Amount} (hn : 0 < n) (hle : n ≤ Amount.greatest) : Amount.InRange n :=
    ⟨le_trans (by decide) hn.le, hle⟩
  obtain ⟨_, heq, hvalid, -, hclose⟩ :=
    exists_onePlus hpart.le hwhole (hrange hpart (hlt.le.trans hin'))
  obtain rfl := Except.ok.inj (h.symm.trans heq)
  obtain ⟨_, heq', hvalid', -, hclose'⟩ :=
    exists_onePlus (hpart.trans hlt).le hwhole (hrange (hpart.trans hlt) hin')
  obtain rfl := Except.ok.inj (h'.symm.trans heq')
  have hzero := one_add_share_mul_le hpart hwhole hin (hlt.le.trans hin')
  have hmore := one_add_share_mul_le hlt hwhole hin hin'
  rw [Int.cast_zero, zero_div, add_zero, one_mul] at hzero
  rw [ulp] at hclose hclose'
  refine ⟨hvalid, hvalid', ?_, ?_⟩ <;>
  · rw [Apart, separation]
    linarith [(abs_le.1 hclose).1, (abs_le.1 hclose).2, (abs_le.1 hclose').1]

/-- The bases of two amounts that are taken off, and one. -/
theorem oneMinus_apart (hpart : 0 < part) (hlt : part < part') (hle : part' ≤ whole)
    (hin : whole ≤ Amount.greatest) (h : oneMinus part whole = .ok b)
    (h' : oneMinus part' whole = .ok b') :
    b.Valid ∧ b'.Valid ∧ 0 ≤ b'.toRat ∧ Apart b'.toRat b.toRat ∧ Apart b.toRat 1 := by
  have hwhole : 0 < whole := by linarith
  have hrange {n : Amount} (hn : 0 < n) (hle : n ≤ whole) : Amount.InRange n :=
    ⟨le_trans (by decide) hn.le, hle.trans hin⟩
  obtain ⟨_, heq, hvalid, -, hone, hclose⟩ :=
    exists_oneMinus hpart.le (hlt.le.trans hle) hwhole (hrange hpart (hlt.le.trans hle))
  obtain rfl := Except.ok.inj (h.symm.trans heq)
  obtain ⟨_, heq', hvalid', h0', hone', hclose'⟩ :=
    exists_oneMinus (hpart.trans hlt).le hle hwhole (hrange (hpart.trans hlt) hle)
  obtain rfl := Except.ok.inj (h'.symm.trans heq')
  have hwhole' : (0 : ℚ) < whole := by exact_mod_cast hwhole
  -- a unit is more of the whole than the separation of two bases
  have hunit : 108 / 10 ^ 21 ≤ (1 : ℚ) / whole := by
    have hwhole19 : (whole : ℚ) ≤ 9223372036854775807 := by exact_mod_cast hin
    rw [le_div_iff₀ hwhole']
    linarith
  have hfirst : (1 : ℚ) / whole ≤ part / whole :=
    div_le_div_of_nonneg_right (by exact_mod_cast hpart) hwhole'.le
  have hmore : (part : ℚ) / whole + 1 / whole ≤ part' / whole := by
    rw [← add_div]
    exact div_le_div_of_nonneg_right (by exact_mod_cast hlt) hwhole'.le
  rw [ulp] at hclose hclose'
  refine ⟨hvalid, hvalid', h0', ?_, ?_⟩
  · rw [Apart, separation]
    linarith [(abs_le.1 hclose).1, (abs_le.1 hclose').2]
  · rw [Apart, separation]
    linarith [(abs_le.1 hclose).2]

/-! ## Powers -/

/-- Bases in their order: apart, and on the same side of one. -/
structure Ordered (b b' : Decimal) : Prop where
  valid : b.Valid
  valid' : b'.Valid
  nonneg : 0 ≤ b.toRat
  apart : Apart b.toRat b'.toRat
  side : SameSide b b'

theorem Ordered.le (h : Ordered b b') : b.toRat ≤ b'.toRat :=
  h.apart.le h.nonneg

theorem Ordered.nonneg' (h : Ordered b b') : 0 ≤ b'.toRat :=
  h.nonneg.trans h.le

theorem power_of_toRat_eq_zero (hb : b.toRat = 0) (h : (power b k).Returns r) : r.toRat = 0 := by
  rw [power, Decimal.isZero, Decimal.coefficient_eq_zero_of_toRat hb, returns_ite] at h
  rcases h with ⟨-, h⟩ | ⟨hne, -⟩
  · rw [← returns_pure.1 h, Decimal.toRat_zero]
  · exact absurd rfl hne

/-- Powers for an exponent that is not tiny are in the order of their bases. -/
theorem power_mono (hbases : Ordered b b') (hk : 1 / 10 ^ 9 ≤ k.toRat)
    (h : (power b k).Returns r) (h' : (power b' k).Returns r') : r.toRat ≤ r'.toRat := by
  rcases hbases.nonneg.eq_or_lt with hzero | hpos
  · rw [power_of_toRat_eq_zero hzero.symm h]
    exact power_nonneg hbases.nonneg' h'
  · have hk0 : 0 < k.toRat := by linarith
    rw [returns_power hk0] at h h'
    exact Decimal.pow_mono hbases.valid hbases.valid' hpos hbases.apart hbases.side hk h h'

/-- A power for a tiny exponent is close to one, or to nothing. -/
theorem power_close (hb : b.Valid) (h0 : 0 ≤ b.toRat) (hk : 0 < k.toRat)
    (hk9 : k.toRat ≤ 1 / 10 ^ 9) (h : (power b k).Returns r) :
    (b.toRat : ℝ) ^ (k.toRat : ℝ) ≤ 3 / 2 ∧
      |(r.toRat : ℝ) - (b.toRat : ℝ) ^ (k.toRat : ℝ)| ≤ 1 / 10 ^ 24 := by
  have hk9' : (k.toRat : ℝ) ≤ 1 / 10 ^ 9 := by
    have hcast : (k.toRat : ℝ) ≤ ((1 / 10 ^ 9 : ℚ) : ℝ) := by exact_mod_cast hk9
    push_cast at hcast
    exact hcast
  have hk' : (0 : ℝ) < k.toRat := by exact_mod_cast hk
  have hpow : (b.toRat : ℝ) ^ (k.toRat : ℝ) ≤ 3 / 2 := by
    rcases h0.eq_or_lt with hzero | hpos
    · rw [← hzero, Rat.cast_zero, Real.zero_rpow hk'.ne']
      norm_num
    · have hpos' : (0 : ℝ) < b.toRat := by exact_mod_cast hpos
      have hlog := abs_le.1 (Decimal.abs_log_le hb hpos)
      have hexponent : Real.log b.toRat * k.toRat ≤ 67 * (1 / 10 ^ 9) :=
        mul_le_mul hlog.2 hk9' hk'.le (by norm_num)
      have hsmall := (abs_le.1 (Real.abs_exp_sub_one_le
        (show |(67 * (1 / 10 ^ 9) : ℝ)| ≤ 1 by rw [abs_of_pos] <;> norm_num))).2
      rw [abs_of_pos (by norm_num)] at hsmall
      rw [Real.rpow_def_of_pos hpos']
      linarith [Real.exp_le_exp.2 hexponent]
  rw [returns_power hk] at h
  refine ⟨hpow, (Decimal.pow_close hb h0 hk (by linarith) h).2.trans ?_⟩
  calc 3 / 10 ^ 25 * (1 + (k.toRat : ℝ)) * max 1 ((b.toRat : ℝ) ^ (k.toRat : ℝ))
      ≤ 3 / 10 ^ 25 * (1 + 1 / 10 ^ 9) * (3 / 2) :=
        mul_le_mul (by linarith) (max_le (by norm_num) hpow) (by positivity) (by norm_num)
    _ ≤ 1 / 10 ^ 24 := by norm_num

/-- Powers for a tiny exponent are in the order of their bases up to their errors. -/
theorem power_le_add (hbases : Ordered b b') (hk : 0 < k.toRat) (hk9 : k.toRat ≤ 1 / 10 ^ 9)
    (h : (power b k).Returns r) (h' : (power b' k).Returns r') :
    r.toRat ≤ r'.toRat + 2 / 10 ^ 24 ∧ r'.toRat ≤ 2 := by
  obtain ⟨hpow, hclose⟩ := power_close hbases.valid hbases.nonneg hk hk9 h
  obtain ⟨hpow', hclose'⟩ := power_close hbases.valid' hbases.nonneg' hk hk9 h'
  have hmono : (b.toRat : ℝ) ^ (k.toRat : ℝ) ≤ (b'.toRat : ℝ) ^ (k.toRat : ℝ) :=
    Real.rpow_le_rpow (by exact_mod_cast hbases.nonneg) (by exact_mod_cast hbases.le)
      (by exact_mod_cast hk.le)
  have hclose := (abs_le.1 hclose).2
  have hclose' := abs_le.1 hclose'
  have hle : (r.toRat : ℝ) ≤ ((r'.toRat + 2 / 10 ^ 24 : ℚ) : ℝ) := by
    push_cast
    linarith
  have htwo : (r'.toRat : ℝ) ≤ ((2 : ℚ) : ℝ) := by
    push_cast
    linarith
  exact ⟨by exact_mod_cast hle, by exact_mod_cast htwo⟩

/-! ## Shares -/

/-- The share of a side of the pool that a conversion comes to: a purchase to what the power of one
plus a part is above one, a sale to what the power of one minus a part is below it. -/
inductive IsShare (part whole : Amount) (k : Decimal) : Direction → Decimal → Prop
  | gain {base growth share : Decimal} (hbase : onePlus part whole = .ok base)
      (hgrowth : (power base k).Returns growth) (h : growth.subOrAbort .one = .ok share) :
      IsShare part whole k .buy share
  | loss {base rest share : Decimal} (hle : part ≤ whole) (hbase : oneMinus part whole = .ok base)
      (hrest : (power base k).Returns rest) (h : Decimal.one.subOrAbort rest = .ok share) :
      IsShare part whole k .sell share

/-- A power of a base that is less than one or nothing is not far above one. -/
theorem power_le_two (hb : b.Valid) (h0 : 0 ≤ b.toRat) (hbelow : Apart b.toRat 1)
    (hk : 0 < k.toRat) (h : (power b k).Returns r) : r.toRat ≤ 2 := by
  rcases h0.eq_or_lt with hzero | hpos
  · rw [power_of_toRat_eq_zero hzero.symm h]
    norm_num
  · exact Decimal.pow_le_two hb hpos hbelow hk ((returns_power hk).1 h)

section Shares

variable (hk : 0 < k.toRat) (hpart : 0 < part) (hlt : part < part')
  (hin : whole ≤ Amount.greatest) (hin' : part' ≤ Amount.greatest) (hwhole : 0 < whole)
include hk hpart hlt hin hin' hwhole

/-- The shares of a part and of a larger one differ as powers of bases in their order do. -/
theorem IsShare.exists_ordered (h : IsShare part whole k direction share)
    (h' : IsShare part' whole k direction share') :
    ∃ b b' r r', Ordered b b' ∧ (power b k).Returns r ∧ (power b' k).Returns r' ∧
      share'.toRat - share.toRat = r'.toRat - r.toRat ∧ (r'.toRat ≤ 2 → share'.toRat ≤ 1) := by
  cases h with
  | @gain b growth _ hb hgrowth hsub =>
    obtain @⟨b', growth', _, hb', hgrowth', hsub'⟩ := h'
    obtain ⟨hvalid, hvalid', hapart, habove⟩ := onePlus_apart hpart hlt hwhole hin hin' hb hb'
    have h0 : 0 ≤ b.toRat := zero_le_one.trans (habove.lt zero_lt_one).le
    have hordered : Ordered b b' := ⟨hvalid, hvalid', h0, hapart, .above habove⟩
    have hshare := gain_eq (power_valid hvalid hgrowth) (power_nonneg h0 hgrowth) hsub
    have hshare' := gain_eq (power_valid hvalid' hgrowth')
      (power_nonneg hordered.nonneg' hgrowth') hsub'
    exact ⟨b, b', growth, growth', hordered, hgrowth, hgrowth', by linarith, fun _ => by linarith⟩
  | @loss b rest _ hle hb hrest hsub =>
    obtain _ | @⟨b', rest', _, hle', hb', hrest', hsub'⟩ := h'
    obtain ⟨hvalid, hvalid', h0', hapart, hbelow⟩ := oneMinus_apart hpart hlt hle' hin hb hb'
    -- a larger part leaves the smaller base
    have hordered : Ordered b' b := ⟨hvalid', hvalid, h0', hapart, .below hbelow⟩
    have hbelow' : Apart b'.toRat 1 := hapart.trans_le (hbelow.le hordered.nonneg')
    have htwo := power_le_two hvalid hordered.nonneg' hbelow hk hrest
    have htwo' := power_le_two hvalid' h0' hbelow' hk hrest'
    have hrest0' := power_nonneg h0' hrest'
    have hshare := loss_eq (power_valid hvalid hrest) (power_nonneg hordered.nonneg' hrest)
      (by linarith) hsub
    have hshare' := loss_eq (power_valid hvalid' hrest') hrest0' (by linarith) hsub'
    exact ⟨b', b, rest', rest, hordered, hrest', hrest, by linarith, fun _ => by linarith⟩

theorem IsShare.mono (hk9 : 1 / 10 ^ 9 ≤ k.toRat) (h : IsShare part whole k direction share)
    (h' : IsShare part' whole k direction share') : share.toRat ≤ share'.toRat := by
  obtain ⟨b, b', r, r', hordered, hr, hr', hdiff, -⟩ :=
    h.exists_ordered hk hpart hlt hin hin' hwhole h'
  linarith [power_mono hordered hk9 hr hr']

theorem IsShare.le_add (hk9 : k.toRat ≤ 1 / 10 ^ 9) (h : IsShare part whole k direction share)
    (h' : IsShare part' whole k direction share') :
    share.toRat ≤ share'.toRat + 2 / 10 ^ 24 ∧ share'.toRat ≤ 1 := by
  obtain ⟨b, b', r, r', hordered, hr, hr', hdiff, hone⟩ :=
    h.exists_ordered hk hpart hlt hin hin' hwhole h'
  obtain ⟨hle, htwo⟩ := power_le_add hordered hk hk9 hr hr'
  exact ⟨by linarith, hone htwo⟩

end Shares

/-! ## Results -/

/-- The last step of an evaluation gives a product, made whole, and no less than nothing. -/
theorem exists_product (h : (orOverflow ((Decimal.ofInt side).mul share) >>= ofResult mode).Returns c) :
    ∃ d, (Decimal.ofInt side).mul share = .ok d ∧ c.amount = mode.whole (max d.toRat 0) ∧
      0 ≤ c.amount := by
  obtain ⟨d, hd, h⟩ := returns_bind.1 h
  have houtcome : c.theoretical = d.max .zero ∧ c.IsOutcome mode := by
    cases mode with
    | market => exact Conversion.truncated_isOutcome h
    | exact => exact Conversion.roundedUp_isOutcome h
  have hamount := houtcome.2.amount_eq
  rw [houtcome.1, Decimal.toRat_max, Decimal.toRat_zero] at hamount
  exact ⟨d, returns_orOverflow.1 hd, hamount, houtcome.2.amount_nonneg⟩

/-- The outcome of a share that is not positive. -/
theorem amount_of_nonpos (hside : 0 ≤ side) (hshare : share.toRat ≤ 0)
    (h : (orOverflow ((Decimal.ofInt side).mul share) >>= ofResult mode).Returns c) :
    c.amount = 0 := by
  obtain ⟨d, hd, hamount, -⟩ := exists_product h
  have hd0 : d.toRat ≤ (0 : ℕ) := Decimal.mul_le hd (by
    rw [Decimal.toRat_ofInt, Nat.cast_zero]
    exact mul_nonpos_of_nonneg_of_nonpos (by exact_mod_cast hside) hshare)
  rw [hamount, max_eq_right (by simpa using hd0)]
  cases mode
  · exact Int.floor_zero
  · exact Int.ceil_zero

/-- A larger share has no smaller outcome. -/
theorem result_mono (hside : 0 ≤ side) (hle : share.toRat ≤ share'.toRat)
    (h : (orOverflow ((Decimal.ofInt side).mul share) >>= ofResult mode).Returns c)
    (h' : (orOverflow ((Decimal.ofInt side).mul share') >>= ofResult mode).Returns c') :
    c.amount ≤ c'.amount := by
  obtain ⟨d', hd', hamount', hnonneg'⟩ := exists_product h'
  rcases le_total share.toRat 0 with hneg | hpos
  · rwa [amount_of_nonpos hside hneg h]
  · obtain ⟨d, hd, hamount, -⟩ := exists_product h
    have hmul := Decimal.mul_mono (Decimal.toRat_ofInt_nonneg hside) hpos le_rfl hle hd hd'
    rw [hamount, hamount']
    exact Mode.whole_mono (max_le_max_right 0 hmul)

/-- A share that is larger up to its error has an outcome that is one less at most. -/
theorem result_le_add_one (hside : 0 ≤ side) (hin : side ≤ Amount.greatest)
    (hle : share.toRat ≤ share'.toRat + 2 / 10 ^ 24) (hone : share'.toRat ≤ 1)
    (h : (orOverflow ((Decimal.ofInt side).mul share) >>= ofResult mode).Returns c)
    (h' : (orOverflow ((Decimal.ofInt side).mul share') >>= ofResult mode).Returns c') :
    c.amount ≤ c'.amount + 1 := by
  obtain ⟨d', hd', hamount', hnonneg'⟩ := exists_product h'
  rcases le_total share.toRat 0 with hneg | hpos
  · rw [amount_of_nonpos hside hneg h]
    linarith
  · obtain ⟨d, hd, hamount, -⟩ := exists_product h
    have hside' : (0 : ℚ) ≤ side := by exact_mod_cast hside
    have hside19 : (side : ℚ) ≤ 9223372036854775807 := by exact_mod_cast hin
    have hproduct := mul_le_mul_of_nonneg_left hle hside'
    have hproduct' := mul_le_mul_of_nonneg_left hone hside'
    have hproduct0 := mul_nonneg hside' hpos
    have hclose := Decimal.mul_close hd
    have hclose' := Decimal.mul_close hd'
    rw [Decimal.Close, Decimal.toRat_ofInt, ulp] at hclose hclose'
    -- the errors of both products and of the share are together less than a unit
    have herror : max 1 |(side : ℚ) * share.toRat| ≤ 10 ^ 20 :=
      max_le (by norm_num) (abs_le.2 ⟨by linarith, by linarith⟩)
    have herror' : max 1 |(side : ℚ) * share'.toRat| ≤ 10 ^ 20 :=
      max_le (by norm_num) (abs_le.2 ⟨by linarith, by linarith⟩)
    have hless : d.toRat ≤ d'.toRat + 1 := by
      linarith [(abs_le.1 hclose).2, (abs_le.1 hclose').1]
    rw [hamount, hamount', ← Mode.whole_add_one]
    refine Mode.whole_mono (max_le (hless.trans ?_) ?_)
    · linarith [le_max_left d'.toRat 0]
    · linarith [le_max_right d'.toRat 0]

/-! ## Conversions -/

/-- A market purchase pays connected tokens and an exact sale asks for them. The amounts of the other
two conversions are of the smart token. -/
def InConnected : Direction → Mode → Prop
  | .buy, .market | .sell, .exact => True
  | .sell, .market | .buy, .exact => False

instance : (direction : Direction) → (mode : Mode) → Decidable (InConnected direction mode)
  | .buy, .market | .sell, .exact => .isTrue trivial
  | .sell, .market | .buy, .exact => .isFalse id

/-- The exponent of the power: the weight for an amount of connected tokens, else its reciprocal. -/
def exponent (direction : Direction) (mode : Mode) (w : Decimal) : Except Abort Decimal :=
  if InConnected direction mode then .ok w else Decimal.one.divOrAbort w

/-- How much less a larger amount may convert to: a unit where the exponent is tiny. -/
def leeway (direction : Direction) (mode : Mode) (w : Decimal) : Amount :=
  if InConnected direction mode ∧ w.toRat < 1 / 10 ^ 9 then 1 else 0

theorem leeway_nonneg {w : Decimal} : 0 ≤ leeway direction mode w := by
  unfold leeway
  split <;> decide

theorem leeway_eq_zero {w : Decimal} (h : ¬InConnected direction mode) :
    leeway direction mode w = 0 :=
  if_neg fun hboth => h hboth.1

/-- The exponent is positive, and tiny only where there is leeway. -/
theorem exponent_cases {w : Decimal} (hvalid : w.Valid) (hweight : Weight.IsValid w)
    (h : exponent direction mode w = .ok k) :
    0 < k.toRat ∧
      (1 / 10 ^ 9 ≤ k.toRat ∨ k.toRat ≤ 1 / 10 ^ 9 ∧ leeway direction mode w = 1) := by
  unfold exponent at h
  split at h
  · next hconnected =>
    rw [← Except.ok.inj h]
    refine ⟨hweight.pos, ?_⟩
    rcases le_or_gt (1 / 10 ^ 9) w.toRat with hlarge | htiny
    · exact .inl hlarge
    · exact .inr ⟨htiny.le, if_pos ⟨hconnected, htiny⟩⟩
  · -- a reciprocal is one at least
    have hone := (isReciprocal hvalid hweight.pos hweight.le_one h).one_le
    exact ⟨by linarith, .inl (by linarith)⟩

/-- The sides of a pool: the one that an amount is a part of, and the one that the outcome is a share
of. -/
def sides (direction : Direction) (mode : Mode) (balance supply : Amount) : Amount × Amount :=
  if InConnected direction mode then (balance, supply) else (supply, balance)

theorem returns_convert {connector : Connector} {supply amount : Amount}
    (h : (connector.convert direction mode supply amount).Returns c) :
    ∃ k share, exponent direction mode connector.weight.value = .ok k ∧
      IsShare amount (sides direction mode connector.balance.amount supply).1 k direction share ∧
      (orOverflow ((Decimal.ofInt (sides direction mode connector.balance.amount supply).2).mul
        share) >>= ofResult mode).Returns c := by
  cases direction <;> cases mode <;>
    simp only [Connector.convert, buy, sell, buyExact, sellExact, returns_bind, returns_lift,
      returns_ite, not_returns_throw, false_and, exists_false, and_false, false_or] at h
  · obtain ⟨-, -, base, hbase, growth, hgrowth, gain, hgain, h⟩ := h
    exact ⟨_, gain, rfl, .gain hbase hgrowth hgain, returns_bind.2 h⟩
  · obtain ⟨-, -, base, hbase, k, hk, growth, hgrowth, gain, hgain, h⟩ := h
    exact ⟨k, gain, hk, .gain hbase hgrowth hgain, returns_bind.2 h⟩
  · obtain ⟨-, -, hle, base, hbase, k, hk, rest, hrest, loss, hloss, h⟩ := h
    exact ⟨k, loss, hk, .loss (not_lt.1 hle) hbase hrest hloss, returns_bind.2 h⟩
  · obtain ⟨-, -, hlt, base, hbase, rest, hrest, loss, hloss, h⟩ := h
    exact ⟨_, loss, rfl, .loss (not_le.1 hlt).le hbase hrest hloss, returns_bind.2 h⟩

end Curve

namespace Connector

variable {c : Connector} {direction : Direction} {mode : Mode} {supply amount amount' : Amount}
  {outcome outcome' : Conversion}

open Curve

/-- A larger amount converts to no less, in all four conversions. Where the exponent of the power is
a weight below `10 ^ -9` it may convert to one unit less. -/
theorem convert_mono (hvalid : c.weight.value.Valid) (hweight : Weight.IsValid c.weight.value)
    (hbalance : c.balance.amount ≤ Amount.greatest) (hsupply : supply ≤ Amount.greatest)
    (hle : amount ≤ amount') (hin : amount' ≤ Amount.greatest)
    (h : (c.convert direction mode supply amount).Returns outcome)
    (h' : (c.convert direction mode supply amount').Returns outcome') :
    outcome.amount ≤ outcome'.amount + leeway direction mode c.weight.value := by
  rcases hle.eq_or_lt with rfl | hlt
  · rw [h.unique h']
    exact Int.le_add_of_nonneg_right leeway_nonneg
  have hevaluation := convert_evaluation h
  obtain ⟨k, share, hk, hshare, hresult⟩ := returns_convert h
  obtain ⟨k', share', hk', hshare', hresult'⟩ := returns_convert h'
  obtain rfl := Except.ok.inj (hk.symm.trans hk')
  have hpool : 0 < (sides direction mode c.balance.amount supply).1 ∧
      (sides direction mode c.balance.amount supply).1 ≤ Amount.greatest ∧
      0 ≤ (sides direction mode c.balance.amount supply).2 ∧
      (sides direction mode c.balance.amount supply).2 ≤ Amount.greatest := by
    unfold sides
    split
    · exact ⟨hevaluation.balance_pos, hbalance, hevaluation.supply_pos.le, hsupply⟩
    · exact ⟨hevaluation.supply_pos, hsupply, hevaluation.balance_pos.le, hbalance⟩
  obtain ⟨hwhole, hwhole19, hside, hside19⟩ := hpool
  obtain ⟨hkpos, hlarge | ⟨htiny, hleeway⟩⟩ := exponent_cases hvalid hweight hk
  · have hmono := hshare.mono hkpos hevaluation.amount_pos hlt hwhole19 hin hwhole hlarge hshare'
    exact (result_mono hside hmono hresult hresult').trans
      (Int.le_add_of_nonneg_right leeway_nonneg)
  · obtain ⟨hadd, hone⟩ :=
      hshare.le_add hkpos hevaluation.amount_pos hlt hwhole19 hin hwhole htiny hshare'
    rw [hleeway]
    exact result_le_add_one hside hside19 hadd hone hresult hresult'

end Connector
end BondingCurve
