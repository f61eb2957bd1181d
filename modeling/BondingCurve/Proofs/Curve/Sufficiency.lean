import BondingCurve.Proofs.Curve.SalePrice

/-!
# What an exact conversion asks for is enough, up to one unit

On the exact curve the two ways of a conversion are inverse to each other
(`ExactCurve.le_buy_iff`, `ExactCurve.le_sell_iff`). Computed, what an exact conversion asks for is
worth what was wanted up to parts in `10 ^ 24` (`buyExact_covers`, `sellExact_covers`), and the
market conversion of it adds its own. So it delivers what was wanted or one unit less, and less only
where the requirement has so little to spare on the exact curve (`convert_requirement`). That happens:
a third of three is asked for and comes to nothing (`requirement_falls_short`).
-/

namespace BondingCurve

/-- A share taken off one costs a power less than the share of that share. -/
theorem one_sub_le_one_sub_rpow {t w : ℝ} (ht : t ≤ 3 / 5) (ht0 : 0 ≤ t) (hw : 0 ≤ w) :
    1 - 5 / 2 * (w * t) ≤ (1 - t) ^ w := by
  have hpos : 0 < 1 - t := by linarith
  have hlog : -(5 / 2 * t) ≤ Real.log (1 - t) := by
    have hinv : (1 - t)⁻¹ - 1 = t / (1 - t) := by
      field_simp
      ring
    have hquot : t / (1 - t) ≤ 5 / 2 * t := by
      rw [div_le_iff₀ hpos]
      nlinarith
    linarith [Real.one_sub_inv_le_log_of_pos hpos]
  rw [Real.rpow_def_of_pos hpos]
  have hexp := Real.add_one_le_exp (Real.log (1 - t) * w)
  have hscaled := mul_le_mul_of_nonneg_right hlog hw
  linarith

/-- What is a share short of a root has a power that is not much more short of what the root is of. -/
theorem mul_one_sub_le_rpow {x t w a : ℝ} (hx : 0 ≤ x) (hw : 0 < w) (ht0 : 0 ≤ t)
    (ht : t * w⁻¹ ≤ 3 / 5) (h : x ^ w⁻¹ * (1 - t * w⁻¹) ≤ a) : x * (1 - 5 / 2 * t) ≤ a ^ w := by
  have hroot : (x ^ w⁻¹) ^ w = x := Real.rpow_inv_rpow hx hw.ne'
  have hroot0 : 0 ≤ x ^ w⁻¹ := Real.rpow_nonneg hx _
  have hloss := one_sub_le_one_sub_rpow ht (by positivity) hw.le
  rw [mul_left_comm w t, mul_inv_cancel₀ hw.ne', mul_one] at hloss
  calc x * (1 - 5 / 2 * t) ≤ x * (1 - t * w⁻¹) ^ w := mul_le_mul_of_nonneg_left hloss hx
    _ = (x ^ w⁻¹ * (1 - t * w⁻¹)) ^ w := by rw [Real.mul_rpow hroot0 (by linarith), hroot]
    _ ≤ a ^ w := Real.rpow_le_rpow (mul_nonneg hroot0 (by linarith)) h hw.le

namespace Curve

open Outcome
open Decimal (ulp ulp_pos bound_eq)

variable {balance supply paid wanted : Amount} {w : Decimal} {c : Conversion}

/-! ## Buying -/

/-- The last step of an exact conversion is no less than its share of the side, up to the rounding
of the product. -/
theorem amount_ge {side : Amount} {share d : Decimal} (hside : 0 < side)
    (hd : (orOverflow ((Decimal.ofInt side).mul share)).Returns d)
    (h : (Conversion.roundedUp d).Returns c) :
    (share.toRat : ℝ) - 1 / 10 ^ 28 * max 1 |(share.toRat : ℝ)| ≤ c.amount / side := by
  have hside' : (1 : ℝ) ≤ side := by exact_mod_cast hside
  have hside0 : (0 : ℝ) < side := by linarith
  obtain ⟨htheoretical, houtcome⟩ := Conversion.roundedUp_isOutcome h
  have hamount : (d.toRat : ℝ) ≤ c.amount := by
    have hle : d.toRat ≤ c.amount := by
      refine le_trans ?_ houtcome.le_amount
      rw [htheoretical, Decimal.toRat_max]
      exact le_max_left _ _
    exact_mod_cast hle
  have hround := (Decimal.mul_close (returns_orOverflow.1 hd)).real
  rw [Decimal.toRat_ofInt] at hround
  push_cast at hround
  have hmax : max 1 |(side : ℝ) * share.toRat| ≤ side * max 1 |(share.toRat : ℝ)| := by
    rw [abs_mul, abs_of_pos hside0]
    refine max_le ?_ (mul_le_mul_of_nonneg_left (le_max_right _ _) hside0.le)
    nlinarith [le_max_left 1 |(share.toRat : ℝ)|]
  rw [le_div_iff₀ hside0]
  linarith [(abs_le.1 hround).1]

/-- The steps of an exact buy: the growth of the supply, at the reciprocal of the weight, and the
share of the balance that is gained. -/
theorem buyExact_steps (hw : Ordinary w) (hin : Amount.InRange wanted)
    (h : (buyExact balance supply w wanted).Returns c) :
    0 < balance ∧ 0 < supply ∧ 0 < wanted ∧ ∃ growth gain d : Decimal,
      Within (1 / 10 ^ 24 * (w.toRat : ℝ)⁻¹) growth.toRat
        ((1 + wanted / supply : ℝ) ^ (w.toRat : ℝ)⁻¹) ∧
      gain.toRat = growth.toRat - 1 ∧
      (orOverflow ((Decimal.ofInt balance).mul gain)).Returns d ∧
      (Conversion.roundedUp d).Returns c := by
  simp only [buyExact, returns_bind, returns_lift, returns_checkState] at h
  obtain ⟨-, ⟨hbalance, hsupply, hwanted⟩, grown, hgrown, k, hk, growth, hgrowth, gain, hgain, d,
    hd, h⟩ := h
  have hreciprocal := isReciprocal hw.valid hw.pos hw.le_one hk
  obtain ⟨hvalid, hwithin⟩ := growth_reciprocal_within hw hreciprocal hwanted.le hsupply hin hgrown
    hgrowth
  have hgrowth0 : 0 ≤ growth.toRat := by
    obtain ⟨_, hgrown', -, hone, -⟩ := exists_onePlus hwanted.le hsupply hin
    obtain rfl := Except.ok.inj (hgrown.symm.trans hgrown')
    exact power_nonneg (by linarith) hgrowth
  exact ⟨hbalance, hsupply, hwanted, growth, gain, d, hwithin, gain_eq hvalid hgrowth0 hgain, hd, h⟩

/-- What is asked for `wanted` buys them on the exact curve, up to three parts in `10 ^ 24` of the
supply after it. -/
theorem buyExact_covers (hw : Ordinary w) (hin : Amount.InRange wanted)
    (h : (buyExact balance supply w wanted).Returns c) :
    (wanted : ℝ) - 3 / 10 ^ 24 * (supply + wanted) ≤
      ExactCurve.buy balance supply w.toRat c.amount := by
  obtain ⟨hbalance, hsupply, hwanted, growth, gain, d, hwithin, hgain, hd, h⟩ :=
    buyExact_steps hw hin h
  have hinv := hw.inv_le
  have hinv1 := hw.one_le_inv
  have hw0 := hw.pos_real
  have hbalance' : (0 : ℝ) < balance := by exact_mod_cast hbalance
  have hsupply' : (0 : ℝ) < supply := by exact_mod_cast hsupply
  have hwanted' : (0 : ℝ) < wanted := by exact_mod_cast hwanted
  have hbase : (1 : ℝ) ≤ 1 + wanted / supply := by linarith [div_pos hwanted' hsupply']
  have hpower {a : ℝ} := mul_one_sub_le_rpow (t := 1.1 / 10 ^ 24) (a := a)
    (by linarith : (0 : ℝ) ≤ 1 + wanted / supply) hw0 (by norm_num) (by linarith)
  have hH : 1 ≤ (1 + wanted / supply : ℝ) ^ (w.toRat : ℝ)⁻¹ :=
    Real.one_le_rpow hbase (by linarith)
  generalize (1 + wanted / supply : ℝ) ^ (w.toRat : ℝ)⁻¹ = H at hwithin hH hpower
  have hhalf : (1 / 2 : ℝ) ≤ growth.toRat := by
    linarith [hwithin.half_le (by linarith) (by linarith)]
  -- one more than what is asked for, as a share of the balance
  have hshare := amount_ge hbalance hd h
  rw [hgain] at hshare
  push_cast at hshare
  have hmax : max 1 |(growth.toRat : ℝ) - 1| ≤ 2 * growth.toRat := by
    refine max_le (by linarith) (abs_le.2 ⟨by linarith, by linarith⟩)
  have hge : H * (1 - 1.1 / 10 ^ 24 * (w.toRat : ℝ)⁻¹) ≤ 1 + c.amount / balance := by
    have hscaled := hwithin.ge
    have hH' : 0 ≤ H * ((w.toRat : ℝ)⁻¹ - 1) := mul_nonneg (by linarith) (by linarith)
    have hle := hwithin.le
    have hsmall := mul_le_mul_of_nonneg_right (by linarith : 1 / 10 ^ 24 * (w.toRat : ℝ)⁻¹ ≤ 1)
      (by linarith : 0 ≤ H)
    linarith
  have hscaled := mul_le_mul_of_nonneg_left (hpower hge) hsupply'.le
  rw [ExactCurve.buy]
  have hsides : (supply : ℝ) * ((1 + wanted / supply) * (1 - 5 / 2 * (1.1 / 10 ^ 24))) =
      (supply + wanted) * (1 - 5 / 2 * (1.1 / 10 ^ 24)) := by
    field_simp
  rw [hsides] at hscaled
  linarith

/-- The growth of a buy has a value: the power of a share of an amount is in range. -/
theorem exists_growth (hw : Ordinary w) (hbalance : 0 < balance) (hpaid : 0 < paid)
    (hin : Amount.InRange paid) :
    ∃ grown growth, onePlus paid balance = .ok grown ∧ (power grown w).Returns growth ∧
      growth.Valid ∧ 0 ≤ growth.toRat := by
  obtain ⟨grown, hgrown, hvalid, hone, hclose⟩ := exists_onePlus hpaid.le hbalance hin
  have hgrown' : (1 : ℝ) ≤ grown.toRat := by exact_mod_cast hone
  have hw1 : (w.toRat : ℝ) ≤ 1 := by exact_mod_cast hw.le_one
  have hhigh : (grown.toRat : ℝ) ^ (w.toRat : ℝ) ≤ 10 ^ 28 := by
    have hself := Real.rpow_le_rpow_of_exponent_le hgrown' hw1
    rw [Real.rpow_one] at hself
    have hshare : (paid : ℚ) / balance ≤ 10 ^ 19 :=
      (div_le_self (by exact_mod_cast hpaid.le) (by exact_mod_cast hbalance)).trans
        (cast_le_greatest hin)
    have hgrown28 : grown.toRat ≤ 10 ^ 28 := by
      rw [ulp] at hclose
      linarith [(abs_le.1 hclose).2]
    exact hself.trans (by exact_mod_cast hgrown28)
  obtain ⟨growth, hgrowth⟩ := Decimal.exists_pow hvalid (by linarith) hw.pos
    (hw.le_one.trans (by norm_num)) (fun n hn => by
      have hn1 : (n : ℚ) ≤ 1 := hn ▸ hw.le_one
      have hn1' : n ≤ 1 := by exact_mod_cast hn1
      omega)
    (.inr (le_trans (by norm_num) (Real.one_le_rpow hgrown' hw.pos_real.le))) hhigh
  rw [← returns_power hw.pos] at hgrowth
  exact ⟨grown, growth, hgrown, hgrowth,
    (growth_within hpaid.le hbalance hin hgrown hw.pos (hw.le_one.trans (by norm_num)) hgrowth).1,
    power_nonneg (by linarith) hgrowth⟩

/-- A growth that is close to one whose worth is an amount, with a unit to spare, has a worth that is
an amount when it is computed. -/
theorem worth_le_greatest {growth G : ℝ} (hwithin : Within (8 / 10 ^ 25) growth G)
    (hsupply : 0 < supply) (hin : Amount.InRange supply)
    (hfits : supply * (G - 1) + 1 ≤ (Amount.greatest : ℝ)) :
    supply * (growth - 1) + 1 / 10 ^ 28 * max 1 (supply * (growth - 1)) ≤
      (Amount.greatest : ℝ) := by
  have hsupply' : (0 : ℝ) < supply := by exact_mod_cast hsupply
  have hsupply19 : (supply : ℝ) ≤ 10 ^ 19 := by exact_mod_cast cast_le_greatest hin
  have hgreatest : ((Amount.greatest : ℤ) : ℝ) ≤ 10 ^ 19 := by norm_num [Amount.greatest]
  have hSG : (supply : ℝ) * G ≤ 2 * 10 ^ 19 := by linarith
  have hproduct : (supply : ℝ) * (growth - 1) ≤ supply * (G - 1) + 1 / 2 := by
    have hscaled := mul_le_mul_of_nonneg_left hwithin.le hsupply'.le
    linarith
  have hmax : max 1 ((supply : ℝ) * (growth - 1)) ≤ 10 ^ 20 := max_le (by norm_num) (by linarith)
  linarith [mul_le_mul_of_nonneg_left hmax (by norm_num : (0 : ℝ) ≤ 1 / 10 ^ 28)]

/-- A buy returns when what it delivers is an amount, with a unit to spare. -/
theorem exists_buy (hw : Ordinary w) (hbalance : 0 < balance) (hsupply : 0 < supply) (hpaid : 0 < paid)
    (hinSupply : Amount.InRange supply) (hin : Amount.InRange paid)
    (hfits : ExactCurve.buy balance supply w.toRat paid + 1 ≤ Amount.greatest) :
    ∃ c, (buy balance supply w paid).Returns c := by
  obtain ⟨grown, growth, hgrown, hgrowth, hvalid, hgrowth0⟩ := exists_growth hw hbalance hpaid hin
  have hw1 : (w.toRat : ℝ) ≤ 1 := by exact_mod_cast hw.le_one
  have hG : 0 < (1 + paid / balance : ℝ) ^ (w.toRat : ℝ) := by
    have hshare : (0 : ℝ) ≤ paid / balance :=
      div_nonneg (by exact_mod_cast hpaid.le) (by exact_mod_cast hbalance.le)
    exact Real.rpow_pos_of_pos (by linarith) _
  have hwithin := (growth_within hpaid.le hbalance hin hgrown hw.pos
    (hw.le_one.trans (by norm_num)) hgrowth).2.mono hG.le (by linarith : _ ≤ (8 / 10 ^ 25 : ℝ))
  have hworth := worth_le_greatest hwithin hsupply hinSupply hfits
  obtain ⟨gain, hgain, -, hvalue⟩ := Decimal.sub_one_exact hvalid hgrowth0
  obtain ⟨d, c, hd, hc⟩ := exists_result_of_neg_one_le .market hsupply.le hinSupply
    (by rw [hvalue]; linarith : -1 ≤ gain.toRat) (.inr (by
      rw [ulp, hvalue, ← Rat.cast_le (K := ℝ)]
      push_cast
      exact hworth))
  refine ⟨c, ?_⟩
  simp only [buy, returns_bind, returns_lift]
  exact ⟨(), returns_checkState.2 ⟨hbalance, hsupply, hpaid⟩, grown, hgrown, growth, hgrowth, gain,
    by rw [Decimal.subOrAbort, hgain]; rfl, d, hd, hc⟩

/-! ## Selling -/

/-- A share of the supply that is not above one asks for no more than the supply. -/
theorem amount_le_side {side : Amount} {share d : Decimal} (hside : 0 ≤ side) (hshare : share.toRat ≤ 1)
    (hd : (orOverflow ((Decimal.ofInt side).mul share)).Returns d)
    (h : (Conversion.roundedUp d).Returns c) : c.amount ≤ side := by
  obtain ⟨htheoretical, houtcome⟩ := Conversion.roundedUp_isOutcome h
  obtain ⟨n, rfl⟩ := Int.eq_ofNat_of_zero_le hside
  have hexact : (Decimal.ofInt n).toRat * share.toRat ≤ (n : ℚ) := by
    rw [Decimal.toRat_ofInt, Int.cast_natCast]
    exact mul_le_of_le_one_right (Nat.cast_nonneg n) hshare
  have hvalue : c.theoretical.toRat ≤ n := by
    rw [htheoretical, Decimal.toRat_max, Decimal.toRat_zero]
    exact max_le (Decimal.mul_le (returns_orOverflow.1 hd) hexact) (Nat.cast_nonneg n)
  have hceil := Int.ceil_mono hvalue
  rw [Int.ceil_natCast] at hceil
  exact houtcome.amount_eq.trans_le hceil

/-- The steps of an exact sale: what is left of the balance, its power, and the share of the supply
that is lost. -/
theorem sellExact_steps (hw : Ordinary w) (hinBalance : Amount.InRange balance)
    (h : (sellExact balance supply w wanted).Returns c) :
    0 < balance ∧ 0 < supply ∧ ∃ rest shrunk loss d : Decimal, IsRest wanted balance rest ∧
      0 ≤ shrunk.toRat ∧ |(shrunk.toRat : ℝ) - (rest.toRat : ℝ) ^ (w.toRat : ℝ)| ≤ 6 / 10 ^ 25 ∧
      loss.toRat = 1 - shrunk.toRat ∧
      (orOverflow ((Decimal.ofInt supply).mul loss)).Returns d ∧
      (Conversion.roundedUp d).Returns c := by
  simp only [sellExact, returns_bind, returns_lift, returns_checkState, returns_ite,
    not_returns_throw, false_and, exists_false, and_false, false_or] at h
  obtain ⟨-, ⟨hbalance, hsupply, hwanted⟩, hlt, rest, hrest, shrunk, hshrunk, loss, hloss, d, hd, h⟩ := h
  obtain ⟨rest', hrest', hisrest⟩ := exists_rest hwanted (not_le.1 hlt) hinBalance
  obtain rfl := Except.ok.inj (hrest.symm.trans hrest')
  obtain ⟨hvalid, hclose⟩ := shrunk_close hisrest.valid hisrest.pos.le hisrest.le_one hw.pos
    (hw.le_one.trans (by norm_num)) hshrunk
  have hw1 : (w.toRat : ℝ) ≤ 1 := by exact_mod_cast hw.le_one
  have hshrunk0 : 0 ≤ shrunk.toRat := power_nonneg hisrest.pos.le hshrunk
  have hshrunk2 : (shrunk.toRat : ℝ) ≤ 2 := by
    linarith [(abs_le.1 hclose).2, hisrest.pow_le_one hw.pos]
  exact ⟨hbalance, hsupply, rest, shrunk, loss, d, hisrest, hshrunk0, hclose.trans (by linarith),
    loss_eq hvalid hshrunk0 ((by exact_mod_cast hshrunk2 : shrunk.toRat ≤ 2).trans (by norm_num)) hloss,
    hd, h⟩

/-- What is asked for `wanted` sells for them on the exact curve, up to a part in `10 ^ 24` of the
balance over the weight. It is part of the supply. -/
theorem sellExact_covers (hw : Ordinary w) (hinBalance : Amount.InRange balance)
    (h : (sellExact balance supply w wanted).Returns c) :
    c.amount ≤ supply ∧ (wanted : ℝ) - 7 / 10 ^ 25 * (balance * (w.toRat : ℝ)⁻¹) ≤
      ExactCurve.sell balance supply w.toRat c.amount := by
  obtain ⟨hbalance, hsupply, rest, shrunk, loss, d, hisrest, hshrunk0, hclose, hvalue, hd, h⟩ :=
    sellExact_steps hw hinBalance h
  have hinv1 := hw.one_le_inv
  have hbalance' : (0 : ℝ) < balance := by exact_mod_cast hbalance
  have hsupply' : (0 : ℝ) < supply := by exact_mod_cast hsupply
  have hrest0 : (0 : ℝ) ≤ rest.toRat := by exact_mod_cast hisrest.pos.le
  have hpower0 : 0 ≤ (rest.toRat : ℝ) ^ (w.toRat : ℝ) := Real.rpow_nonneg hrest0 _
  have hpower1 := hisrest.pow_le_one hw.pos
  have hroot : ((rest.toRat : ℝ) ^ (w.toRat : ℝ)) ^ (w.toRat : ℝ)⁻¹ = rest.toRat :=
    Real.rpow_rpow_inv hrest0 hw.pos_real.ne'
  generalize (rest.toRat : ℝ) ^ (w.toRat : ℝ) = y at hclose hpower0 hpower1 hroot
  have hle : c.amount ≤ supply := amount_le_side hsupply.le (by linarith) hd h
  refine ⟨hle, ?_⟩
  -- what the requirement leaves of the supply is not much more than the power says
  have hshare := amount_ge hsupply hd h
  rw [hvalue] at hshare
  push_cast at hshare
  have hshrunk0' : (0 : ℝ) ≤ shrunk.toRat := by exact_mod_cast hshrunk0
  have hshrunk2 : (shrunk.toRat : ℝ) ≤ 2 := by linarith [(abs_le.1 hclose).2]
  rw [max_eq_left (abs_le.2 ⟨by linarith, by linarith⟩)] at hshare
  have hleft0 : (0 : ℝ) ≤ 1 - c.amount / supply := by
    rw [sub_nonneg, div_le_one hsupply']
    exact_mod_cast hle
  have hleft1 : (1 : ℝ) - c.amount / supply ≤ 1 := by
    have hamount : (0 : ℝ) ≤ c.amount := by
      exact_mod_cast (Conversion.roundedUp_isOutcome h).2.amount_nonneg
    linarith [div_nonneg hamount hsupply'.le]
  have hleft : (1 : ℝ) - c.amount / supply ≤ y + 6.1 / 10 ^ 25 := by
    linarith [(abs_le.1 hclose).2]
  -- and its power not much more than what is left of the balance
  have hpower := rpow_le_add hleft0 hleft1 hpower0 hpower1 hinv1 (by norm_num) hleft
  rw [hroot] at hpower
  have hrestle := (abs_le.1 hisrest.close).2
  have hback : (balance : ℝ) * (1 - wanted / balance) = balance - wanted := by
    field_simp
  rw [ExactCurve.sell]
  have hscaled := mul_le_mul_of_nonneg_left (hpower.trans (by linarith :
    (rest.toRat : ℝ) + 6.1 / 10 ^ 25 * (w.toRat : ℝ)⁻¹ ≤
      1 - wanted / balance + 7 / 10 ^ 25 * (w.toRat : ℝ)⁻¹)) hbalance'.le
  rw [mul_add, hback] at hscaled
  linarith

/-! ## Both ways -/

/-- What a market conversion delivers on the exact curve. -/
noncomputable def exactMarket : Direction → (balance supply w given : ℝ) → ℝ
  | .buy => ExactCurve.buy
  | .sell => ExactCurve.sell

/-- What a requirement needs to spare on the exact curve, to be enough in decimals. -/
noncomputable def spare : Direction → (balance supply w wanted : ℝ) → ℝ
  | .buy, _, supply, _, wanted => (2 / 10 ^ 24 : ℚ) * (supply + wanted)
  | .sell, balance, _, w, _ => (1 / 10 ^ 24 : ℚ) * (balance * w⁻¹)

/-- A market conversion that is close enough to the exact curve delivers what a requirement is worth
there, up to one unit. -/
theorem delivers {delivered : Conversion} {exact spare : ℝ} (h : delivered.IsOutcome .market)
    (hlow : (wanted : ℝ) - 1 ≤ delivered.theoretical.toRat)
    (hspare : (wanted : ℝ) + spare ≤ exact → (wanted : ℝ) ≤ delivered.theoretical.toRat) :
    wanted - 1 ≤ delivered.amount ∧
      ((wanted : ℝ) + spare ≤ exact → wanted ≤ delivered.amount) := by
  have hfloor {n : ℤ} (hn : (n : ℝ) ≤ delivered.theoretical.toRat) : n ≤ delivered.amount := by
    rw [h.amount_eq]
    exact Int.le_floor.2 (by exact_mod_cast hn)
  exact ⟨hfloor (by push_cast; exact hlow), fun hle => hfloor (hspare hle)⟩

end Curve

namespace Connector

open Curve Outcome

variable {c : Connector} {supply wanted : Amount} {required : Conversion}

theorem convert_buy_requirement (hw : Ordinary c.weight.value)
    (hinSupply : Amount.InRange supply) (hinWanted : Amount.InRange wanted)
    (hrequired : (c.convert .buy .exact supply wanted).Returns required)
    (hfits : ExactCurve.buy c.balance.amount supply c.weight.value.toRat required.amount + 1 ≤
      Amount.greatest) :
    ∃ delivered, (c.convert .buy .market supply required.amount).Returns delivered ∧
      wanted - 1 ≤ delivered.amount ∧
      ((wanted : ℝ) + spare .buy c.balance.amount supply c.weight.value.toRat wanted ≤
          exactMarket .buy c.balance.amount supply c.weight.value.toRat required.amount →
        wanted ≤ delivered.amount) := by
  obtain ⟨hbalance, hsupply, hwanted, houtcome⟩ := buyExact_evaluation hrequired
  have hcovers := buyExact_covers hw hinWanted hrequired
  have hsupply19 : (supply : ℝ) ≤ 10 ^ 19 := by exact_mod_cast cast_le_greatest hinSupply
  have hwanted19 : (wanted : ℝ) ≤ 10 ^ 19 := by exact_mod_cast cast_le_greatest hinWanted
  have hwanted1 : (1 : ℝ) ≤ wanted := by exact_mod_cast hwanted
  have hsupply1 : (1 : ℝ) ≤ supply := by exact_mod_cast hsupply
  have hpaid : 0 < required.amount := by
    refine lt_of_le_of_ne houtcome.amount_nonneg fun hzero => ?_
    rw [← hzero, ExactCurve.buy] at hcovers
    norm_num at hcovers
    linarith
  obtain ⟨delivered, hdelivered⟩ := exists_buy hw hbalance hsupply hpaid hinSupply
    houtcome.amount_inRange hfits
  have hclose := (abs_le.1 (buy_close hw houtcome.amount_inRange hdelivered)).1
  refine ⟨delivered, hdelivered, delivers (buy_evaluation hdelivered).outcome (by linarith)
    fun hspare => ?_⟩
  simp only [spare, exactMarket] at hspare
  push_cast at hspare
  linarith

theorem convert_sell_requirement (hw : Ordinary c.weight.value)
    (hlarge : 2 * (c.balance.amount : ℚ) ≤ 10 ^ 24 * c.weight.value.toRat)
    (hinBalance : Amount.InRange c.balance.amount) (hinSupply : Amount.InRange supply)
    (hrequired : (c.convert .sell .exact supply wanted).Returns required)
    (hpriced : IsPriced supply required.amount c.weight.value) :
    ∃ delivered, (c.convert .sell .market supply required.amount).Returns delivered ∧
      wanted - 1 ≤ delivered.amount ∧
      ((wanted : ℝ) + spare .sell c.balance.amount supply c.weight.value.toRat wanted ≤
          exactMarket .sell c.balance.amount supply c.weight.value.toRat required.amount →
        wanted ≤ delivered.amount) := by
  obtain ⟨⟨hbalance, hsupply, hwanted, houtcome⟩, -⟩ := sellExact_evaluation hrequired
  obtain ⟨hle, hcovers⟩ := sellExact_covers hw hinBalance hrequired
  have hwanted1 : (1 : ℝ) ≤ wanted := by exact_mod_cast hwanted
  have hunit : 2 * ((c.balance.amount : ℝ) * (c.weight.value.toRat : ℝ)⁻¹) ≤ 10 ^ 24 := by
    have hlarge' : 2 * (c.balance.amount : ℝ) ≤ 10 ^ 24 * c.weight.value.toRat := by
      exact_mod_cast hlarge
    rwa [← mul_assoc, ← div_eq_mul_inv, div_le_iff₀ hw.pos_real]
  have hsold : 0 < required.amount := by
    refine lt_of_le_of_ne houtcome.amount_nonneg fun hzero => ?_
    rw [← hzero, ExactCurve.sell] at hcovers
    norm_num at hcovers
    linarith
  obtain ⟨delivered, hdelivered⟩ := exists_sell hw.valid hw.pos hw.le_one hbalance hinBalance
    hinSupply hsold hle hpriced
  have hclose := (abs_le.1 (sell_close hw houtcome.amount_inRange hdelivered)).1
  refine ⟨delivered, hdelivered, delivers (sell_evaluation hdelivered).1.outcome (by linarith)
    fun hspare => ?_⟩
  simp only [spare, exactMarket] at hspare
  push_cast at hspare
  linarith

/-- Where a pool holds no more than `5 * 10 ^ 23` times its weight, what an exact conversion asks for
delivers what was wanted, or one unit less. It delivers what was wanted where it has a little to spare
on the exact curve. The market conversion must have a result at all: an output that is an amount, or
a price. -/
theorem convert_requirement (direction : Direction) (hvalid : c.weight.value.Valid)
    (hweight : Weight.IsValid c.weight.value)
    (hlarge : 2 * (c.balance.amount : ℚ) ≤ 10 ^ 24 * c.weight.value.toRat)
    (hinBalance : Amount.InRange c.balance.amount) (hinSupply : Amount.InRange supply)
    (hinWanted : Amount.InRange wanted)
    (hrequired : (c.convert direction .exact supply wanted).Returns required)
    (hresult : match direction with
      | .buy => ExactCurve.buy c.balance.amount supply c.weight.value.toRat required.amount + 1 ≤
          Amount.greatest
      | .sell => IsPriced supply required.amount c.weight.value) :
    ∃ delivered, (c.convert direction .market supply required.amount).Returns delivered ∧
      wanted - 1 ≤ delivered.amount ∧
      ((wanted : ℝ) + spare direction c.balance.amount supply c.weight.value.toRat wanted ≤
          exactMarket direction c.balance.amount supply c.weight.value.toRat required.amount →
        wanted ≤ delivered.amount) := by
  have hbalance : 0 < c.balance.amount := (convert_evaluation hrequired).balance_pos
  have hbalance1 : (1 : ℚ) ≤ c.balance.amount := by exact_mod_cast hbalance
  have hw : Ordinary c.weight.value := ⟨hvalid, by linarith, hweight.le_one⟩
  cases direction with
  | buy => exact convert_buy_requirement hw hinSupply hinWanted hrequired hresult
  | sell => exact convert_sell_requirement hw hlarge hinBalance hinSupply hrequired hresult

/-- With a weight of a half, 323 of a thousand are asked for 150 of a thousand, and are enough. -/
theorem rounded_requirement_suffices :
    ∃ required delivered,
      ((Sample.connector 1000 ⟨5, 1, false⟩).convert .buy .exact 1000 150).Returns required ∧
      ((Sample.connector 1000 ⟨5, 1, false⟩).convert .buy .market 1000 required.amount).Returns
        delivered ∧ 150 ≤ delivered.amount := by
  have hyields : Abort.Yields ((Sample.connector 1000 ⟨5, 1, false⟩).convert .buy .exact 1000
      150).run fun answer => Abort.Yields answer fun required => required.amount = 323 := by
    decide +kernel
  obtain ⟨_, hr, required, rfl, hamount⟩ := hyields
  have hw : (((Sample.connector 1000 ⟨5, 1, false⟩).weight.value.toRat : ℚ) : ℝ) = 1 / 2 := by
    norm_num [Sample.connector, Decimal.toRat, Decimal.powTen]
  have hroot : (1.1502 : ℝ) ≤ 1.323 ^ (1 / 2 : ℝ) ∧ (1.323 : ℝ) ^ (1 / 2 : ℝ) ≤ 1.323 := by
    rw [← Real.sqrt_eq_rpow]
    exact ⟨Real.le_sqrt_of_sq_le (by norm_num), Real.sqrt_le_iff.2 (by norm_num)⟩
  have hworth : ExactCurve.buy (Sample.connector 1000 ⟨5, 1, false⟩).balance.amount (1000 : Amount)
      (Sample.connector 1000 ⟨5, 1, false⟩).weight.value.toRat required.amount =
        1000 * (1.323 ^ (1 / 2 : ℝ) - 1) := by
    rw [ExactCurve.buy, hw, hamount]
    norm_num [Sample.connector]
  obtain ⟨delivered, hd, -, henough⟩ := convert_requirement .buy ⟨by decide, by decide, by decide⟩
    (by decide) (by norm_num [Sample.connector, Decimal.toRat, Decimal.powTen]) (by decide) (by decide)
    (by decide) hr (by
      show ExactCurve.buy _ _ _ _ + 1 ≤ _
      rw [hworth]
      norm_num [Amount.greatest]
      linarith [hroot.2])
  refine ⟨required, delivered, hr, hd, henough ?_⟩
  show _ ≤ ExactCurve.buy _ _ _ _
  rw [hworth, spare]
  norm_num
  linarith [hroot.1]

/-- One unit is asked for one unit, and it buys nothing, since a third has no last digit. -/
theorem requirement_falls_short :
    ∃ required delivered,
      ((Sample.connector 3 .one).convert .buy .exact 3 1).Returns required ∧
      ((Sample.connector 3 .one).convert .buy .market 3 required.amount).Returns delivered ∧
      ¬1 ≤ delivered.amount := by
  have hyields : Abort.Yields ((Sample.connector 3 .one).convert .buy .exact 3 1).run fun answer =>
      Abort.Yields answer fun required => Abort.Yields
        ((Sample.connector 3 .one).convert .buy .market 3 required.amount).run fun answer =>
          Abort.Yields answer fun delivered => ¬1 ≤ delivered.amount := by
    decide +kernel
  obtain ⟨_, hr, required, rfl, _, hd, delivered, rfl, hshort⟩ := hyields
  exact ⟨required, delivered, hr, hd, hshort⟩

end Connector
end BondingCurve
