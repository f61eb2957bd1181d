import BondingCurve.Proofs.Curve.Accuracy
import BondingCurve.Proofs.Curve.FullWeight

/-!
# Which sales have a price

What a sale leaves of the balance is a power of what it leaves of the supply, under the reciprocal
of the weight. The true result is never more than the balance, but the power has to be computed: a
whole exponent is squared up and may underflow to nothing, and from `2 ^ 32` on it is refused; any
other exponent goes through the logarithm, which has no result near nothing. `IsPriced` says which
sales that leaves, and they all have a price; `IsOutOfReach` says which have none. An exact sale takes
the power under the weight itself and always has one (`convert_sell_ends`).
-/

namespace BondingCurve
namespace Curve

open Outcome
open Decimal (ulp ulp_pos bound_eq)

variable {part whole balance supply sold wanted : Amount} {w k rest : Decimal}

/-! ## What is left of a pool -/

/-- What is left of a pool when a part of it is gone that is neither nothing nor all of it. -/
structure IsRest (part whole : Amount) (rest : Decimal) : Prop where
  valid : rest.Valid
  low : 1 / 10 ^ 20 ≤ rest.toRat
  le_one : rest.toRat ≤ 1
  share_ge : 1 / 10 ^ 19 ≤ (part : ℝ) / whole
  left_ge : 1 / 10 ^ 19 ≤ 1 - (part : ℝ) / whole
  close : |(rest.toRat : ℝ) - (1 - part / whole)| ≤ 1 / 10 ^ 28

theorem exists_rest (hpart : 0 < part) (hlt : part < whole) (hin : Amount.InRange whole) :
    ∃ rest, oneMinus part whole = .ok rest ∧ IsRest part whole rest := by
  have hwhole : 0 < whole := hpart.trans hlt
  have hleast : Amount.least ≤ 0 := by decide
  obtain ⟨rest, hrest, hvalid, -, h1, hclose⟩ := exists_oneMinus hpart.le hlt.le hwhole
    ⟨hleast.trans hpart.le, hlt.le.trans hin.2⟩
  have hwhole' : (0 : ℚ) < whole := by exact_mod_cast hwhole
  have hwhole19 := cast_le_greatest hin
  have hunit : (1 : ℚ) / 10 ^ 19 ≤ 1 / whole := one_div_le_one_div_of_le hwhole' hwhole19
  have hshare : (1 : ℚ) / 10 ^ 19 ≤ (part : ℚ) / whole := by
    refine hunit.trans (div_le_div_of_nonneg_right ?_ hwhole'.le)
    exact_mod_cast hpart
  have hleft : (1 : ℚ) / 10 ^ 19 ≤ 1 - (part : ℚ) / whole := by
    refine hunit.trans ?_
    rw [one_sub_div hwhole'.ne']
    refine div_le_div_of_nonneg_right ?_ hwhole'.le
    have hgap : part + 1 ≤ whole := hlt
    have hgap' : (part : ℚ) + 1 ≤ whole := by exact_mod_cast hgap
    linarith
  have hclose' : |(rest.toRat : ℝ) - (1 - part / whole)| ≤ ((ulp : ℚ) : ℝ) := by
    exact_mod_cast hclose
  have hshare' : ((1 / 10 ^ 19 : ℚ) : ℝ) ≤ (part : ℝ) / whole := by exact_mod_cast hshare
  have hleft' : ((1 / 10 ^ 19 : ℚ) : ℝ) ≤ 1 - (part : ℝ) / whole := by exact_mod_cast hleft
  rw [ulp] at hclose hclose'
  push_cast at hclose' hshare' hleft'
  exact ⟨rest, hrest, hvalid, by linarith [(abs_le.1 hclose).1], h1, hshare', hleft', hclose'⟩

theorem IsRest.pos (h : IsRest part whole rest) : 0 < rest.toRat :=
  lt_of_lt_of_le (by norm_num) h.low

theorem IsRest.left_pos (h : IsRest part whole rest) : (0 : ℝ) < 1 - part / whole :=
  lt_of_lt_of_le (by norm_num) h.left_ge

theorem IsRest.left_le_one (h : IsRest part whole rest) : 1 - (part : ℝ) / whole ≤ 1 := by
  linarith [h.share_ge]

theorem IsRest.inv_left_le (h : IsRest part whole rest) :
    (1 - part / whole : ℝ)⁻¹ ≤ 10 ^ 19 := by
  rw [inv_le_comm₀ h.left_pos (by norm_num)]
  linarith [h.left_ge]

/-- The rounding is a small share of what is left, since a unit is left. -/
theorem IsRest.within (h : IsRest part whole rest) :
    Within (1 / 10 ^ 28 * (1 - part / whole : ℝ)⁻¹) rest.toRat (1 - part / whole) := by
  rw [Within, mul_assoc, inv_mul_cancel₀ h.left_pos.ne', mul_one]
  exact h.close

theorem IsRest.pow_le_one (h : IsRest part whole rest) (hk : 0 < k.toRat) :
    (rest.toRat : ℝ) ^ (k.toRat : ℝ) ≤ 1 :=
  Real.rpow_le_one (by exact_mod_cast h.pos.le) (by exact_mod_cast h.le_one) (by exact_mod_cast hk.le)

/-- The logarithm of what is left, for the rounding of the rest. -/
theorem IsRest.log_close (h : IsRest part whole rest) :
    |Real.log rest.toRat - Real.log (1 - part / whole)| ≤
      2 * (1 / 10 ^ 28 / (1 - part / whole)) := by
  rw [div_eq_mul_inv]
  exact h.within.log (by linarith [h.inv_left_le]) h.left_pos

/-- Under an exponent that is small for the share taken off, the rounding of what is left does not
tell, whichever of the two parts is the larger. -/
theorem mul_rounding_le {k x : ℝ} (hk0 : 0 ≤ k) (hk : k ≤ 10 ^ 21) (hkx : k * x ≤ 62.3)
    (hleft : 1 / 10 ^ 19 ≤ 1 - x) : k * (2 * (1 / 10 ^ 28 / (1 - x))) ≤ 0.1 := by
  have hpos : 0 < 1 - x := by linarith
  rcases le_total x (1 / 2) with hhalf | hhalf
  · have hinv : 1 / 10 ^ 28 / (1 - x) ≤ 2 / 10 ^ 28 := by
      rw [div_le_iff₀ hpos]
      linarith
    have hle := mul_le_mul hk (mul_le_mul_of_nonneg_left hinv (by norm_num : (0 : ℝ) ≤ 2))
      (by positivity) (by norm_num)
    exact hle.trans (by norm_num)
  · have hinv : 1 / 10 ^ 28 / (1 - x) ≤ 1 / 10 ^ 9 := by
      rw [div_le_iff₀ hpos]
      linarith
    have hk125 : k ≤ 125 := by
      linarith [mul_le_mul_of_nonneg_left hhalf hk0]
    have hle := mul_le_mul hk125 (mul_le_mul_of_nonneg_left hinv (by norm_num : (0 : ℝ) ≤ 2))
      (by positivity) (by norm_num)
    exact hle.trans (by norm_num)

/-- Where the exact power of what is left is no less than a part in `10 ^ 27`, the exponent is not
enormous and the power that is computed is in range. -/
theorem IsRest.power_ge (h : IsRest part whole rest) (h0 : 0 < w.toRat) (hk : IsReciprocal w k)
    (hge : 1 / 10 ^ 27 ≤ (1 - part / whole : ℝ) ^ (w.toRat : ℝ)⁻¹) :
    k.toRat ≤ 10 ^ 24 ∧ 1 / 10 ^ 28 ≤ (rest.toRat : ℝ) ^ (k.toRat : ℝ) := by
  have hrest : (0 : ℝ) < rest.toRat := by exact_mod_cast h.pos
  have hk1 := hk.one_le_real
  have hkle := hk.le_real h0
  have hlogs := h.log_close
  have hx := h.share_ge
  have hy := h.left_ge
  obtain ⟨hten, hten'⟩ := Decimal.log_ten_mem
  generalize (part : ℝ) / whole = x at hge hlogs hx hy
  have hpos : 0 < 1 - x := by linarith
  -- the exponent times the logarithm of what is left is small
  have hpower : (w.toRat : ℝ)⁻¹ * -Real.log (1 - x) ≤ 62.2 := by
    have hlog := Real.log_le_log (by norm_num) hge
    rw [Real.log_rpow hpos, one_div, Real.log_inv, Real.log_pow] at hlog
    push_cast at hlog
    linarith
  have hshare : x ≤ -Real.log (1 - x) := by
    linarith [Real.log_le_sub_one_of_pos hpos]
  have hkL : (k.toRat : ℝ) * -Real.log (1 - x) ≤ 62.3 := by
    have hle := mul_le_mul_of_nonneg_right hkle (by linarith : 0 ≤ -Real.log (1 - x))
    linarith
  have hkx : (k.toRat : ℝ) * x ≤ 62.3 :=
    (mul_le_mul_of_nonneg_left hshare (by linarith)).trans hkL
  have hk21 : (k.toRat : ℝ) ≤ 10 ^ 21 := by
    have hle := mul_le_mul_of_nonneg_left hx (by linarith : (0 : ℝ) ≤ k.toRat)
    linarith
  have hround := mul_rounding_le (by linarith : (0 : ℝ) ≤ k.toRat) hk21 hkx hy
  refine ⟨by exact_mod_cast hk21.trans (by norm_num : (10 : ℝ) ^ 21 ≤ 10 ^ 24), ?_⟩
  have hlogk := mul_le_mul_of_nonneg_left (abs_le.1 hlogs).1 (by linarith : (0 : ℝ) ≤ k.toRat)
  rw [Real.rpow_def_of_pos hrest, ← Real.exp_log (by norm_num : (0 : ℝ) < 1 / 10 ^ 28)]
  apply Real.exp_le_exp.2
  rw [one_div, Real.log_inv, Real.log_pow]
  push_cast
  linarith

/-- The power behind a sale can be computed: the sale is a total one, or the reciprocal of the
weight is a whole number of less than 33 bits, or it is not whole and the sale leaves a part in
`10 ^ 27` of the balance. -/
def IsPriced (supply sold : Amount) (w : Decimal) : Prop :=
  sold = supply ∨ ∃ k, Decimal.one.divOrAbort w = .ok k ∧ (∀ n : ℕ, k.toRat = n → n < 2 ^ 32) ∧
    ((∃ n : ℕ, k.toRat = n) ∨ 1 / 10 ^ 27 ≤ (1 - sold / supply : ℝ) ^ (w.toRat : ℝ)⁻¹)

/-- What a power leaves is between nothing and a little over one, so the loss can be taken. -/
theorem exists_loss_of_shrunk {shrunk : Decimal} (hvalid : shrunk.Valid) (h0 : 0 ≤ shrunk.toRat)
    (h2 : shrunk.toRat ≤ 2) :
    ∃ loss, Decimal.one.subOrAbort shrunk = .ok loss ∧ -1 ≤ loss.toRat ∧ loss.toRat ≤ 1 := by
  obtain ⟨loss, hloss, -, hvalue⟩ := Decimal.sub_exact_of_lt Decimal.valid_one hvalid (by
    have hle : |1 - shrunk.toRat| ≤ 1 := by
      rw [abs_le]
      constructor <;> linarith
    rw [Decimal.toRat_one, bound_eq]
    exact (mul_le_mul_of_nonneg_right hle (by norm_num)).trans_lt (by norm_num))
  rw [Decimal.toRat_one] at hvalue
  exact ⟨loss, by rw [Decimal.subOrAbort, hloss]; rfl, by linarith, by linarith⟩

/-- A power of what is left that is in range, and its loss. -/
theorem IsRest.exists_loss (h : IsRest part whole rest) (hk : 0 < k.toRat) (hk24 : k.toRat ≤ 10 ^ 24)
    (hwhole : ∀ n : ℕ, k.toRat = n → n < 2 ^ 32)
    (hlow : (∃ n : ℕ, k.toRat = n) ∨ 1 / 10 ^ 28 ≤ (rest.toRat : ℝ) ^ (k.toRat : ℝ)) :
    ∃ shrunk loss, (power rest k).Returns shrunk ∧ Decimal.one.subOrAbort shrunk = .ok loss ∧
      -1 ≤ loss.toRat ∧ loss.toRat ≤ 1 := by
  obtain ⟨shrunk, hshrunk⟩ := Decimal.exists_pow h.valid h.pos hk hk24 hwhole hlow
    ((h.pow_le_one hk).trans (by norm_num))
  rw [← returns_power hk] at hshrunk
  obtain ⟨hvalid, hclose⟩ := shrunk_close h.valid h.pos.le h.le_one hk hk24 hshrunk
  have hk24' : (k.toRat : ℝ) ≤ 10 ^ 24 := by exact_mod_cast hk24
  have hshrunk2 : (shrunk.toRat : ℝ) ≤ 2 := by
    linarith [(abs_le.1 hclose).2, h.pow_le_one hk]
  obtain ⟨loss, hloss, hlow', hhigh⟩ :=
    exists_loss_of_shrunk hvalid (power_nonneg h.pos.le hshrunk) (by exact_mod_cast hshrunk2)
  exact ⟨shrunk, loss, hshrunk, hloss, hlow', hhigh⟩

/-- A total sale leaves nothing, and nothing has any power. -/
theorem exists_total_loss (hsupply : 0 < supply) (hin : Amount.InRange supply) (hk : 0 < k.toRat) :
    ∃ rest shrunk loss, oneMinus supply supply = .ok rest ∧ (power rest k).Returns shrunk ∧
      Decimal.one.subOrAbort shrunk = .ok loss ∧ -1 ≤ loss.toRat ∧ loss.toRat ≤ 1 := by
  obtain ⟨rest, hrest, hvalid, -⟩ := exists_oneMinus hsupply.le le_rfl hsupply hin
  have hsupply' : (supply : ℚ) ≠ 0 := by exact_mod_cast hsupply.ne'
  have hzero : rest.toRat = 0 := by
    rw [oneMinus_exact (d := .ofInt 2) hsupply.le le_rfl hsupply hin
      (Decimal.valid_ofInt (by decide)) (by rw [div_self hsupply']; norm_num) hrest,
      div_self hsupply', sub_self]
  obtain ⟨shrunk, hshrunk, hsvalid, hvalue⟩ := Decimal.pow_trivial (.inl hzero) hk hvalid
  have hshrunk0 : shrunk.toRat = 0 := by
    have hk' : (k.toRat : ℝ) ≠ 0 := by exact_mod_cast hk.ne'
    rw [hzero, Rat.cast_zero, Real.zero_rpow hk'] at hvalue
    exact_mod_cast hvalue
  obtain ⟨loss, hloss, hlow, hhigh⟩ := exists_loss_of_shrunk hsvalid (by rw [hshrunk0])
    (by rw [hshrunk0]; norm_num)
  exact ⟨rest, shrunk, loss, hrest, (returns_power hk).2 hshrunk, hloss, hlow, hhigh⟩

/-! ## The two sales -/

theorem exists_sell (hw : w.Valid) (h0 : 0 < w.toRat) (h1 : w.toRat ≤ 1) (hbalance : 0 < balance)
    (hinBalance : Amount.InRange balance) (hinSupply : Amount.InRange supply) (hsold : 0 < sold)
    (hle : sold ≤ supply) (hpriced : IsPriced supply sold w) :
    ∃ c, (sell balance supply w sold).Returns c := by
  have hsupply : 0 < supply := hsold.trans_le hle
  obtain ⟨k, hk, hreciprocal⟩ := exists_reciprocal hw h0 h1
  have hk0 : 0 < k.toRat := zero_lt_one.trans_le hreciprocal.one_le
  obtain ⟨rest, shrunk, loss, hrest, hshrunk, hloss, hlow, hhigh⟩ : ∃ rest shrunk loss,
      oneMinus sold supply = .ok rest ∧ (power rest k).Returns shrunk ∧
        Decimal.one.subOrAbort shrunk = .ok loss ∧ -1 ≤ loss.toRat ∧ loss.toRat ≤ 1 := by
    rcases hpriced with rfl | ⟨k', hk', hwhole, hrange⟩
    · exact exists_total_loss hsupply hinSupply hk0
    rcases hle.eq_or_lt with rfl | hlt
    · exact exists_total_loss hsupply hinSupply hk0
    obtain rfl := Except.ok.inj (hk.symm.trans hk')
    obtain ⟨rest, hrest, hisrest⟩ := exists_rest hsold hlt hinSupply
    rcases hrange with ⟨n, hn⟩ | hge
    · have hn32 : (n : ℚ) ≤ 2 ^ 32 := by exact_mod_cast (hwhole n hn).le
      obtain ⟨shrunk, loss, hshrunk⟩ := hisrest.exists_loss hk0 (by rw [hn]; linarith) hwhole
        (.inl ⟨n, hn⟩)
      exact ⟨rest, shrunk, loss, hrest, hshrunk⟩
    · obtain ⟨hk24, hpower⟩ := hisrest.power_ge h0 hreciprocal hge
      obtain ⟨shrunk, loss, hshrunk⟩ := hisrest.exists_loss hk0 hk24 hwhole (.inr hpower)
      exact ⟨rest, shrunk, loss, hrest, hshrunk⟩
  obtain ⟨d, c, hd, hc⟩ := exists_result_of_neg_one_le .market hbalance.le hinBalance hlow (.inl hhigh)
  refine ⟨c, ?_⟩
  simp only [sell, returns_bind, returns_lift, returns_ite, not_returns_throw, false_and,
    exists_false, and_false, false_or]
  exact ⟨(), returns_checkState.2 ⟨hbalance, hsupply, hsold⟩, not_lt.2 hle, rest, hrest, k, hk,
    shrunk, hshrunk, loss, hloss, d, hd, hc⟩

theorem exists_sellExact (h0 : 0 < w.toRat) (h1 : w.toRat ≤ 1) (hsupply : 0 < supply)
    (hinBalance : Amount.InRange balance) (hinSupply : Amount.InRange supply) (hwanted : 0 < wanted)
    (hlt : wanted < balance) : ∃ c, (sellExact balance supply w wanted).Returns c := by
  have hbalance : 0 < balance := hwanted.trans hlt
  obtain ⟨rest, hrest, hisrest⟩ := exists_rest hwanted hlt hinBalance
  have hlow : (1 : ℝ) / 10 ^ 28 ≤ (rest.toRat : ℝ) ^ (w.toRat : ℝ) := by
    have hrest20 : ((1 / 10 ^ 20 : ℚ) : ℝ) ≤ rest.toRat := by exact_mod_cast hisrest.low
    push_cast at hrest20
    have hself := Real.rpow_le_rpow_of_exponent_ge (by exact_mod_cast hisrest.pos : (0 : ℝ) < rest.toRat)
      (by exact_mod_cast hisrest.le_one) (by exact_mod_cast h1 : (w.toRat : ℝ) ≤ 1)
    rw [Real.rpow_one] at hself
    linarith
  obtain ⟨shrunk, loss, hshrunk, hloss, hlow', hhigh⟩ := hisrest.exists_loss h0
    (h1.trans (by norm_num)) (fun n hn => by
      have hn1 : (n : ℚ) ≤ 1 := hn ▸ h1
      have hn1' : n ≤ 1 := by exact_mod_cast hn1
      omega) (.inr hlow)
  obtain ⟨d, c, hd, hc⟩ := exists_result_of_neg_one_le .exact hsupply.le hinSupply hlow' (.inl hhigh)
  refine ⟨c, ?_⟩
  simp only [sellExact, returns_bind, returns_lift, returns_ite, not_returns_throw, false_and,
    exists_false, and_false, false_or]
  exact ⟨(), returns_checkState.2 ⟨hbalance, hsupply, hwanted⟩, not_le.2 hlt, rest, hrest, shrunk,
    hshrunk, loss, hloss, d, hd, hc⟩

/-! ## Sales without a price -/

/-- The power behind a partial sale is out of reach: the reciprocal of the weight is a whole number
of more than 32 bits, or it is not whole and the sale leaves no more than a part in `10 ^ 30` of the
balance. -/
def IsOutOfReach (supply sold : Amount) (w : Decimal) : Prop :=
  sold < supply ∧ ∃ k, Decimal.one.divOrAbort w = .ok k ∧
    ((∃ n : ℕ, k.toRat = n ∧ 2 ^ 32 ≤ n) ∨
      (¬∃ n : ℕ, k.toRat = n) ∧ (1 - sold / supply : ℝ) ^ (w.toRat : ℝ)⁻¹ ≤ 1 / 10 ^ 30)

theorem IsRest.lt_one (h : IsRest part whole rest) : rest.toRat < 1 := by
  have hlt : (rest.toRat : ℝ) < 1 := by linarith [(abs_le.1 h.close).2, h.share_ge]
  exact_mod_cast hlt

/-- A logarithm times an exponent that would leave a part in `10 ^ 30` stays out of the range of the
exponential, for all its rounding. -/
theorem IsRest.exponent_le {l m : Decimal} (h : IsRest part whole rest) (h0 : 0 < w.toRat)
    (hk : IsReciprocal w k) (hl : |(l.toRat : ℝ) - Real.log rest.toRat| ≤ 1 / 10 ^ 25)
    (hm : l.mul k.normalize = .ok m)
    (hle : (1 - part / whole : ℝ) ^ (w.toRat : ℝ)⁻¹ ≤ 1 / 10 ^ 30) : (m.toRat : ℝ) ≤ -68 := by
  have hk1 := hk.one_le_real
  have hkclose := (abs_le.1 hk.close_real).1
  have hlogs := (abs_le.1 h.log_close).2
  have hx := h.share_ge
  have hy := h.left_ge
  have hw0 : (0 : ℝ) < w.toRat := by exact_mod_cast h0
  have hinv : 0 < (w.toRat : ℝ)⁻¹ := inv_pos.2 hw0
  obtain ⟨hten, -⟩ := Decimal.log_ten_mem
  generalize (part : ℝ) / whole = x at hle hlogs hx hy
  have hpos : 0 < 1 - x := by linarith
  have hpower : 69 ≤ (w.toRat : ℝ)⁻¹ * -Real.log (1 - x) := by
    have hlog := Real.log_le_log (Real.rpow_pos_of_pos hpos _) hle
    rw [Real.log_rpow hpos, one_div, Real.log_inv, Real.log_pow] at hlog
    push_cast at hlog
    linarith
  have hshare : x ≤ -Real.log (1 - x) := by
    linarith [Real.log_le_sub_one_of_pos hpos]
  -- the errors of the rest and of its logarithm are small against the logarithm
  have hround : 2 * (1 / 10 ^ 28 / (1 - x)) ≤ 1 / 10 ^ 8 * x := by
    rw [← mul_div_assoc, div_le_iff₀ hpos]
    nlinarith
  have hlle : (l.toRat : ℝ) ≤ -0.999 * -Real.log (1 - x) := by
    linarith [(abs_le.1 hl).2]
  have hkge : 0.9999 * (w.toRat : ℝ)⁻¹ ≤ k.toRat := by linarith
  have hproduct : (l.toRat : ℝ) * k.toRat ≤ -68.5 := by
    have hlk := mul_le_mul_of_nonneg_right hlle (by linarith : (0 : ℝ) ≤ k.toRat)
    have hkL := mul_le_mul_of_nonneg_right hkge (by linarith : 0 ≤ -Real.log (1 - x))
    linarith
  have hclose := (Decimal.mul_close hm).real
  rw [Decimal.toRat_normalize, Rat.cast_mul, abs_of_neg (by linarith : (l.toRat : ℝ) * k.toRat < 0),
    max_eq_right (by linarith)] at hclose
  linarith [(abs_le.1 hclose).2]

/-- No power is found for an exponent out of reach. -/
theorem IsRest.pow_ne_ok {r : Decimal} (h : IsRest part whole rest) (h0 : 0 < w.toRat)
    (hk : IsReciprocal w k) (hreach : (∃ n : ℕ, k.toRat = n ∧ 2 ^ 32 ≤ n) ∨
      (¬∃ n : ℕ, k.toRat = n) ∧ (1 - part / whole : ℝ) ^ (w.toRat : ℝ)⁻¹ ≤ 1 / 10 ^ 30) :
    rest.pow k ≠ .ok r := by
  intro hpow
  have hk0 : 0 < k.toRat := zero_lt_one.trans_le hk.one_le
  have hk1 : k.toRat ≠ 1 := by
    intro hone
    rcases hreach with ⟨n, hn, hbig⟩ | ⟨hnot, -⟩
    · have hn1 : n = 1 := by exact_mod_cast hn.symm.trans hone
      omega
    · exact hnot ⟨1, by rw [hone, Nat.cast_one]⟩
  rw [Decimal.pow_eq h.pos.ne' h.lt_one.ne hk0 hk1] at hpow
  split at hpow
  · next hscale =>
    have hvalue := Decimal.toRat_eq_magnitude hk0.le hscale
    rcases hreach with ⟨n, hn, hbig⟩ | ⟨hnot, -⟩
    · have hsame : n = k.normalize.magnitude := by exact_mod_cast hn.symm.trans hvalue
      rw [if_pos (show k.normalize.magnitude ≥ Decimal.powTwo 32 from hsame ▸ hbig)] at hpow
      cases hpow
    · exact hnot ⟨_, hvalue⟩
  · next hscale =>
    rcases hreach with ⟨n, hn, -⟩ | ⟨-, hle⟩
    · exact hscale (Decimal.normalize_scale_eq_zero_iff.2 ⟨n, by rw [hn, Int.cast_natCast]⟩)
    obtain ⟨l, hl, hpow⟩ := Decimal.Fault.bind_eq_ok.1 hpow
    obtain ⟨m, hm, hpow⟩ := Decimal.Fault.bind_eq_ok.1 hpow
    obtain ⟨l', hl', -, hlclose⟩ := Decimal.exists_ln h.valid h.pos
    obtain rfl := Except.ok.inj (hl.symm.trans hl')
    have hm68 := h.exponent_le h0 hk hlclose hm hle
    have hlog := Real.log_le_log (Real.exp_pos _)
      (Decimal.exp_neg_le_of_exp_eq_ok (Decimal.mul_valid hm) hpow)
    rw [Real.log_exp, Real.log_pow] at hlog
    push_cast at hlog
    linarith [Decimal.log_ten_mem.2]

theorem fails_sell (hw : w.Valid) (h0 : 0 < w.toRat) (h1 : w.toRat ≤ 1) (hbalance : 0 < balance)
    (hinSupply : Amount.InRange supply) (hsold : 0 < sold) (hreach : IsOutOfReach supply sold w) :
    (sell balance supply w sold).Fails .overflow := by
  obtain ⟨hlt, k, hk, hreach⟩ := hreach
  obtain ⟨rest, hrest, hisrest⟩ := exists_rest hsold hlt hinSupply
  have hreciprocal := isReciprocal hw h0 h1 hk
  have hpower : (power rest k).Fails .overflow := by
    have hzero : rest.isZero ≠ true := by
      intro hzero
      have hcoefficient : rest.coefficient = 0 := by simpa [Decimal.isZero] using hzero
      exact hisrest.pos.ne' (Decimal.toRat_of_coefficient_eq_zero hcoefficient)
    unfold power
    rw [if_neg hzero]
    cases hpow : rest.pow k with
    | error e => rfl
    | ok r => exact absurd hpow (hisrest.pow_ne_ok h0 hreciprocal hreach)
  have hcheck : (checkState balance supply sold).Returns () :=
    returns_checkState.2 ⟨hbalance, hsold.trans hlt, hsold⟩
  unfold sell
  rw [hcheck.bind_eq, if_neg (not_lt.2 hlt.le)]
  simp only [fails_bind, not_fails_lift, returns_lift, false_or]
  exact ⟨rest, hrest, k, hk, .inl hpower⟩

end Curve

namespace Connector

open Curve Outcome

variable {c : Connector} {supply amount : Amount}

/-- A sale within the pool has a price if its output is given, or if the power behind it can be
computed. If that power is out of reach, the sale is refused as an overflow. -/
theorem convert_sell_ends (mode : Mode) (hvalid : c.weight.value.Valid)
    (hweight : Weight.IsValid c.weight.value)
    (hbalance : 0 < c.balance.amount) (hsupply : 0 < supply) (hamount : 0 < amount)
    (hinBalance : Amount.InRange c.balance.amount) (hinSupply : Amount.InRange supply)
    (hwithin : mode.Within (counted .sell mode c.balance.amount supply) amount) :
    (mode = .exact ∨ IsPriced supply amount c.weight.value →
      ∃ r, (c.convert .sell mode supply amount).Returns r) ∧
    (mode = .market → IsOutOfReach supply amount c.weight.value →
      (c.convert .sell mode supply amount).Fails .overflow) := by
  cases mode with
  | market =>
    refine ⟨fun hpriced => ?_, fun _ hreach => ?_⟩
    · exact exists_sell hvalid hweight.pos hweight.le_one hbalance hinBalance hinSupply hamount
        hwithin (hpriced.resolve_left (by decide))
    · exact fails_sell hvalid hweight.pos hweight.le_one hbalance hinSupply hamount hreach
  | exact =>
    refine ⟨fun _ => ?_, fun hmode => by cases hmode⟩
    exact exists_sellExact hweight.pos hweight.le_one hsupply hinBalance hinSupply hamount hwithin

/-- At three tenths, whose reciprocal is not whole, 400 of 1000 have a price. -/
theorem partial_sale_is_priced :
    ∃ r, ((Sample.connector 2000 ⟨3, 1, false⟩).convert .sell .market 1000 400).Returns r := by
  refine (@convert_sell_ends (Sample.connector 2000 ⟨3, 1, false⟩) 1000 400 .market
    ⟨by decide, by decide, by decide⟩ (by decide) (by decide) (by decide) (by decide) (by decide)
    (by decide) (by show (400 : ℤ) ≤ 1000; decide)).1 (.inr (.inr ?_))
  have hw : (Sample.connector 2000 ⟨3, 1, false⟩).weight.value.toRat = 3 / 10 := by
    norm_num [Sample.connector, Decimal.toRat, Decimal.powTen]
  refine ⟨⟨33333333333333333333333333333, 28, false⟩, by decide +kernel, fun n hn => ?_, .inr ?_⟩
  · have hn4 : (n : ℚ) < 4 := by
      rw [← hn]
      norm_num [Decimal.toRat, Decimal.powTen]
    have hn4' : n < 4 := by exact_mod_cast hn4
    omega
  · rw [hw]
    have hpower := Real.rpow_le_rpow_of_exponent_ge (by norm_num : (0 : ℝ) < 3 / 5) (by norm_num)
      (by norm_num : ((10 / 3 : ℝ)) ≤ (4 : ℕ))
    rw [Real.rpow_natCast] at hpower
    norm_num at hpower ⊢
    linarith

/-- Of twenty units, nineteen have no price: the power has no digit among 28 decimals, and a power
through the logarithm does not end in nothing. -/
theorem near_total_sale_overflows :
    ((Sample.connector 1000000 ⟨3, 2, false⟩).convert .sell .market 20 19).Fails .overflow := by
  have hrun : ((Sample.connector 1000000 ⟨3, 2, false⟩).convert .sell .market 20 19).run =
      .ok (.error .overflow) := by
    decide +kernel
  exact hrun

end Connector
end BondingCurve
