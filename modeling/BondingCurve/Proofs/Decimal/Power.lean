import BondingCurve.Decimal.Power
import BondingCurve.Proofs.Decimal.Rounding

/-!
# Powers are not negative

A base that is not negative has no negative power, whatever the exponent and however the digits
are rounded: each step of repeated squaring and of the exponential series adds or multiplies
numbers that are not negative, and rounding keeps a sign. The logarithm may have any sign.
-/

namespace BondingCurve

/-! ## Wide decimals -/

namespace Wide

/-- Not negative. -/
def IsNonneg (w : Wide) : Prop := 0 ≤ w.coefficient

instance (w : Wide) : Decidable w.IsNonneg := Int.decLe _ _

/-- One is where every product of powers begins. -/
theorem isNonneg_one : one.IsNonneg := Int.one_nonneg

/-- A sign in front of a natural number. -/
theorem sign_mul_natCast_nonneg {c : ℤ} (n : ℕ) (hc : 0 ≤ c) : 0 ≤ c.sign * (n : ℤ) :=
  Int.mul_nonneg (Int.sign_nonneg_iff.2 hc) (Int.natCast_nonneg n)

/-- Products of numbers that are not negative are not negative, rounded as they are. -/
theorem mul_isNonneg {a b r : Wide} (ha : a.IsNonneg) (hb : b.IsNonneg)
    (h : a.mul b = .ok r) : r.IsNonneg := by
  have hc : 0 ≤ a.coefficient * b.coefficient := Int.mul_nonneg ha hb
  unfold mul at h
  dsimp only at h
  split at h
  · cases h
    exact Int.le_refl 0
  · split at h
    · cases h
      exact sign_mul_natCast_nonneg _ hc
    · rcases hs : shrink (a.coefficient * b.coefficient).natAbs (a.scale + b.scale) 192 maxScale
        with e | ⟨v, s⟩
      · rw [hs] at h
        cases h
      · rw [hs] at h
        cases h
        exact sign_mul_natCast_nonneg v hc

/-- Sums of numbers that are not negative are not negative. -/
theorem add_isNonneg {a b r : Wide} (ha : a.IsNonneg) (hb : b.IsNonneg)
    (h : a.add b = .ok r) : r.IsNonneg := by
  have hx : 0 ≤ a.coefficient * Decimal.powTen (Nat.max a.scale b.scale - a.scale) :=
    Int.mul_nonneg ha (Int.natCast_nonneg _)
  have hy : 0 ≤ b.coefficient * Decimal.powTen (Nat.max a.scale b.scale - b.scale) :=
    Int.mul_nonneg hb (Int.natCast_nonneg _)
  unfold add at h
  dsimp only at h
  split at h
  · cases h
    exact hb
  · split at h
    · cases h
      exact ha
    · split at h
      · cases h
      · split at h
        · cases h
          exact Int.add_nonneg hx hy
        · split at h
          · cases h
          · cases h
            exact sign_mul_natCast_nonneg _ (Int.add_nonneg hx hy)

/-- A share has the sign of the whole. -/
theorem divSmall_isNonneg {a : Wide} (d : ℕ) (ha : a.IsNonneg) : (a.divSmall d).IsNonneg := by
  unfold divSmall
  split
  · exact ha
  · exact sign_mul_natCast_nonneg _ ha

/-- Cutting a wide number down to a decimal keeps its sign. -/
theorem narrow_nonneg {w : Wide} {r : Decimal} (hw : w.IsNonneg) (h : w.narrow = .ok r) :
    0 ≤ r.coefficient := by
  unfold narrow at h
  rcases hs : shrink w.magnitude w.scale 96 Decimal.maxScale with e | ⟨v, s⟩
  · rw [hs] at h
    cases h
  · rw [hs] at h
    cases h
    exact sign_mul_natCast_nonneg v hw

end Wide

namespace Decimal

/-! ## Repeated squaring -/

section Squaring

variable {α : Type} {mul : α → α → Except Fault α} {P : α → Prop}
  (hmul : ∀ a b c, P a → P b → mul a b = .ok c → P c)
include hmul

/-- What multiplication keeps, repeated squaring keeps. -/
theorem squareUp_keeps (bs : List Bool) {product power r : α} (hproduct : P product)
    (hpower : P power) (h : squareUp mul bs product power = .ok r) : P r := by
  induction bs generalizing product power with
  | nil =>
    cases h
    exact hproduct
  | cons b bs ih =>
    rw [squareUp, Fault.bind_eq_ok] at h
    obtain ⟨square, hsquare, h⟩ := h
    have hP : P square := hmul _ _ _ hpower hpower hsquare
    cases b with
    | false => exact ih hproduct hP h
    | true =>
      obtain ⟨next, hnext, h⟩ := Fault.bind_eq_ok.1 h
      exact ih (hmul _ _ _ hproduct hP hnext) hP h

/-- What one and the base have, and products keep, a power by squaring has. -/
theorem powBits_keeps {one base r : α} {n : ℕ} (hone : P one) (hbase : P base)
    (h : powBits mul one base n = .ok r) : P r := by
  unfold powBits at h
  split at h
  · cases h
    exact hone
  · next b bs _ =>
    cases b with
    | false => exact squareUp_keeps hmul bs hone hbase h
    | true =>
      obtain ⟨product, hproduct, h⟩ := Fault.bind_eq_ok.1 h
      exact squareUp_keeps hmul bs (hmul _ _ _ hone hbase hproduct) hbase h

end Squaring

/-- Stripping zeros keeps the sign. -/
theorem normalize_nonneg {d : Decimal} (hd : 0 ≤ d.coefficient) :
    0 ≤ d.normalize.coefficient := by
  have hstrip : ∀ (s : ℕ) (c : ℤ), 0 ≤ c → 0 ≤ (normalize.strip c s).coefficient := by
    intro s
    induction s with
    | zero => exact fun c hc => hc
    | succ s ih =>
      intro c hc
      rw [normalize.strip]
      split
      · exact ih _ (Int.ediv_nonneg hc (by decide))
      · exact hc
  exact hstrip d.scale d.coefficient hd

/-- Two coefficients that are not negative have a product that is not. -/
theorem mul_coefficient_nonneg (a b r : Decimal) (ha : 0 ≤ a.coefficient)
    (hb : 0 ≤ b.coefficient) (h : a.mul b = .ok r) : 0 ≤ r.coefficient := by
  rw [← toRat_nonneg_iff] at *
  exact mul_nonneg_of_nonneg h ha hb

/-- A whole power of a base that is not negative is not negative. -/
theorem powNat_nonneg {base r : Decimal} {n : ℕ} (hbase : 0 ≤ base.coefficient)
    (h : base.powNat n = .ok r) : 0 ≤ r.coefficient := by
  unfold powNat at h
  split at h
  · cases h
    decide
  split at h
  · cases h
    decide
  split at h
  · cases h
    decide
  split at h
  · cases h
    exact hbase
  split at h
  · exact mul_coefficient_nonneg _ _ _ hbase hbase h
  split at h
  · obtain ⟨w, hw, h⟩ := Fault.bind_eq_ok.1 h
    obtain ⟨d, hd, h⟩ := Fault.bind_eq_ok.1 h
    cases h
    have hwide : w.IsNonneg :=
      powBits_keeps (fun _ _ _ => Wide.mul_isNonneg) Wide.isNonneg_one
        (show (Wide.ofDecimal base).IsNonneg from hbase) hw
    exact normalize_nonneg (Wide.narrow_nonneg hwide hd)
  · obtain ⟨d, hd, h⟩ := Fault.bind_eq_ok.1 h
    cases h
    exact normalize_nonneg (powBits_keeps (P := fun d => 0 ≤ d.coefficient)
      mul_coefficient_nonneg (by decide) hbase hd)

/-! ## The exponential -/

/-- With a positive argument the series adds up terms that are not negative. -/
theorem expSeries_isNonneg {x : Wide} (hx : x.IsNonneg) (terms i : ℕ) {term sum r : Wide}
    (hterm : term.IsNonneg) (hsum : sum.IsNonneg) (h : expSeries x terms i term sum = .ok r) :
    r.IsNonneg := by
  induction terms generalizing i term sum with
  | zero =>
    cases h
    exact hsum
  | succ terms ih =>
    rw [expSeries] at h
    obtain ⟨next, hnext, h⟩ := Fault.bind_eq_ok.1 h
    obtain ⟨total, htotal, h⟩ := Fault.bind_eq_ok.1 h
    have hnext' : next.IsNonneg :=
      Wide.mul_isNonneg hx (Wide.divSmall_isNonneg i hterm) hnext
    have htotal' : total.IsNonneg := Wide.add_isNonneg hsum hnext' htotal
    split at h
    · cases h
      exact htotal'
    · exact ih (i + 1) hnext' htotal' h

/-- The last step of the exponential: the series times a power of `e`. -/
theorem scaleSeries_nonneg {whole r : Decimal} {series : Wide} (hseries : series.IsNonneg)
    (h : (if whole.coefficient = 0 then series.narrow
      else if whole.magnitude ≥ powTwo 64 then throw .overflow
      else do
        let w ← powBits Wide.mul Wide.one (Wide.ofDecimal e) whole.magnitude
        return (← (← w.mul series).narrow).normalize) = .ok r) : 0 ≤ r.coefficient := by
  split at h
  · exact Wide.narrow_nonneg hseries h
  split at h
  · cases h
  · obtain ⟨w, hw, h⟩ := Fault.bind_eq_ok.1 h
    obtain ⟨product, hproduct, h⟩ := Fault.bind_eq_ok.1 h
    obtain ⟨d, hd, h⟩ := Fault.bind_eq_ok.1 h
    cases h
    have hpower : w.IsNonneg :=
      powBits_keeps (fun _ _ _ => Wide.mul_isNonneg) Wide.isNonneg_one
        (show (Wide.ofDecimal e).IsNonneg by decide) hw
    exact normalize_nonneg (Wide.narrow_nonneg (Wide.mul_isNonneg hpower hseries hproduct) hd)

/-- The exponential of an argument that is not negative is not negative. -/
theorem expNonneg_nonneg {x r : Decimal} (h : x.expNonneg = .ok r) : 0 ≤ r.coefficient := by
  unfold expNonneg at h
  split at h
  · cases h
    decide
  · obtain ⟨rest, hrest, h⟩ := Fault.bind_eq_ok.1 h
    have hfraction : (Wide.ofDecimal rest).IsNonneg := by
      have hfloor : x.floor.toRat ≤ x.toRat := by
        rw [floor_eq, toRat_ofInt]
        exact Int.floor_le _
      exact toRat_nonneg_iff.1 (sub_nonneg_of_le hrest hfloor)
    dsimp only at h
    split at h
    · obtain ⟨series, hseries, h⟩ := Fault.bind_eq_ok.1 h
      cases hseries
      exact scaleSeries_nonneg Wide.isNonneg_one h
    · obtain ⟨sum, hsum, h⟩ := Fault.bind_eq_ok.1 h
      obtain ⟨series, hseries, h⟩ := Fault.bind_eq_ok.1 h
      have hsum' : sum.IsNonneg := Wide.add_isNonneg Wide.isNonneg_one hfraction hsum
      exact scaleSeries_nonneg (expSeries_isNonneg hfraction 98 2 hfraction hsum' hseries) h

/-- No exponential is negative: that of a negative argument is a reciprocal. -/
theorem exp_nonneg {x r : Decimal} (h : x.exp = .ok r) : 0 ≤ r.coefficient := by
  unfold exp at h
  split at h
  · obtain ⟨d, hd, h⟩ := Fault.bind_eq_ok.1 h
    rw [← toRat_nonneg_iff]
    exact div_nonneg_of_nonneg h (by simp) (toRat_nonneg_iff.2 (expNonneg_nonneg hd))
  · exact expNonneg_nonneg h

/-- A power of a number that is not negative is not negative. -/
theorem pow_nonneg {base exponent r : Decimal} (hbase : 0 ≤ base.coefficient)
    (h : base.pow exponent = .ok r) : 0 ≤ r.coefficient := by
  unfold pow at h
  split at h
  · cases h
    decide
  split at h
  · cases h
    decide
  split at h
  · cases h
    decide
  split at h
  · cases h
    exact hbase
  dsimp only at h
  split at h
  · split at h
    · cases h
    · split at h
      · obtain ⟨d, hd, h⟩ := Fault.bind_eq_ok.1 h
        rw [← toRat_nonneg_iff]
        exact div_nonneg_of_nonneg h (by simp) (toRat_nonneg_iff.2 (powNat_nonneg hbase hd))
      · exact powNat_nonneg hbase h
  · obtain ⟨l, -, h⟩ := Fault.bind_eq_ok.1 h
    obtain ⟨e, -, h⟩ := Fault.bind_eq_ok.1 h
    exact exp_nonneg h

end Decimal
end BondingCurve
