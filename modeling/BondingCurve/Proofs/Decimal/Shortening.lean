import BondingCurve.Proofs.Decimal.Wide

/-!
# How a small number is shortened

For a number under two the estimate of the bit length never asks for more than the decimals that
are too many (`excess_eq`), so what shortening gives is known to the last digit (`shrink_eq`). It is
the whole part or one more, and only the last chunk that was cut off decides which (`chopped`). At one
scale that keeps order, at different scales it does not.
-/

namespace BondingCurve
namespace Wide

open Decimal (powTen powTwo powTen_cast powTen_pos powTen_add)

variable {v v' t scale bits top : ℕ}

/-- How many of `t` digits are left for the last chunk when they are cut off nine at a time. -/
def lastChunk (t : ℕ) : ℕ := (t - 1) % 9 + 1

theorem lastChunk_le (h : 0 < t) : lastChunk t ≤ t := by
  unfold lastChunk
  omega

/-- What the last chunk of the last `t` digits of `v` holds. -/
def lastDigits (v t : ℕ) : ℕ := v / powTen (t - lastChunk t) % powTen (lastChunk t)

/-- `v` without its last `t` digits, one more when the last chunk of them is not near zero. -/
def chopped (v t : ℕ) : ℕ :=
  if t = 0 then v
  else if lastDigits v t > 1 ∨ (lastDigits v t = 1 ∧ v / powTen t % 2 = 1) then v / powTen t + 1
  else v / powTen t

theorem chopped_eq_or (ht : 0 < t) :
    chopped v t = v / powTen t ∨ chopped v t = v / powTen t + 1 ∧ 0 < lastDigits v t := by
  unfold chopped
  rw [if_neg ht.ne']
  split
  · next hup => exact .inr ⟨rfl, by omega⟩
  · exact .inl rfl

/-- The digits above the last chunk. -/
theorem div_powTen_eq (ht : 0 < t) :
    v / powTen (t - lastChunk t) = v / powTen t * powTen (lastChunk t) + lastDigits v t := by
  have hdiv := Nat.div_add_mod' (v / powTen (t - lastChunk t)) (powTen (lastChunk t))
  rw [div_powTen_div_powTen, Nat.sub_add_cancel (lastChunk_le ht)] at hdiv
  exact hdiv.symm

theorem chopped_mono (h : v ≤ v') (t : ℕ) : chopped v t ≤ chopped v' t := by
  rcases Nat.eq_zero_or_pos t with rfl | ht
  · exact h
  have hdiv : v / powTen t ≤ v' / powTen t := Nat.div_le_div_right h
  rcases hdiv.eq_or_lt with heq | hlt
  · -- the last chunk decides
    have hrest : v / powTen (t - lastChunk t) ≤ v' / powTen (t - lastChunk t) :=
      Nat.div_le_div_right h
    rw [div_powTen_eq ht, div_powTen_eq ht, heq, Nat.add_le_add_iff_left] at hrest
    unfold chopped
    rw [if_neg ht.ne', if_neg ht.ne', heq]
    split
    · next hup => rw [if_pos (by omega)]
    · split
      · exact Nat.le_succ _
      · exact le_rfl
  · rcases chopped_eq_or (v := v) ht with hv | ⟨hv, -⟩ <;>
      rcases chopped_eq_or (v := v') ht with hv' | ⟨hv', -⟩ <;> omega

theorem chopped_of_lt (ht : 0 < t) (h : v < powTen (t - lastChunk t)) : chopped v t = 0 := by
  have hnone : v / powTen (t - lastChunk t) = 0 := Nat.div_eq_of_lt h
  have hparts := div_powTen_eq (v := v) ht
  have hwhole : v / powTen t = 0 := by
    have hpos := powTen_pos (lastChunk t)
    by_contra hne
    have hle := Nat.mul_le_mul (Nat.pos_of_ne_zero hne) hpos
    omega
  rcases chopped_eq_or (v := v) ht with hv | ⟨-, hlast⟩
  · rw [hv, hwhole]
  · omega

/-- The digits that are cut off count for less than one. -/
theorem abs_chopped_sub_lt (v t : ℕ) : |(chopped v t : ℚ) - v / 10 ^ t| < 1 := by
  rcases Nat.eq_zero_or_pos t with rfl | ht
  · simp [chopped]
  obtain ⟨hlow, hhigh⟩ := div_powTen_mem v t
  rw [abs_lt]
  rcases chopped_eq_or (v := v) ht with hv | ⟨hv, hlast⟩
  · rw [hv]
    constructor <;> linarith
  · have hmore : (v / powTen t : ℕ) < (v : ℚ) / 10 ^ t := by
      have hparts := div_powTen_eq (v := v) ht
      have hlt : v / powTen t * powTen (lastChunk t) < v / powTen (t - lastChunk t) := by omega
      rw [Nat.lt_iff_add_one_le, Nat.le_div_iff_mul_le (powTen_pos _)] at hlt
      have hsplit : powTen t = powTen (lastChunk t) * powTen (t - lastChunk t) := by
        rw [← powTen_add, Nat.add_sub_cancel' (lastChunk_le ht)]
      have hlt' : v / powTen t * powTen t < v := by
        calc v / powTen t * powTen t
            = v / powTen t * powTen (lastChunk t) * powTen (t - lastChunk t) := by
              rw [Nat.mul_assoc, ← hsplit]
          _ < (v / powTen t * powTen (lastChunk t) + 1) * powTen (t - lastChunk t) :=
              Nat.mul_lt_mul_of_pos_right (Nat.lt_succ_self _) (powTen_pos _)
          _ ≤ v := hlt
      rw [lt_div_iff₀ (by positivity), ← powTen_cast]
      exact_mod_cast hlt'
    rw [hv]
    push_cast
    constructor <;> linarith

/-! ## Cutting -/

/-- When the rest is short enough, nothing is cut off but what was asked for. -/
theorem cut_eq {limit cuts : ℕ} {s : Shortened} (ht : 0 < t) (hcuts : t < cuts)
    (hlimit : s.digits / powTen t < limit) :
    cut limit cuts s t = .ok ⟨s.digits / powTen t, s.scale - t, lastDigits s.digits t⟩ := by
  induction cuts generalizing s t with
  | zero => exact absurd hcuts (Nat.not_lt_zero _)
  | succ cuts ih =>
    unfold cut
    rw [if_neg ht.ne']
    dsimp only
    rcases Nat.lt_or_ge 9 t with hlong | hshort
    · rw [show Nat.min t 9 = 9 from min_eq_right hlong.le, if_neg (by omega),
        ih (by omega) (by omega) (by rwa [div_powTen_div_powTen, Nat.add_sub_cancel' hlong.le])]
      have hlast : lastChunk (t - 9) = lastChunk t := by
        unfold lastChunk
        omega
      have hle := lastChunk_le (t := t - 9) (by omega)
      rw [lastDigits, lastDigits, hlast, div_powTen_div_powTen, div_powTen_div_powTen,
        Nat.add_sub_cancel' hlong.le, Nat.sub_sub, Nat.add_sub_cancel' hlong.le,
        show 9 + (t - 9 - lastChunk t) = t - lastChunk t by omega]
    · rw [show Nat.min t 9 = t from min_eq_left hshort, if_neg (fun h => absurd hlimit (by omega)),
        Nat.sub_self]
      have hlast : lastChunk t = t := by
        unfold lastChunk
        omega
      obtain ⟨cuts, rfl⟩ : ∃ n, cuts = n + 1 := ⟨cuts - 1, by omega⟩
      rw [cut, if_pos rfl, lastDigits, hlast, Nat.sub_self, Decimal.powTen_zero, Nat.div_one]

/-- The estimate of a number under two asks for the decimals that are too many and no more. -/
theorem excess_eq (hbits : 0 < bits) (hroom : 2 * powTen top ≤ 2 ^ (bits - 1))
    (hv : v < 2 * powTen scale) : excess v scale bits top = scale - top := by
  unfold excess
  dsimp only
  split
  · next hlong =>
    have hle := estimate_le hbits hlong
    have hlt : powTen ((bitLength v - bits) * 77 / 256 + top) < powTen scale := by
      have hmul := Nat.mul_le_mul_left (powTen ((bitLength v - bits) * 77 / 256)) hroom
      rw [powTen_add]
      rw [Nat.mul_left_comm] at hmul
      omega
    have hscale := (Nat.pow_lt_pow_iff_right (a := 10) (by decide)).1 hlt
    split <;> omega
  · split <;> omega

/-- A number under two with its decimals cut off down to `top`. -/
theorem shrink_eq (hbits : 0 < bits) (hroom : 2 * powTen top ≤ 2 ^ (bits - 1))
    (htop : Decimal.maxScale ≤ top) (hv : v < 2 * powTen scale) :
    shrink v scale bits top = .ok (chopped v (scale - top), scale - (scale - top)) := by
  have htwo : 2 ^ (bits - 1) < powTwo bits := Nat.pow_lt_pow_right (by decide) (by omega)
  unfold shrink
  split
  · next hfits => rw [show scale - top = 0 by omega, chopped, if_pos rfl, Nat.sub_zero]
  dsimp only
  rw [excess_eq hbits hroom hv]
  split
  · next hnone => rw [hnone, chopped, if_pos rfl, Nat.sub_zero]
  · next hsome =>
    have hdigits : v / powTen (scale - top) < 2 * powTen top := by
      rw [Nat.div_lt_iff_lt_mul (powTen_pos _), Nat.mul_assoc, ← powTen_add,
        show top + (scale - top) = scale by omega]
      exact hv
    rw [if_neg (by omega), cut_eq (Nat.pos_of_ne_zero hsome) (by omega)
      (show v / powTen (scale - top) < powTwo bits by omega)]
    dsimp only [bind, Except.bind]
    rw [chopped, if_neg hsome]
    split
    · rw [if_pos (by omega)]
      rfl
    · rfl

/-! ## Narrowing -/

theorem chopped_zero (t : ℕ) : chopped 0 t = 0 := by
  rcases Nat.eq_zero_or_pos t with rfl | ht
  · rfl
  · exact chopped_of_lt ht (powTen_pos _)

/-- A number that is not negative and under two keeps 28 decimals. -/
theorem narrow_eq {w : Wide} (h0 : w.IsNonneg) (h2 : w.magnitude < 2 * powTen w.scale) :
    w.narrow = .ok { coefficient := chopped w.magnitude (w.scale - Decimal.maxScale),
                     scale := w.scale - (w.scale - Decimal.maxScale) } := by
  have hsign : w.coefficient.sign * (chopped w.magnitude (w.scale - Decimal.maxScale) : ℤ) =
      chopped w.magnitude (w.scale - Decimal.maxScale) := by
    rcases h0.eq_or_lt with hzero | hpos
    · rw [magnitude, ← hzero, Int.natAbs_zero, chopped_zero, Int.sign_zero, Nat.cast_zero, zero_mul]
    · rw [Int.sign_eq_one_of_pos hpos, one_mul]
  rw [narrow, shrink_eq (by decide) (by norm_num [powTen, Decimal.maxScale]) le_rfl h2]
  dsimp only [bind, Except.bind]
  rw [hsign]
  rfl

end Wide
end BondingCurve
