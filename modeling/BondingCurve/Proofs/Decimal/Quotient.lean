import BondingCurve.Proofs.Decimal.Grid

/-!
# Long division rounds to a neighbouring decimal

While digits are appended, the quotient so far and the remainder make up the exact quotient
(`Quotient.Tracks`). A division ends when nothing is left, when it has all decimals, or when
another digit would be too many, and only then it rounds. So the result is the nearest decimal to
the exact quotient (`div_nearest`), has no decimal between itself and it (`div_rounds`), and is a
valid one (`div_valid`). A divisor with no more decimals than the dividend always has a result
(`exists_div_of_scale_le`).
-/

namespace BondingCurve
namespace Decimal
namespace Quotient

/-- The digits of `q` and the remainder `r` of a division by `d` make up the number `x`. -/
structure Tracks (x : ℚ) (d : ℕ) (q : Quotient) (r : ℕ) : Prop where
  remainder_lt : r < d
  exact : (q.digits : ℚ) + r / d = x * 10 ^ q.scale

/-- The quotient ends, and is what rounding makes of `x`. -/
structure Ends (x : ℚ) (q : Quotient) : Prop where
  scale_nonneg : 0 ≤ q.scale
  rounded : Rounded x q.digits q.scale.toNat

/-- The digits and decimals of `q` are those of a valid decimal. -/
structure Small (q : Quotient) : Prop where
  digits_lt : q.digits < bound
  scale_le : q.scale ≤ maxScale

/-! ## Rounds -/

/-- The room of a quotient is the most digits that its decimals and the bound leave. -/
theorem find?_reverse_range {P : ℕ → Bool} {m p : ℕ}
    (h : (List.range (m + 1)).reverse.find? P = some p) :
    p ≤ m ∧ P p = true ∧ ∀ k, p < k → k ≤ m → P k = false := by
  induction m with
  | zero =>
    have h0 : P 0 = true ∧ 0 = p := by simpa [List.find?_cons_eq_some] using h
    obtain ⟨hP, rfl⟩ := h0
    exact ⟨le_rfl, hP, fun k hpos hle => by omega⟩
  | succ m ih =>
    rw [List.range_succ, List.reverse_append, List.reverse_singleton, List.singleton_append,
      List.find?_cons] at h
    split at h
    · next hP =>
      cases h
      exact ⟨le_rfl, hP, fun k hlt hle => by omega⟩
    · next hP =>
      obtain ⟨hle, hp, hmost⟩ := ih h
      refine ⟨hle.trans (Nat.le_succ m), hp, fun k hlt hk => ?_⟩
      rcases Nat.le_succ_iff.1 hk with hk | rfl
      · exact hmost k hlt hk
      · exact hP

theorem room_le (q : Quotient) : q.room ≤ (maxScale - q.scale).toNat ∧ q.room ≤ 9 := by
  unfold room
  dsimp only
  rcases h : (List.range (Nat.min 9 (maxScale - q.scale).toNat + 1)).reverse.find?
    (fun p => decide (q.digits * powTen p < bound)) with _ | p
  · exact ⟨Nat.zero_le _, Nat.zero_le _⟩
  · have hle := (find?_reverse_range h).1
    exact ⟨hle.trans (Nat.min_le_right _ _), hle.trans (Nat.min_le_left _ _)⟩

/-- One digit more than there is room for reaches the bound. -/
theorem bound_le_of_room_lt {q : Quotient} (hroom : q.room < 9)
    (hscale : q.scale + q.room < maxScale) : bound ≤ q.digits * powTen (q.room + 1) := by
  have hmore : q.room + 1 ≤ Nat.min 9 (maxScale - q.scale).toNat := by
    apply Nat.le_min.2
    omega
  unfold room at hmore ⊢
  dsimp only at hmore ⊢
  rcases hfind : (List.range (Nat.min 9 (maxScale - q.scale).toNat + 1)).reverse.find?
    (fun p => decide (q.digits * powTen p < bound)) with _ | p
  · rw [hfind] at hmore
    have hnone := List.find?_eq_none.1 hfind 1 (by simpa using Nat.lt_succ_of_le hmore)
    exact Nat.le_of_not_lt fun hlt => hnone (decide_eq_true hlt)
  · rw [hfind] at hmore
    have hlarger := (find?_reverse_range hfind).2.2 (p + 1) (Nat.lt_succ_self p) hmore
    exact Nat.le_of_not_lt (of_decide_eq_false hlarger)

/-- A quotient without room has all decimals, or as many digits as it can. -/
theorem full_of_room_eq_zero {q : Quotient} (h : q.room = 0) :
    maxScale ≤ q.scale ∨ bound ≤ q.digits * 10 := by
  by_contra hneg
  obtain ⟨hscale, hdigits⟩ := not_or.1 hneg
  have hlarge := bound_le_of_room_lt (q := q) (by omega) (by omega)
  rw [h] at hlarge
  exact hdigits hlarge

theorem digits_mul_lt_of_room {q : Quotient} (h : q.room ≠ 0) :
    q.digits * powTen q.room < bound := by
  unfold room at h ⊢
  dsimp only at h ⊢
  rcases hfind : (List.range (Nat.min 9 (maxScale - q.scale).toNat + 1)).reverse.find?
    (fun p => decide (q.digits * powTen p < bound)) with _ | p
  · exact absurd (by rw [hfind]; rfl) h
  · exact of_decide_eq_true (find?_reverse_range hfind).2.1

/-- What a round does: it ends an exact division, appends digits for which there is room, or
rounds where there is none. -/
theorem advance_cases {q : Quotient} {r d : ℕ} {round : Round}
    (h : q.advance r d = .ok round) :
    (r = 0 ∧ 0 ≤ q.scale ∧ round = .done q) ∨
      (∃ (inexact : Bool) (p : ℕ), p ≤ 9 ∧ p ≤ (maxScale - q.scale).toNat ∧
        { q with inexact }.append r d p = .ok round) ∨
      (∃ q' : Quotient, 0 ≤ q.scale ∧ (maxScale ≤ q.scale ∨ bound ≤ q.digits * 10) ∧
        { q with inexact := true }.round r d = .ok q' ∧ round = .done q') := by
  have hmax : (maxScale : ℤ) = 28 := rfl
  unfold advance at h
  split at h
  · next hr =>
    split at h
    · next hscale =>
      cases h
      exact .inl ⟨hr, hscale, rfl⟩
    · next hscale =>
      refine .inr (.inl ⟨q.inexact, _, Nat.min_le_left _ _, ?_, h⟩)
      exact (Nat.min_le_right _ _).trans (by omega)
  · dsimp only at h
    split at h
    · cases h
    · next hroom =>
      split at h
      · next hzero =>
        obtain ⟨q', hq', h⟩ := Fault.bind_eq_ok.1 h
        cases h
        have hscale : 0 ≤ q.scale := by
          rw [hzero] at hroom
          by_contra hneg
          omega
        exact .inr (.inr ⟨q', hscale, full_of_room_eq_zero hzero, hq', rfl⟩)
      · have hle := room_le { q with inexact := true }
        exact .inr (.inl ⟨true, _, hle.2, hle.1, h⟩)

/-- What appending does: digits are added, and the result is squeezed if it reached the bound. -/
theorem append_cases {q : Quotient} {r d p : ℕ} {round : Round}
    (h : q.append r d p = .ok round) :
    ∃ q₁ : Quotient, q₁.digits = q.digits * powTen p + r * powTen p / d ∧
      q₁.scale = q.scale + p ∧ q.digits * powTen p < bound ∧
      ((q₁.digits < bound ∧ round = .next q₁ (r * powTen p % d)) ∨
        (bound ≤ q₁.digits ∧ ∃ q', q₁.squeeze (r * powTen p % d ≠ 0) = .ok q' ∧
          round = .done q')) := by
  unfold append at h
  dsimp only at h
  split at h
  · cases h
  · next hlt =>
    refine ⟨{ q with digits := q.digits * powTen p + r * powTen p / d, scale := q.scale + p },
      rfl, rfl, Nat.lt_of_not_le hlt, ?_⟩
    split at h
    · next hbound =>
      obtain ⟨q', hq', h⟩ := Fault.bind_eq_ok.1 h
      cases h
      exact .inr ⟨hbound, q', hq', rfl⟩
    · next hbound =>
      cases h
      exact .inl ⟨Nat.lt_of_not_le hbound, rfl⟩

/-- What squeezing does: the last digit goes, and what is left is rounded. -/
theorem squeeze_cases {q q' : Quotient} {sticky : Bool} (h : q.squeeze sticky = .ok q') :
    0 < q.scale ∧ q'.scale = q.scale - 1 ∧
      ((q'.digits = q.digits / 10 ∧
          (q.digits % 10 < 5 ∨ q.digits % 10 = 5 ∧ sticky = false ∧ q.digits / 10 % 2 = 0)) ∨
        (q'.digits = q.digits / 10 + 1 ∧
          (5 < q.digits % 10 ∨ q.digits % 10 = 5 ∧
            (sticky = true ∨ q.digits / 10 % 2 = 1)))) := by
  unfold squeeze at h
  split at h
  · cases h
  · next hpos =>
    cases h
    refine ⟨Int.not_le.1 hpos, rfl, ?_⟩
    dsimp only
    split
    · next hup => exact .inr ⟨rfl, hup⟩
    · next hdown =>
      refine .inl ⟨rfl, ?_⟩
      cases sticky <;> simp at hdown ⊢ <;> omega

/-- What rounding does: the next quotient where a remainder asks for it, squeezed if that is the
bound. -/
theorem round_cases {q q' : Quotient} {r d : ℕ} (h : q.round r d = .ok q') :
    (q' = q ∧ (2 * r < d ∨ 2 * r = d ∧ q.digits % 2 = 0)) ∨
      ((d < 2 * r ∨ 2 * r = d ∧ q.digits % 2 = 1) ∧
        ∃ q₁ : Quotient, q₁.digits = q.digits + 1 ∧ q₁.scale = q.scale ∧
          ((q₁.digits ≠ bound ∧ q' = q₁) ∨ (q₁.digits = bound ∧ q₁.squeeze true = .ok q'))) := by
  unfold round at h
  split at h
  · next hup =>
    refine .inr ⟨hup, { q with digits := q.digits + 1 }, rfl, rfl, ?_⟩
    dsimp only at h
    split at h
    · next hbound => exact .inr ⟨hbound, h⟩
    · next hbound =>
      cases h
      exact .inl ⟨hbound, rfl⟩
  · next hdown =>
    cases h
    exact .inl ⟨rfl, by omega⟩

/-! ## No digit is lost before the end -/

section Tracks

variable {x : ℚ} {d r : ℕ} {q q' : Quotient}

/-- The decimals of a quotient, as a power of whole numbers. -/
theorem zpow_scale (h : 0 ≤ q.scale) : (10 : ℚ) ^ q.scale = 10 ^ q.scale.toNat := by
  rw [← zpow_natCast, Int.toNat_of_nonneg h]

theorem Tracks.remainder_share (h : q.Tracks x d r) : (0 : ℚ) ≤ r / d ∧ (r : ℚ) / d < 1 := by
  have hd : (0 : ℚ) < d := by exact_mod_cast (Nat.zero_le r).trans_lt h.remainder_lt
  refine ⟨by positivity, ?_⟩
  rw [div_lt_one hd]
  exact_mod_cast h.remainder_lt

/-- The digits of the exact quotient, where no whole digits are missing. -/
theorem Tracks.units (h : q.Tracks x d r) (hscale : 0 ≤ q.scale) :
    x * 10 ^ q.scale.toNat = q.digits + r / d := by
  rw [← zpow_scale hscale, h.exact]

theorem Tracks.append {q₁ : Quotient} {p : ℕ} (h : q.Tracks x d r)
    (hdigits : q₁.digits = q.digits * powTen p + r * powTen p / d)
    (hscale : q₁.scale = q.scale + p) : q₁.Tracks x d (r * powTen p % d) := by
  have hd : 0 < d := (Nat.zero_le r).trans_lt h.remainder_lt
  have hd' : (d : ℚ) ≠ 0 := by exact_mod_cast hd.ne'
  refine ⟨Nat.mod_lt _ hd, ?_⟩
  have hdiv : (d : ℚ) * (r * powTen p / d : ℕ) + (r * powTen p % d : ℕ) = r * powTen p := by
    exact_mod_cast Nat.div_add_mod (r * powTen p) d
  calc (q₁.digits : ℚ) + (r * powTen p % d : ℕ) / d
      = (q.digits + r / d) * powTen p := by
        rw [hdigits]
        push_cast at hdiv ⊢
        field_simp
        linarith
    _ = x * 10 ^ q₁.scale := by
        rw [h.exact, hscale, zpow_add₀ (by norm_num), zpow_natCast, powTen_cast, mul_assoc]

/-! ## The end -/

theorem Tracks.ends_exact (h : q.Tracks x d 0) (hscale : 0 ≤ q.scale) : Ends x q := by
  refine ⟨hscale, .exact ?_⟩
  rw [h.units hscale, Nat.cast_zero, zero_div, add_zero]

/-- The last digit and the rest `f` behind it are rounded half to even. -/
theorem halfEven_squeeze {f : ℚ} {sticky : Bool} (hf : 0 ≤ f) (hlt : f < 1)
    (hsticky : sticky = true ↔ 0 < f) (hq' : q.squeeze sticky = .ok q') :
    HalfEven ((q.digits + f) / 10) q'.digits := by
  obtain ⟨-, -, hdigits⟩ := squeeze_cases hq'
  have hsplit : (q.digits : ℚ) = 10 * (q.digits / 10 : ℕ) + (q.digits % 10 : ℕ) := by
    exact_mod_cast (Nat.div_add_mod q.digits 10).symm
  have hlast : ((q.digits % 10 : ℕ) : ℚ) ≤ 9 := by
    exact_mod_cast Nat.le_of_lt_succ (Nat.mod_lt q.digits (by decide))
  have hfirst : (0 : ℚ) ≤ (q.digits % 10 : ℕ) := Nat.cast_nonneg _
  refine halfEven_of_rest (n := q.digits / 10) (f := ((q.digits % 10 : ℕ) + f) / 10)
    (by rw [hsplit]; ring) (by linarith) (by linarith) ?_
  rcases hdigits with ⟨hq, hless | ⟨hfive, hexact, heven⟩⟩ | ⟨hq, hmore | ⟨hfive, hup⟩⟩
  · have hless' : ((q.digits % 10 : ℕ) : ℚ) ≤ 4 := by exact_mod_cast Nat.le_of_lt_succ hless
    exact .inl ⟨hq, .inl (by linarith)⟩
  · have hzero : f = 0 := by
      rw [hexact] at hsticky
      exact le_antisymm (le_of_not_gt fun hpos => nomatch hsticky.2 hpos) hf
    refine .inl ⟨hq, .inr ⟨?_, heven⟩⟩
    rw [hfive, hzero]
    norm_num
  · have hmore' : (6 : ℚ) ≤ (q.digits % 10 : ℕ) := by exact_mod_cast hmore
    exact .inr ⟨hq, .inl (by linarith)⟩
  · have hfive' : ((q.digits % 10 : ℕ) : ℚ) = 5 := by exact_mod_cast hfive
    refine .inr ⟨hq, ?_⟩
    rcases hf.eq_or_lt with rfl | hpos
    · refine .inr ⟨by rw [hfive']; norm_num, hup.resolve_left fun hrest => ?_⟩
      exact lt_irrefl _ (hsticky.1 hrest)
    · exact .inl (by linarith)

/-- The last digit of a quotient that reached the bound is rounded. -/
theorem Tracks.ends_squeeze (h : q.Tracks x d r) (hbound : bound ≤ q.digits)
    (hq' : q.squeeze (r ≠ 0) = .ok q') : Ends x q' := by
  obtain ⟨hpos, hscale, -⟩ := squeeze_cases hq'
  obtain ⟨hshare, hlt⟩ := h.remainder_share
  have hunits := h.units hpos.le
  have hd : (0 : ℚ) < d := by exact_mod_cast (Nat.zero_le r).trans_lt h.remainder_lt
  have hsticky : decide (r ≠ 0) = true ↔ (0 : ℚ) < r / d := by
    rw [decide_eq_true_iff, div_pos_iff_of_pos_right hd, Nat.cast_pos, Nat.pos_iff_ne_zero]
  have heven := halfEven_squeeze hshare hlt hsticky hq'
  rw [show q.scale.toNat = q'.scale.toNat + 1 by omega] at hunits
  refine ⟨by omega, .full ?_ ?_⟩
  · rwa [← hunits, pow_succ, ← mul_assoc, mul_div_cancel_right₀ _ (by norm_num)] at heven
  · have hbound' : (bound : ℚ) ≤ q.digits := by exact_mod_cast hbound
    rw [hunits]
    linarith

theorem Tracks.ends_round (h : q.Tracks x d r) (hscale : 0 ≤ q.scale)
    (hfull : maxScale ≤ q.scale ∨ bound ≤ q.digits * 10) (hq' : q.round r d = .ok q') :
    Ends x q' := by
  have hb : bound = 79228162514264337593543950336 := by decide
  obtain ⟨hshare, hlt⟩ := h.remainder_share
  have hunits := h.units hscale
  have hrounded {q₁ : Quotient} (hq₁ : q₁.scale = q.scale)
      (heven : HalfEven (x * 10 ^ q.scale.toNat) q₁.digits) : Ends x q₁ := by
    refine ⟨hq₁ ▸ hscale, hq₁ ▸ ?_⟩
    rcases hfull with hfull | hfull
    · exact .finest (by omega) heven
    · refine .full heven ?_
      have hfull' : (bound : ℚ) ≤ q.digits * 10 := by exact_mod_cast hfull
      rw [pow_succ, ← mul_assoc, hunits]
      linarith
  rcases round_cases hq' with ⟨rfl, hdown⟩ | ⟨hup, q₁, hdigits, hq₁, ⟨-, rfl⟩ | ⟨hbound, hq'⟩⟩
  · exact hrounded rfl (halfEven_of_remainder h.remainder_lt hunits (.inl ⟨rfl, hdown⟩))
  · exact hrounded hq₁ (halfEven_of_remainder h.remainder_lt hunits (.inr ⟨hdigits, hup⟩))
  · -- the bound itself, which ends in a six
    obtain ⟨hpos, hscale', hdigits'⟩ := squeeze_cases hq'
    have hlast : q.digits = 79228162514264337593543950335 := by omega
    have hfirst : q'.digits = 7922816251426433759354395034 := by omega
    have hrest : 1 ≤ 2 * ((r : ℚ) / d) := by
      have hd : (0 : ℚ) < d := by exact_mod_cast (Nat.zero_le r).trans_lt h.remainder_lt
      rw [← mul_div_assoc, one_le_div hd]
      exact_mod_cast (by omega : d ≤ 2 * r)
    rw [hlast, show q.scale.toNat = q'.scale.toNat + 1 by omega, pow_succ, ← mul_assoc] at hunits
    push_cast at hunits
    refine ⟨by omega, .full ⟨?_, ?_, fun _ => by omega⟩ ?_⟩
    · rw [hfirst]
      push_cast
      linarith
    · rw [hfirst]
      push_cast
      linarith
    · rw [pow_succ, ← mul_assoc, hunits, hb]
      push_cast
      linarith

/-- A round goes on without loss, or ends. -/
def Round.Keeps (x : ℚ) (d : ℕ) : Round → Prop
  | .done q => q.Ends x
  | .next q r => q.Tracks x d r

theorem Tracks.advance {round : Round} (h : q.Tracks x d r) (hround : q.advance r d = .ok round) :
    round.Keeps x d := by
  rcases advance_cases hround with ⟨rfl, hscale, rfl⟩ | ⟨inexact, p, -, -, happend⟩ |
    ⟨q', hscale, hfull, hq', rfl⟩
  · exact h.ends_exact hscale
  · have h : { q with inexact }.Tracks x d r := ⟨h.1, h.2⟩
    obtain ⟨q₁, hdigits, hscale, -, hcase⟩ := append_cases happend
    have htracks := h.append hdigits hscale
    rcases hcase with ⟨-, rfl⟩ | ⟨hbound, q', hq', rfl⟩
    · exact htracks
    · exact htracks.ends_squeeze hbound hq'
  · have h : { q with inexact := true }.Tracks x d r := ⟨h.1, h.2⟩
    exact h.ends_round hscale hfull hq'

theorem Tracks.longDivision {rounds : ℕ} (h : q.Tracks x d r)
    (hq' : Decimal.longDivision d rounds q r = .ok q') : q'.Ends x := by
  induction rounds generalizing q r with
  | zero => cases hq'
  | succ rounds ih =>
    obtain ⟨round, hround, hq'⟩ := Fault.bind_eq_ok.1 hq'
    have hkeeps := h.advance hround
    cases round with
    | done q₁ =>
      cases hq'
      exact hkeeps
    | next q₁ r₁ => exact ih hkeeps hq'

end Tracks

/-! ## Quotients that fit -/

section Small

variable {d r : ℕ} {q q' : Quotient}

theorem Small.squeeze {sticky : Bool} (hscale : q.scale ≤ maxScale)
    (hdigits : q.digits < bound * 2) (hq' : q.squeeze sticky = .ok q') : q'.Small := by
  have hb : bound = 79228162514264337593543950336 := by decide
  obtain ⟨hpos, hscale', hcase⟩ := squeeze_cases hq'
  exact ⟨by omega, by omega⟩

theorem Small.round (h : q.Small) (hq' : q.round r d = .ok q') : q'.Small := by
  have hb : bound = 79228162514264337593543950336 := by decide
  have hdigits := h.digits_lt
  have hscale := h.scale_le
  rcases round_cases hq' with ⟨rfl, -⟩ |
    ⟨-, q₁, hdigits₁, hscale₁, ⟨hne, rfl⟩ | ⟨hbound, hq'⟩⟩
  · exact h
  · exact ⟨by omega, by omega⟩
  · exact .squeeze (by omega) (by omega) hq'

/-- A round goes on or ends with a quotient that fits. -/
def Round.Fits (d : ℕ) : Round → Prop
  | .done q => q.Small
  | .next q r => q.Small ∧ r < d

theorem Small.advance {round : Round} (h : q.Small) (hr : r < d)
    (hround : q.advance r d = .ok round) : round.Fits d := by
  have hd : 0 < d := (Nat.zero_le r).trans_lt hr
  rcases advance_cases hround with ⟨-, -, rfl⟩ | ⟨inexact, p, hnine, hp, happend⟩ |
    ⟨q', -, -, hq', rfl⟩
  · exact h
  · obtain ⟨q₁, hdigits, hscale, hshifted, hcase⟩ := append_cases happend
    dsimp only at hdigits hscale hshifted
    have hscale₁ : q₁.scale ≤ maxScale := by have := h.scale_le; omega
    rcases hcase with ⟨hbound, rfl⟩ | ⟨-, q', hq', rfl⟩
    · exact ⟨⟨hbound, hscale₁⟩, Nat.mod_lt _ hd⟩
    · -- nine digits more are not enough to double the bound
      refine Small.squeeze hscale₁ ?_ hq'
      have happended : r * powTen p / d < powTen p := by
        rw [Nat.div_lt_iff_lt_mul hd, Nat.mul_comm (powTen p)]
        exact Nat.mul_lt_mul_of_pos_right hr (powTen_pos p)
      have hpow : powTen p ≤ bound :=
        (Nat.pow_le_pow_right (by decide) hnine).trans (by decide : powTen 9 ≤ bound)
      omega
  · have h : { q with inexact := true }.Small := ⟨h.1, h.2⟩
    exact h.round hq'

theorem Small.longDivision {rounds : ℕ} (h : q.Small) (hr : r < d)
    (hq' : Decimal.longDivision d rounds q r = .ok q') : q'.Small := by
  induction rounds generalizing q r with
  | zero => cases hq'
  | succ rounds ih =>
    obtain ⟨round, hround, hq'⟩ := Fault.bind_eq_ok.1 hq'
    have hfits := h.advance hr hround
    cases round with
    | done q₁ =>
      cases hq'
      exact hfits
    | next q₁ r₁ => exact ih hfits.1 hfits.2 hq'

end Small

/-! ## Quotients that exist -/

section Total

variable {x : ℚ} {d r : ℕ} {q : Quotient}

theorem exists_squeeze (sticky : Bool) (h : 0 < q.scale) :
    ∃ q', q.squeeze sticky = .ok q' := by
  rw [squeeze, if_neg (not_le_of_gt h)]
  exact ⟨_, rfl⟩

/-- Whole digits that are still missing make the number so much larger. -/
theorem Tracks.digits_mul_le (h : q.Tracks x d r) {k : ℕ} (hk : q.scale + k ≤ 0) :
    ((q.digits * powTen k : ℕ) : ℚ) + r / d ≤ x := by
  obtain ⟨hshare, -⟩ := h.remainder_share
  have hk' : (10 : ℚ) ^ (k : ℤ) ≤ 10 ^ (-q.scale) := zpow_le_zpow_right₀ (by norm_num) (by omega)
  have hone : (1 : ℚ) ≤ 10 ^ (k : ℤ) := one_le_zpow₀ (by norm_num) (by omega)
  calc ((q.digits * powTen k : ℕ) : ℚ) + r / d
      ≤ (q.digits + r / d) * 10 ^ (k : ℤ) := by
        rw [add_mul, Nat.cast_mul, powTen_cast, zpow_natCast] at *
        exact add_le_add_right (le_mul_of_one_le_right hshare hone) _
    _ ≤ (q.digits + r / d) * 10 ^ (-q.scale) := by gcongr
    _ = x := by rw [h.exact, mul_assoc, ← zpow_add₀ (by norm_num), add_neg_cancel, zpow_zero,
        mul_one]

/-- A number that has a coefficient has no more whole digits than that. -/
theorem Tracks.digits_mul_lt (h : q.Tracks x d r) (hx : x ≤ (bound : ℚ) - 1) {k : ℕ}
    (hk : q.scale + k ≤ 0) : q.digits * powTen k < bound := by
  have hle := h.digits_mul_le hk
  have hlt : ((q.digits * powTen k : ℕ) : ℚ) < bound := by linarith [h.remainder_share.1]
  exact_mod_cast hlt

theorem Tracks.exists_append (h : q.Tracks x d r) (hx : x ≤ (bound : ℚ) - 1) {p : ℕ}
    (hdigits : q.digits * powTen p < bound) :
    (∃ q', q.append r d p = .ok (.done q')) ∨
      ∃ q₁ : Quotient, q₁.scale = q.scale + p ∧ q₁.Tracks x d (r * powTen p % d) ∧
        q.append r d p = .ok (.next q₁ (r * powTen p % d)) := by
  have htracks : Quotient.Tracks x d
      { q with digits := q.digits * powTen p + r * powTen p / d, scale := q.scale + p }
      (r * powTen p % d) := h.append rfl rfl
  unfold Quotient.append
  dsimp only
  rw [if_neg (Nat.not_le.2 hdigits)]
  split
  · next hbound =>
    -- what reaches the bound has decimals
    have hpos : 0 < q.scale + p := by
      by_contra hneg
      have hlt := htracks.digits_mul_lt hx (k := 0) (by dsimp only; omega)
      rw [powTen_zero, Nat.mul_one] at hlt
      exact absurd hlt (Nat.not_lt.2 hbound)
    obtain ⟨q', hq'⟩ := exists_squeeze
      (q := { q with digits := q.digits * powTen p + r * powTen p / d, scale := q.scale + p })
      (r * powTen p % d ≠ 0) hpos
    exact .inl ⟨q', by rw [hq']; rfl⟩
  · exact .inr ⟨_, rfl, htracks, rfl⟩

/-- The last digit can be rounded: what reaches the bound then has decimals. -/
theorem Tracks.exists_round (h : q.Tracks x d r) (hx : x ≤ (bound : ℚ) - 1) (hr : r ≠ 0) :
    ∃ q', { q with inexact := true }.round r d = .ok q' := by
  by_cases hlast : q.digits + 1 = bound
  · have hpos : 0 < q.scale := by
      by_contra hneg
      have hle := h.digits_mul_le (k := 0) (by omega)
      have hd : (0 : ℚ) < d := by exact_mod_cast (Nat.zero_le r).trans_lt h.remainder_lt
      have hshare : (0 : ℚ) < r / d := div_pos (by exact_mod_cast Nat.pos_of_ne_zero hr) hd
      have hlast' : (q.digits : ℚ) + 1 = bound := by exact_mod_cast hlast
      rw [powTen_zero, Nat.mul_one] at hle
      linarith
    unfold Quotient.round
    dsimp only
    rw [if_pos hlast]
    split
    · exact exists_squeeze true hpos
    · exact ⟨_, rfl⟩
  · unfold Quotient.round
    dsimp only
    rw [if_neg hlast]
    split <;> exact ⟨_, rfl⟩

/-- A round of such a division ends it or adds decimals. -/
theorem Tracks.exists_advance (h : q.Tracks x d r) (hx : x ≤ (bound : ℚ) - 1)
    (hscale : q.scale ≤ maxScale) :
    (∃ q', q.advance r d = .ok (.done q')) ∨
      ∃ (q₁ : Quotient) (r₁ : ℕ), q.scale < q₁.scale ∧ q₁.scale ≤ maxScale ∧
        q₁.Tracks x d r₁ ∧ q.advance r d = .ok (.next q₁ r₁) := by
  have hmax : (maxScale : ℤ) = 28 := rfl
  unfold Quotient.advance
  split
  · split
    · exact .inl ⟨q, rfl⟩
    · next hneg =>
      have hp : Nat.min 9 (-q.scale).toNat ≤ (-q.scale).toNat := Nat.min_le_right _ _
      have hpos : 0 < Nat.min 9 (-q.scale).toNat := Nat.lt_min.2 (by omega)
      have hlt := h.digits_mul_lt hx (k := Nat.min 9 (-q.scale).toNat) (by omega)
      rcases h.exists_append hx hlt with hdone | ⟨q₁, hq₁, htracks, happend⟩
      · exact .inl hdone
      · exact .inr ⟨q₁, _, by omega, by omega, htracks, happend⟩
  · next hr =>
    have h' : { q with inexact := true }.Tracks x d r := ⟨h.1, h.2⟩
    have hroom := room_le { q with inexact := true }
    -- a room that ends in front of the point would leave too many whole digits
    have hplace : ¬({ q with inexact := true }.room < 9 ∧ q.scale < maxScale ∧
        q.scale + { q with inexact := true }.room < 0) := by
      rintro ⟨hlt, -, hneg⟩
      have hbound := bound_le_of_room_lt (q := { q with inexact := true }) hlt
        (by dsimp only; omega)
      exact absurd (h'.digits_mul_lt hx (by dsimp only; push_cast; omega)) (Nat.not_lt.2 hbound)
    dsimp only at hroom hplace ⊢
    rw [if_neg hplace]
    split
    · obtain ⟨q', hq'⟩ := h.exists_round hx hr
      exact .inl ⟨q', by rw [hq']; rfl⟩
    · next hzero =>
      rcases h'.exists_append hx (digits_mul_lt_of_room hzero) with hdone |
        ⟨q₁, hq₁, htracks, happend⟩
      · exact .inl hdone
      · dsimp only at hq₁
        exact .inr ⟨q₁, _, by omega, by omega, htracks, happend⟩

theorem Tracks.exists_longDivision {rounds : ℕ} (h : q.Tracks x d r) (hx : x ≤ (bound : ℚ) - 1)
    (hscale : q.scale ≤ maxScale) (hrounds : (maxScale - q.scale).toNat < rounds) :
    ∃ q', Decimal.longDivision d rounds q r = .ok q' := by
  -- each round that does not end the division adds a decimal
  induction rounds generalizing q r with
  | zero => cases hrounds
  | succ rounds ih =>
    rw [Decimal.longDivision]
    rcases h.exists_advance hx hscale with ⟨q', hq'⟩ | ⟨q₁, r₁, hlt, hle, htracks, hnext⟩
    · exact ⟨q', by rw [hq']; rfl⟩
    · obtain ⟨q', hq'⟩ := ih htracks hle (by omega)
      exact ⟨q', by rw [hnext]; exact hq'⟩

end Total

/-! ## Trailing zeros -/

/-- `q'` is `q` with fewer zeros behind the point. -/
structure Trims (q q' : Quotient) : Prop where
  scale_nonneg : 0 ≤ q'.scale
  scale_le : q'.scale ≤ q.scale
  digits_le : q'.digits ≤ q.digits
  value_eq : (q'.digits : ℚ) / 10 ^ q'.scale.toNat = q.digits / 10 ^ q.scale.toNat

theorem Trims.refl {q : Quotient} (h : 0 ≤ q.scale) : q.Trims q := ⟨h, le_rfl, le_rfl, rfl⟩

theorem Trims.dropZeros {q q' : Quotient} (h : q.Trims q') (modulus zeros : ℕ) :
    q.Trims (q'.dropZeros modulus zeros) := by
  unfold Quotient.dropZeros
  split
  · next hzeros =>
    obtain ⟨-, hle, hdvd⟩ := hzeros
    have hscale := h.scale_le
    refine ⟨by dsimp only; omega, by dsimp only; omega,
      (Nat.div_le_self _ _).trans h.digits_le, ?_⟩
    dsimp only
    have hdigits : (q'.digits : ℚ) = (q'.digits / powTen zeros : ℕ) * powTen zeros := by
      exact_mod_cast (Nat.div_mul_cancel (Nat.dvd_of_mod_eq_zero hdvd)).symm
    have hpow : (10 : ℚ) ^ q'.scale.toNat = 10 ^ (q'.scale - zeros).toNat * powTen zeros := by
      rw [powTen_cast, ← pow_add]
      congr 1
      omega
    rw [← h.value_eq, hpow, hdigits, mul_div_mul_right _ _ (powTen_cast_pos zeros).ne']
  · exact h

theorem trims_trim {q : Quotient} (h : 0 ≤ q.scale) : q.Trims q.trim := by
  unfold trim
  simp only [List.foldl_cons, List.foldl_nil]
  repeat apply Trims.dropZeros
  exact .refl h

end Quotient

/-! ## Division -/

variable {a b r : Decimal}

/-- The quotient of the magnitudes of two decimals. -/
def quotient (a b : Decimal) : ℚ :=
  (a.magnitude : ℚ) / b.magnitude * 10 ^ ((b.scale : ℤ) - a.scale)

theorem toRat_div_toRat (ha : 0 ≤ a.toRat) (hb : 0 ≤ b.toRat) :
    a.toRat / b.toRat = quotient a b := by
  rw [toRat_nonneg_iff] at ha hb
  have hcast {n : ℤ} (hn : 0 ≤ n) : ((n.natAbs : ℕ) : ℚ) = n := by
    rw [← Int.cast_natCast, Int.natAbs_of_nonneg hn]
  rw [quotient, magnitude, magnitude, hcast ha, hcast hb, zpow_sub₀ (by norm_num), zpow_natCast,
    zpow_natCast, toRat, toRat, powTen_cast, powTen_cast, div_div_div_eq, div_mul_div_comm,
    mul_comm ((10 : ℚ) ^ a.scale)]

/-- The start of a division. -/
theorem Quotient.tracks_start (hb : b.coefficient ≠ 0) :
    Quotient.Tracks (quotient a b) b.magnitude
      ⟨a.magnitude / b.magnitude, (a.scale : ℤ) - b.scale, false⟩
      (a.magnitude % b.magnitude) := by
  have hpos : 0 < b.magnitude := Int.natAbs_pos.2 hb
  have hpos' : (b.magnitude : ℚ) ≠ 0 := by exact_mod_cast hpos.ne'
  refine ⟨Nat.mod_lt _ hpos, ?_⟩
  have hdiv : (b.magnitude : ℚ) * (a.magnitude / b.magnitude : ℕ) +
      (a.magnitude % b.magnitude : ℕ) = a.magnitude := by
    exact_mod_cast Nat.div_add_mod a.magnitude b.magnitude
  rw [quotient, mul_assoc, ← zpow_add₀ (by norm_num), sub_add_sub_cancel, sub_self, zpow_zero,
    mul_one]
  dsimp only
  field_simp
  linarith

/-- What a division makes of operands that are not zero. -/
theorem div_eq_ok (h : a.div b = .ok r) (ha : a.coefficient ≠ 0) :
    b.coefficient ≠ 0 ∧ ∃ q q' : Quotient, q.Ends (quotient a b) ∧
      (a.magnitude < bound → a.scale ≤ maxScale → q.Small) ∧ q.Trims q' ∧
      r.coefficient = a.coefficient.sign * b.coefficient.sign * q'.digits ∧
      r.scale = q'.scale.toNat ∧ r.negativeZero = false := by
  unfold div at h
  split at h
  · cases h
  · next hb =>
    dsimp only at h
    obtain ⟨q, hq, h⟩ := Fault.bind_eq_ok.1 h
    cases h
    have hends : q.Ends (quotient a b) := (Quotient.tracks_start hb).longDivision hq
    refine ⟨hb, q, _, hends, fun hlt hscale => ?_, ?_, rfl, rfl, rfl⟩
    · have hstart : Quotient.Small
          ⟨a.magnitude / b.magnitude, (a.scale : ℤ) - b.scale, false⟩ :=
        ⟨(Nat.div_le_self _ _).trans_lt hlt, by dsimp only; omega⟩
      exact hstart.longDivision (Nat.mod_lt _ (Int.natAbs_pos.2 hb)) hq
    · split
      · exact Quotient.trims_trim hends.scale_nonneg
      · exact .refl hends.scale_nonneg

theorem div_of_coefficient_eq_zero (h : a.div b = .ok r) (ha : a.coefficient = 0) : r = zero := by
  unfold div at h
  split at h
  · cases h
  · cases h
    rfl

/-- The quotient of two decimals that are not negative, before and after rounding. -/
theorem div_rounded (h : a.div b = .ok r) (ha : 0 ≤ a.toRat) (hb : 0 ≤ b.toRat) :
    ∃ q s, Rounded (a.toRat / b.toRat) q s ∧ r.toRat = (q : ℚ) / 10 ^ s ∧
      (a.Valid → q < bound ∧ s ≤ maxScale) := by
  by_cases ha0 : a.coefficient = 0
  · -- nothing divided by anything is nothing
    obtain rfl := div_of_coefficient_eq_zero h ha0
    refine ⟨0, 0, .exact ?_, by simp, fun _ => ⟨by decide, Nat.zero_le _⟩⟩
    rw [toRat_of_coefficient_eq_zero ha0, zero_div, zero_mul, Nat.cast_zero]
  · obtain ⟨hb0, q, q', hends, hsmall, htrims, hcoefficient, hscale, -⟩ := div_eq_ok h ha0
    rw [toRat_div_toRat ha hb]
    refine ⟨q.digits, q.scale.toNat, hends.rounded, ?_, fun hvalid => ?_⟩
    · rw [toRat_nonneg_iff] at ha hb
      have hsign : a.coefficient.sign * b.coefficient.sign = 1 := by
        rw [Int.sign_eq_one_of_pos (lt_of_le_of_ne' ha ha0),
          Int.sign_eq_one_of_pos (lt_of_le_of_ne' hb hb0), one_mul]
      rw [← htrims.value_eq, toRat, powTen_cast, hscale, hcoefficient, hsign, one_mul,
        Int.cast_natCast]
    · have hq := hsmall hvalid.coefficient_lt hvalid.scale_le
      exact ⟨hq.digits_lt, Int.toNat_le.2 hq.scale_le⟩

theorem div_rounds (h : a.div b = .ok r) (ha : 0 ≤ a.toRat) (hb : 0 ≤ b.toRat) :
    r.Rounds (a.toRat / b.toRat) := by
  obtain ⟨q, s, hrounded, hr, -⟩ := div_rounded h ha hb
  exact hrounded.rounds (div_nonneg ha hb) hr

theorem div_nearest (h : a.div b = .ok r) (hvalid : a.Valid) (ha : 0 ≤ a.toRat)
    (hb : 0 ≤ b.toRat) : r.Nearest (a.toRat / b.toRat) := by
  obtain ⟨q, s, hrounded, hr, hsmall⟩ := div_rounded h ha hb
  exact ⟨q, s, hrounded, (hsmall hvalid).1, (hsmall hvalid).2, hr⟩

theorem div_nonpos_of_nonpos (h : a.div b = .ok r) (ha : a.toRat ≤ 0) (hb : 0 ≤ b.toRat) :
    r.toRat ≤ 0 := by
  by_cases ha0 : a.coefficient = 0
  · obtain rfl := div_of_coefficient_eq_zero h ha0
    exact toRat_zero.le
  · obtain ⟨-, q, q', -, -, -, hcoefficient, -, -⟩ := div_eq_ok h ha0
    have ha' : a.coefficient < 0 := by
      rw [toRat, div_le_iff₀ (powTen_cast_pos _), zero_mul] at ha
      exact lt_of_le_of_ne (by exact_mod_cast ha) ha0
    have hsign : a.coefficient.sign * b.coefficient.sign ≤ 0 := by
      rw [Int.sign_eq_neg_one_of_neg ha', neg_one_mul, Left.neg_nonpos_iff]
      exact Int.sign_nonneg_iff.2 (toRat_nonneg_iff.1 hb)
    rw [toRat, hcoefficient]
    refine div_nonpos_of_nonpos_of_nonneg ?_ (powTen_cast_pos _).le
    exact_mod_cast mul_nonpos_of_nonpos_of_nonneg hsign (Int.natCast_nonneg q'.digits)

/-- A part is no more than the whole. -/
theorem div_le_one (h : a.div b = .ok r) (ha : 0 ≤ a.toRat) (hab : a.toRat ≤ b.toRat) :
    r.toRat ≤ 1 := by
  have hb := ha.trans hab
  have hle := (div_rounds h ha hb).le (valid_ofInt (n := 1) (by decide))
  rw [toRat_ofInt, Int.cast_one] at hle
  exact hle (div_le_one_of_le₀ hab hb)

/-- A quotient exists unless it is too large. -/
theorem exists_div_of_quotient_le (hb : b.coefficient ≠ 0) (hx : quotient a b ≤ (bound : ℚ) - 1)
    (hscale : a.scale ≤ b.scale + maxScale) : ∃ r, a.div b = .ok r := by
  unfold div
  rw [if_neg hb]
  split
  · exact ⟨_, rfl⟩
  · obtain ⟨q, hq⟩ := (Quotient.tracks_start (a := a) hb).exists_longDivision hx
      (by dsimp only; omega) (Nat.lt_succ_self _)
    dsimp only at hq ⊢
    rw [hq]
    exact ⟨_, rfl⟩

/-- A part is divided by the whole without a fault. -/
theorem exists_div (ha : 0 ≤ a.toRat) (hab : a.toRat ≤ b.toRat) (hb : b.coefficient ≠ 0)
    (hscale : a.scale ≤ b.scale + maxScale) : ∃ r, a.div b = .ok r := by
  apply exists_div_of_quotient_le hb _ hscale
  have hbound : (2 : ℚ) ≤ bound := by exact_mod_cast (by decide : 2 ≤ bound)
  rw [← toRat_div_toRat ha (ha.trans hab)]
  linarith [div_le_one_of_le₀ hab (ha.trans hab)]

/-- A divisor with no more decimals than the dividend only makes it smaller. -/
theorem exists_div_of_scale_le (ha : a.Valid) (hb : b.coefficient ≠ 0)
    (hscale : b.scale ≤ a.scale) : ∃ r, a.div b = .ok r := by
  apply exists_div_of_quotient_le hb _ (ha.scale_le.trans (Nat.le_add_left _ _))
  have hmagnitude : (a.magnitude : ℚ) + 1 ≤ bound := by exact_mod_cast ha.coefficient_lt
  have hone : (1 : ℚ) ≤ b.magnitude := by exact_mod_cast Int.natAbs_pos.2 hb
  have hpow : (10 : ℚ) ^ ((b.scale : ℤ) - a.scale) ≤ 1 :=
    zpow_le_one_of_nonpos₀ (by norm_num) (by omega)
  calc quotient a b ≤ (a.magnitude : ℚ) / b.magnitude * 1 := by
        rw [quotient]
        gcongr
    _ ≤ a.magnitude := by
        rw [mul_one]
        exact div_le_self (Nat.cast_nonneg _) hone
    _ ≤ (bound : ℚ) - 1 := by linarith

theorem div_valid (h : a.div b = .ok r) (ha : a.Valid) : r.Valid := by
  by_cases ha0 : a.coefficient = 0
  · obtain rfl := div_of_coefficient_eq_zero h ha0
    exact valid_ofInt (by decide)
  · obtain ⟨hb0, q, q', -, hsmall, htrims, hcoefficient, hscale, hsign⟩ := div_eq_ok h ha0
    have hq := hsmall ha.coefficient_lt ha.scale_le
    refine ⟨?_, ?_, fun hneg => ?_⟩
    · have hdigits : r.coefficient.natAbs ≤ q'.digits := by
        rw [hcoefficient, Int.natAbs_mul, Int.natAbs_mul, Int.natAbs_natCast,
          Int.natAbs_sign_of_ne_zero ha0, Int.natAbs_sign_of_ne_zero hb0, one_mul, one_mul]
      exact (hdigits.trans htrims.digits_le).trans_lt hq.digits_lt
    · have hnonneg := htrims.scale_nonneg
      have hle := htrims.scale_le.trans hq.scale_le
      omega
    · rw [hsign] at hneg
      cases hneg

end Decimal
end BondingCurve
