import BondingCurve.Proofs.Conversion

/-!
# When a rate is better than the curve

Prices and flat-rate results are rounded, but a rate is a decimal, and so is an amount: no
rounding comes between a price and the rate it is compared with, or between a result and an
amount. A rate that replaces an outcome of the curve is strictly better than the exact price, and
delivers at least as much for the same input, or asks for at most as much for the same output
(`Rate.selected_rate_beats`).

A rate that has to be scaled to smallest units is rounded as well. Then two rounded numbers are
compared, and it is the monotony of rounding that keeps a rate that is no better from replacing
anything (`Rate.selectOverride_eq_none`).
-/

namespace BondingCurve

open Outcome

/-- What is no worse for a trader than an outcome of the curve: more of what a market conversion
delivers, less of what an exact one asks for. -/
def Mode.Improves : Mode → Amount → Amount → Prop
  | .market, curve, better => curve ≤ better
  | .exact, curve, better => better ≤ curve

namespace Rate

variable {direction : Direction} {mode : Mode} {given : Amount} {rate : Decimal}

theorem rawRate_valid {m n : ℕ} {raw : Decimal} (hrate : rate.Valid)
    (h : (rawRate rate m n).Returns raw) : raw.Valid := by
  unfold rawRate at h
  dsimp only at h
  split at h
  · exact absurd h not_returns_throw
  · rw [returns_orOverflow] at h
    split at h
    · exact Decimal.mul_valid h
    · exact Decimal.div_valid h hrate

/-- The exact result at a flat rate. -/
def exactly (direction : Direction) (mode : Mode) (given : Amount) (rate : ℚ) : ℚ :=
  match direction, mode with
  | .buy, .market => given / rate
  | .sell, .market => given * rate
  | .buy, .exact => given * rate
  | .sell, .exact => given / rate

/-- The result at a flat rate before it is made whole. -/
theorem convert_rounds {c : Conversion} (h : (convert direction mode given rate).Returns c) :
    0 < given ∧ 0 < rate.toRat ∧
      c.theoretical.Rounds (exactly direction mode given rate.toRat) := by
  simp only [convert, returns_bind, returns_ite, not_returns_throw, false_and, exists_false,
    and_false, false_or, Decimal.not_le, not_le] at h
  obtain ⟨hgiven, hrate, h⟩ := h
  have hrate : 0 < rate.toRat := by
    rw [← Decimal.toRat_zero]
    exact Decimal.toRat_lt_toRat.2 hrate
  have hgiven' := Decimal.toRat_ofInt_nonneg hgiven.le
  have hmul {d : Decimal} (hd : (Decimal.ofInt given).mul rate = .ok d) :
      (d.max .zero).Rounds (given * rate.toRat) := by
    rw [← Decimal.toRat_ofInt given]
    exact (Decimal.mul_rounds hd hgiven' hrate.le).max_zero (mul_nonneg hgiven' hrate.le)
  have hdiv {d : Decimal} (hd : (Decimal.ofInt given).div rate = .ok d) :
      (d.max .zero).Rounds (given / rate.toRat) := by
    rw [← Decimal.toRat_ofInt given]
    exact (Decimal.div_rounds hd hgiven' hrate.le).max_zero (div_nonneg hgiven' hrate.le)
  refine ⟨hgiven, hrate, ?_⟩
  cases direction <;> cases mode <;> simp only [returns_bind, returns_orOverflow] at h <;>
    obtain ⟨d, hd, h⟩ := h
  · exact (Conversion.truncated_isOutcome h).1 ▸ hdiv hd
  · exact (Conversion.roundedUp_isOutcome h).1 ▸ hmul hd
  · exact (Conversion.truncated_isOutcome h).1 ▸ hmul hd
  · exact (Conversion.roundedUp_isOutcome h).1 ▸ hdiv hd

/-- A market sale is worth the product, rounded down. -/
theorem convert_sell_market {c : Conversion} (h : (convert .sell .market given rate).Returns c) :
    ∃ d, (Decimal.ofInt given).mul rate = .ok d ∧ c.amount = ⌊d.toRat⌋ := by
  obtain ⟨hgiven, hrate, -⟩ := convert_rounds h
  simp only [convert, returns_bind, returns_ite, not_returns_throw, false_and, exists_false,
    and_false, false_or, Decimal.not_le, not_le, returns_orOverflow] at h
  obtain ⟨-, -, d, hd, h⟩ := h
  have hnonneg : 0 ≤ d.toRat :=
    Decimal.mul_nonneg_of_nonneg hd (Decimal.toRat_ofInt_nonneg hgiven.le) hrate.le
  obtain ⟨htheoretical, hout⟩ := Conversion.truncated_isOutcome h
  refine ⟨d, hd, hout.amount_eq.trans ?_⟩
  rw [htheoretical, Decimal.toRat_max, Decimal.toRat_zero, max_eq_left hnonneg]
  rfl

/-- A price between two amounts is their quotient, if there is one. -/
theorem impliedPrice?_eq_ok {connected smart : Amount} {price : Option Decimal}
    (h : impliedPrice? connected smart = .ok price) :
    (smart ≤ 0 ∧ price = none) ∨
      ∃ d : Decimal, 0 < smart ∧ price = some d ∧
        (Decimal.ofInt connected).div (.ofInt smart) = .ok d := by
  unfold impliedPrice? at h
  split at h
  · next hnone =>
    cases h
    exact .inl ⟨hnone, rfl⟩
  · next hsome =>
    simp only [Abort.bind_eq_ok, Abort.pure_eq_ok] at h
    obtain ⟨d, hd, rfl⟩ := h
    exact .inr ⟨d, not_le.1 hsome, rfl, Decimal.divOrAbort_eq_ok hd⟩

theorem impliedPrice?_rounds {connected smart : Amount} {price : Option Decimal}
    (hconnected : 0 ≤ connected) (h : impliedPrice? connected smart = .ok price) :
    (smart ≤ 0 ∧ price = none) ∨
      ∃ d : Decimal, 0 < smart ∧ price = some d ∧ d.Rounds ((connected : ℚ) / smart) := by
  rcases impliedPrice?_eq_ok h with hnone | ⟨d, hsmart, hprice, hd⟩
  · exact .inl hnone
  · refine .inr ⟨d, hsmart, hprice, ?_⟩
    rw [← Decimal.toRat_ofInt connected, ← Decimal.toRat_ofInt smart]
    exact Decimal.div_rounds hd (Decimal.toRat_ofInt_nonneg hconnected)
      (Decimal.toRat_ofInt_nonneg hsmart.le)

/-! ## What is compared -/

/-- What a conversion exchanges: connected tokens for smart tokens, or the other way round. -/
structure Candidate where
  direction : Direction
  connected : Amount
  smart : Amount
deriving DecidableEq, Repr

/-- The two sides of a conversion of `given` with that outcome. -/
def candidate (direction : Direction) (mode : Mode) (given outcome : Amount) : Candidate :=
  match direction, mode with
  | .buy, .market | .sell, .exact => ⟨direction, given, outcome⟩
  | .buy, .exact | .sell, .market => ⟨direction, outcome, given⟩

@[simp] theorem direction_candidate {outcome : Amount} :
    (candidate direction mode given outcome).direction = direction := by
  cases direction <;> cases mode <;> rfl

theorem curvePrice?_eq {curve : Conversion} :
    curvePrice? direction mode given curve =
      impliedPrice? (candidate direction mode given curve.amount).connected
        (candidate direction mode given curve.amount).smart := by
  cases direction <;> cases mode <;> rfl

/-- At `price` for a smallest unit the trader does strictly better: the smart tokens would cost
less, or be worth more. Any price is better for a buyer who gets none. -/
def Candidate.BeatenBy (k : Candidate) (price : ℚ) : Prop :=
  0 < price ∧ match k.direction with
    | .buy => price * k.smart < k.connected
    | .sell => k.connected < price * k.smart

/-- Something is given, so there is something on one of the two sides. -/
theorem candidate_pos {outcome : Amount} (hgiven : 0 < given) (houtcome : 0 ≤ outcome) :
    0 ≤ (candidate direction mode given outcome).connected ∧
      (0 < (candidate direction mode given outcome).connected ∨
        0 < (candidate direction mode given outcome).smart) := by
  cases direction <;> cases mode
  · exact ⟨hgiven.le, .inl hgiven⟩
  · exact ⟨houtcome, .inr hgiven⟩
  · exact ⟨houtcome, .inr hgiven⟩
  · exact ⟨hgiven.le, .inl hgiven⟩

/-- Both sides are amounts, and there is something on one of them. -/
structure Candidate.Sound (k : Candidate) : Prop where
  inRange : Amount.InRange k.connected
  nonneg : 0 ≤ k.connected
  pos : 0 < k.connected ∨ 0 < k.smart

theorem sound_candidate {outcome : Amount} (hpos : 0 < given) (hgiven : Amount.InRange given)
    (houtcome : 0 ≤ outcome) (hin : Amount.InRange outcome) :
    (candidate direction mode given outcome).Sound := by
  cases direction <;> cases mode
  · exact ⟨hgiven, hpos.le, .inl hpos⟩
  · exact ⟨hin, houtcome, .inr hpos⟩
  · exact ⟨hin, houtcome, .inr hpos⟩
  · exact ⟨hgiven, hpos.le, .inl hpos⟩

/-! ## Rates that are better -/

/-- A rate that counts as better than the price between two amounts is so without any rounding. -/
theorem beatenBy_of_isBetter {k : Candidate} {price : Option Decimal} (hrate : rate.Valid)
    (hnonneg : 0 ≤ k.connected) (hsome : 0 < k.connected ∨ 0 < k.smart)
    (hprice : impliedPrice? k.connected k.smart = .ok price)
    (h : isBetter k.direction price rate = true) : k.BeatenBy rate.toRat := by
  obtain ⟨direction, connected, smart⟩ := k
  dsimp only at hnonneg hsome hprice h
  unfold isBetter at h
  split at h
  · cases h
  next hpos =>
  have hpos : 0 < rate.toRat := by
    rw [← Decimal.toRat_zero]
    exact Decimal.toRat_lt_toRat.2 (Decimal.not_le.1 hpos)
  refine ⟨hpos, ?_⟩
  cases direction with
  | buy =>
    show rate.toRat * smart < connected
    rcases impliedPrice?_rounds hnonneg hprice with ⟨hnone, rfl⟩ | ⟨d, hsmart, rfl, hd⟩
    · -- nothing is bought, and something is paid for it
      have hsmart : (smart : ℚ) ≤ 0 := by exact_mod_cast hnone
      have hconnected : (0 : ℚ) < connected := by
        exact_mod_cast hsome.resolve_right (not_lt.2 hnone)
      exact (mul_nonpos_of_nonneg_of_nonpos hpos.le hsmart).trans_lt hconnected
    · exact (lt_div_iff₀ (by exact_mod_cast hsmart)).1 (hd.lt hrate (of_decide_eq_true h))
  | sell =>
    show (connected : ℚ) < rate.toRat * smart
    rcases impliedPrice?_rounds hnonneg hprice with ⟨-, rfl⟩ | ⟨d, hsmart, rfl, hd⟩
    · cases h
    · exact (div_lt_iff₀ (by exact_mod_cast hsmart)).1 (hd.gt hrate (of_decide_eq_true h))

/-- At a price that beats a conversion, the trader comes out on the other side of its outcome. -/
theorem exactly_improves {outcome : Amount} {price : ℚ}
    (h : (candidate direction mode given outcome).BeatenBy price) :
    match mode with
    | .market => (outcome : ℚ) ≤ exactly direction mode given price
    | .exact => exactly direction mode given price ≤ outcome := by
  obtain ⟨hpos, h⟩ := h
  cases direction <;> cases mode
  · have h : price * outcome < given := h
    exact (le_div_iff₀' hpos).2 h.le
  · have h : price * given < outcome := h
    exact (mul_comm price given ▸ h).le
  · have h : (outcome : ℚ) < price * given := h
    exact (mul_comm price given ▸ h).le
  · have h : (given : ℚ) < price * outcome := h
    exact (div_le_iff₀' hpos).2 h.le

theorem returns_selectOverride {curve better : Conversion}
    (h : (selectOverride direction mode given curve rate).Returns (some better)) :
    ∃ price, curvePrice? direction mode given curve = .ok price ∧
      isBetter direction price rate = true ∧
      (convert direction mode given rate).Returns better := by
  simp only [selectOverride, returns_bind, returns_ite, returns_pure, returns_lift, reduceCtorEq,
    and_false, or_false, Option.some.injEq, exists_eq_right] at h
  obtain ⟨price, hprice, hbetter, hconvert⟩ := h
  exact ⟨price, hprice, hbetter, hconvert⟩

/-- A rate that replaces an outcome of the curve beats it without any rounding, and is no worse for
the trader to the unit: neither an outcome nor a rate comes between a number and its rounding. -/
theorem selectOverride_improves {curve better : Conversion} (hrate : rate.Valid)
    (hcurve : 0 ≤ curve.amount) (hin : Amount.InRange curve.amount)
    (h : (selectOverride direction mode given curve rate).Returns (some better)) :
    mode.Improves curve.amount better.amount ∧
      (candidate direction mode given curve.amount).BeatenBy rate.toRat := by
  obtain ⟨price, hprice, hbetter, hconvert⟩ := returns_selectOverride h
  obtain ⟨hgiven, -, hrounds⟩ := convert_rounds hconvert
  rw [curvePrice?_eq] at hprice
  obtain ⟨hnonneg, hsome⟩ := candidate_pos hgiven hcurve
  have hbeaten := beatenBy_of_isBetter hrate hnonneg hsome hprice
    (by rw [direction_candidate]; exact hbetter)
  have hexact := exactly_improves hbeaten
  have hwhole := (convert_isOutcome hconvert).amount_eq
  refine ⟨?_, hbeaten⟩
  cases mode with
  | market => exact (hrounds.le_floor hin hexact).trans_eq hwhole.symm
  | exact => exact hwhole.trans_le (hrounds.ceil_le hin hexact)

/-- What is better for a buyer than a price is not better for a seller. -/
theorem isBetter_disjoint {price price' : Option Decimal}
    (hsame : price'.map Decimal.toRat = price.map Decimal.toRat)
    (hbuy : isBetter .buy price rate = true) : isBetter .sell price' rate = false := by
  unfold isBetter at hbuy ⊢
  split at hbuy
  · cases hbuy
  next hpos =>
  rw [if_neg hpos]
  rcases price with _ | d <;> rcases price' with _ | d'
  · rfl
  · cases hsame
  · cases hsame
  · have hlt := Decimal.toRat_lt_toRat.2 (of_decide_eq_true hbuy)
    rw [← Option.some.inj hsame] at hlt
    exact decide_eq_false (Decimal.not_lt.2 (Decimal.toRat_le_toRat.1 hlt.le))

/-- A rate replaces an outcome of the curve only where it is positive and strictly better for the
trader than the exact price between the two amounts, and what replaces the outcome is no worse to
the unit. At one price no rate replaces the outcome of a purchase and that of a sale. -/
theorem selected_rate_beats {curve better : Conversion} (hrate : rate.Valid)
    (hcurve : 0 ≤ curve.amount) (hin : Amount.InRange curve.amount)
    (h : (selectOverride direction mode given curve rate).Returns (some better)) :
    mode.Improves curve.amount better.amount ∧ 0 < rate.toRat ∧
      (candidate direction mode given curve.amount).BeatenBy rate.toRat ∧
      ∀ {direction' : Direction} {mode' : Mode} {given' : Amount} {curve' better' : Conversion}
        {price price' : Option Decimal}, direction' ≠ direction →
        curvePrice? direction mode given curve = .ok price →
        curvePrice? direction' mode' given' curve' = .ok price' →
        price'.map Decimal.toRat = price.map Decimal.toRat →
        ¬(selectOverride direction' mode' given' curve' rate).Returns (some better') := by
  obtain ⟨himproves, hbeaten⟩ := selectOverride_improves hrate hcurve hin h
  refine ⟨himproves, hbeaten.1, hbeaten, ?_⟩
  intro direction' mode' given' curve' better' price price' hne hprice hprice' hsame h'
  obtain ⟨q, hq, hbetter, -⟩ := returns_selectOverride h
  obtain ⟨q', hq', hbetter', -⟩ := returns_selectOverride h'
  obtain rfl := Except.ok.inj (hprice.symm.trans hq)
  obtain rfl := Except.ok.inj (hprice'.symm.trans hq')
  cases direction with
  | buy =>
    cases direction' with
    | buy => exact hne rfl
    | sell => exact absurd hbetter' (ne_true_of_eq_false (isBetter_disjoint hsame hbetter))
  | sell =>
    cases direction' with
    | buy => exact absurd hbetter (ne_true_of_eq_false (isBetter_disjoint hsame.symm hbetter'))
    | sell => exact hne rfl

/-- Two thirds, cut off after 28 decimals. -/
def belowTwoThirds : Decimal := ⟨6666666666666666666666666666, 28, false⟩

/-- Two units buy three at the curve. The price of one is two thirds, which is rounded up. At two
thirds cut off they buy three as well, and nobody sells three for two at that rate. -/
theorem two_thirds_are_beaten :
    ∃ curve better : Conversion, ∃ price : Option Decimal,
      (Conversion.truncated (.ofInt 3)).Returns curve ∧
      curvePrice? .buy .market 2 curve = .ok price ∧
      curvePrice? .sell .exact 2 curve = .ok price ∧
      (selectOverride .buy .market 2 curve belowTwoThirds).Returns (some better) ∧
      curve.amount ≤ better.amount ∧
      ∀ other, ¬(selectOverride .sell .exact 2 curve belowTwoThirds).Returns (some other) := by
  have hyields : Abort.Yields (Conversion.truncated (.ofInt 3)).run fun answer =>
      Abort.Yields answer fun curve =>
      0 ≤ curve.amount ∧ Amount.InRange curve.amount ∧
      Abort.Yields (curvePrice? .buy .market 2 curve) fun price =>
        curvePrice? .sell .exact 2 curve = .ok price ∧
        Abort.Yields (selectOverride .buy .market 2 curve belowTwoThirds).run fun answer =>
          Abort.Yields answer fun selected => selected.isSome = true := by
    decide +kernel
  obtain ⟨_, hcurve, curve, rfl, hnonneg, hin, price, hbuy, hsell, _, hselect, selected, rfl,
    hsome⟩ := hyields
  obtain ⟨better, rfl⟩ := Option.isSome_iff_exists.1 hsome
  have hrate : belowTwoThirds.Valid := ⟨by decide, by decide, nofun⟩
  obtain ⟨himproves, -, -, hnever⟩ := selected_rate_beats hrate hnonneg hin hselect
  exact ⟨curve, better, price, hcurve, hbuy, hsell, hselect, himproves,
    fun other => hnever nofun hbuy hsell rfl⟩

/-! ## Rates that are not better -/

/-- The exact rate between smallest units. -/
def scaled (rate : Decimal) (smartPrecision connectedPrecision : ℕ) : ℚ :=
  rate.toRat * 10 ^ ((connectedPrecision : ℤ) - smartPrecision)

/-- What `rawRate` computes: the rate times a power of ten, or over one. -/
theorem returns_rawRate {m n : ℕ} {raw : Decimal} (h : (rawRate rate m n).Returns raw) :
    ∃ factor : ℕ, 0 < factor ∧
      (rate.mul (.ofInt factor) = .ok raw ∧ scaled rate m n = rate.toRat * factor ∨
        rate.div (.ofInt factor) = .ok raw ∧ scaled rate m n = rate.toRat / factor) := by
  unfold rawRate at h
  dsimp only at h
  split at h
  · exact absurd h not_returns_throw
  · next factor hfactor =>
    rw [returns_orOverflow] at h
    obtain rfl := Option.some.inj (Option.ite_none_right_eq_some.1 hfactor).2
    refine ⟨Decimal.powTen ((n : ℤ) - m).natAbs, Decimal.powTen_pos _, ?_⟩
    rw [scaled, Decimal.powTen_cast]
    split at h
    · next hshift =>
      obtain ⟨k, hk⟩ := Int.eq_ofNat_of_zero_le hshift
      rw [hk] at h ⊢
      exact .inl ⟨h, by rw [zpow_natCast, Int.natAbs_natCast]⟩
    · next hshift =>
      obtain ⟨k, hk⟩ := Int.eq_ofNat_of_zero_le (Int.neg_nonneg_of_nonpos (Int.not_le.1 hshift).le)
      rw [← Int.neg_neg ((n : ℤ) - m), hk] at h ⊢
      exact .inr ⟨h, by rw [Int.natAbs_neg, Int.natAbs_natCast, zpow_neg, zpow_natCast,
        div_eq_mul_inv]⟩

theorem rawRate_nearest {m n : ℕ} {raw : Decimal} (hrate : rate.Valid) (hpos : 0 ≤ rate.toRat)
    (h : (rawRate rate m n).Returns raw) : raw.Nearest (scaled rate m n) := by
  obtain ⟨factor, hfactor, ⟨h, hscaled⟩ | ⟨h, hscaled⟩⟩ := returns_rawRate h
  · have hnearest := Decimal.mul_nearest h hpos (Decimal.toRat_ofInt_nonneg (Int.natCast_nonneg _))
    rwa [Decimal.toRat_ofInt, Int.cast_natCast, ← hscaled] at hnearest
  · have hnearest :=
      Decimal.div_nearest h hrate hpos (Decimal.toRat_ofInt_nonneg (Int.natCast_nonneg _))
    rwa [Decimal.toRat_ofInt, Int.cast_natCast, ← hscaled] at hnearest

theorem rawRate_nonpos {m n : ℕ} {raw : Decimal} (hrate : rate.toRat ≤ 0)
    (h : (rawRate rate m n).Returns raw) : raw.toRat ≤ 0 := by
  obtain ⟨factor, hfactor, ⟨h, -⟩ | ⟨h, -⟩⟩ := returns_rawRate h
  · refine (Decimal.mul_le (n := 0) h ?_).trans_eq Nat.cast_zero
    rw [Nat.cast_zero]
    exact mul_nonpos_of_nonpos_of_nonneg hrate
      (Decimal.toRat_ofInt_nonneg (Int.natCast_nonneg factor))
  · exact Decimal.div_nonpos_of_nonpos h hrate
      (Decimal.toRat_ofInt_nonneg (Int.natCast_nonneg factor))

/-- Two amounts always have a price, if there is anything to buy. -/
theorem exists_impliedPrice? {connected : Amount} (smart : Amount)
    (hconnected : Amount.InRange connected) :
    ∃ price, impliedPrice? connected smart = .ok price := by
  unfold impliedPrice?
  split
  · exact ⟨none, rfl⟩
  · next hsmart =>
    obtain ⟨d, hd⟩ := Decimal.exists_div_of_scale_le (b := .ofInt smart)
      (Decimal.valid_of_inRange hconnected) (ne_of_gt (not_le.1 hsmart)) le_rfl
    rw [Decimal.divOrAbort, hd]
    exact ⟨some d, rfl⟩

/-- A rate is rounded when it is scaled, and so is the price that it is compared with. Both are
rounded alike, so a rate that is no better does not become it. -/
theorem isBetter_eq_false {m n : ℕ} {raw : Decimal} {k : Candidate} {price : Option Decimal}
    (hrate : rate.Valid) (hraw : (rawRate rate m n).Returns raw) (hk : k.Sound)
    (hprice : impliedPrice? k.connected k.smart = .ok price)
    (hworse : ¬k.BeatenBy (scaled rate m n)) : isBetter k.direction price raw = false := by
  obtain ⟨direction, connected, smart⟩ := k
  dsimp only at hprice ⊢
  unfold isBetter
  split
  · rfl
  next hpos =>
  have hpos : 0 < raw.toRat := by
    rw [← Decimal.toRat_zero]
    exact Decimal.toRat_lt_toRat.2 (Decimal.not_le.1 hpos)
  have hrate0 : 0 < rate.toRat := by
    by_contra hneg
    exact (rawRate_nonpos (le_of_not_gt hneg) hraw).not_gt hpos
  have hscaled : 0 < scaled rate m n := mul_pos hrate0 (zpow_pos (by norm_num) _)
  have hnearest := rawRate_nearest hrate hrate0.le hraw
  -- the price is rounded from the exact one in the same way
  have hrounded {d : Decimal} (hsmart : 0 < smart)
      (hd : (Decimal.ofInt connected).div (.ofInt smart) = .ok d) :
      d.Nearest ((connected : ℚ) / smart) := by
    have hd' := Decimal.div_nearest hd (Decimal.valid_of_inRange hk.inRange)
      (Decimal.toRat_ofInt_nonneg hk.nonneg) (Decimal.toRat_ofInt_nonneg hsmart.le)
    rwa [Decimal.toRat_ofInt, Decimal.toRat_ofInt] at hd'
  have hprice := impliedPrice?_eq_ok hprice
  cases direction with
  | buy =>
    have hle : (connected : ℚ) ≤ scaled rate m n * smart :=
      le_of_not_gt fun hlt => hworse ⟨hscaled, hlt⟩
    rcases hprice with ⟨hnone, rfl⟩ | ⟨d, hsmart, rfl, hd⟩
    · -- nothing is bought, and something is paid for it
      exfalso
      have hsmart0 : (smart : ℚ) ≤ 0 := by exact_mod_cast hnone
      have hconnected0 : (0 : ℚ) < connected := by
        exact_mod_cast hk.pos.resolve_right (not_lt.2 hnone)
      exact (hle.trans (mul_nonpos_of_nonneg_of_nonpos hscaled.le hsmart0)).not_gt hconnected0
    · have hsmart0 : (0 : ℚ) < smart := by exact_mod_cast hsmart
      have hmono := (hrounded hsmart hd).mono hnearest
        (div_nonneg (by exact_mod_cast hk.nonneg) hsmart0.le) ((div_le_iff₀ hsmart0).2 hle)
      exact decide_eq_false (Decimal.not_lt.2 (Decimal.toRat_le_toRat.1 hmono))
  | sell =>
    have hle : scaled rate m n * smart ≤ connected :=
      le_of_not_gt fun hlt => hworse ⟨hscaled, hlt⟩
    rcases hprice with ⟨-, rfl⟩ | ⟨d, hsmart, rfl, hd⟩
    · rfl
    · have hsmart0 : (0 : ℚ) < smart := by exact_mod_cast hsmart
      have hmono := hnearest.mono (hrounded hsmart hd) hscaled.le ((le_div_iff₀ hsmart0).2 hle)
      exact decide_eq_false (Decimal.not_lt.2 (Decimal.toRat_le_toRat.1 hmono))

/-- A rate that is no better than the outcome of the curve does not replace it. -/
theorem selectOverride_eq_none {m n : ℕ} {raw : Decimal} {curve : Conversion}
    (hrate : rate.Valid) (hraw : (rawRate rate m n).Returns raw) (hpos : 0 < given)
    (hgiven : Amount.InRange given) (hcurve : curve.IsOutcome mode)
    (hworse : ¬(candidate direction mode given curve.amount).BeatenBy (scaled rate m n)) :
    selectOverride direction mode given curve raw = pure none := by
  have hsound : (candidate direction mode given curve.amount).Sound :=
    sound_candidate hpos hgiven hcurve.amount_nonneg hcurve.amount_inRange
  obtain ⟨price, hprice⟩ :=
    exists_impliedPrice? (candidate direction mode given curve.amount).smart hsound.inRange
  have hbetter := isBetter_eq_false hrate hraw hsound hprice hworse
  rw [direction_candidate] at hbetter
  rw [← curvePrice?_eq] at hprice
  rw [selectOverride, (returns_lift.2 hprice).bind_eq, hbetter]
  rfl

/-- Scaling a rate has one way to fail. -/
theorem fails_rawRate {m n : ℕ} (h : ∀ raw, ¬(rawRate rate m n).Returns raw) :
    (rawRate rate m n).Fails .overflow := by
  unfold rawRate at h ⊢
  dsimp only at h ⊢
  split at h
  · exact fails_throw.2 rfl
  · next factor _ =>
    generalize (if (0 : ℤ) ≤ n - m then rate.mul (.ofInt factor) else rate.div (.ofInt factor)) = o
      at h ⊢
    cases o with
    | ok d => exact absurd (returns_pure.2 rfl) (h d)
    | error e => exact fails_throw.2 rfl

end Rate
end BondingCurve
