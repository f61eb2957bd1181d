import BondingCurve.Proofs.Curve.Evaluation
import BondingCurve.Proofs.Ledger.Cap
import BondingCurve.Proofs.Rate
import BondingCurve.Proofs.Reserve

/-!
# What a deposit backs

The rate of a deposit is one quotient of whole tokens, rounded to 28 decimals; a claim scales it
back to smallest units and multiplies. The rounding of a claim is next to nothing
(`Computes.le_unitWorth`). That of the rate counts once for every unit of the derivative, and grows
by a power of ten when it is scaled: as long as half a unit of the 28th decimal makes no more than
half a unit of the underlying token for all of them together, the deposit has what they ask for
(`worth_le`). Then it has enough for claims in any order, since each claim takes less off the record
than it takes off what is still to come (`Pool.Covers.claim`). Beyond that a claim of all can be
refused (`Pool.deposit_backs_claims`, `Pool.large_deposit_falls_short`).
-/

namespace BondingCurve

open Outcome

namespace ReserveRecord

/-! ## What a claim computes at most -/

section Computes

variable {r : ReserveRecord} {value : Asset} {raw : Decimal} {n : Amount}

/-- What a claim computes for a unit at most, at a rate between smallest units. -/
def unitWorth (raw : ℚ) : ℚ := raw + Decimal.ulp * (1 + raw)

theorem unitWorth_nonneg {x : ℚ} (h : 0 ≤ x) : 0 ≤ unitWorth x :=
  add_nonneg h (mul_nonneg Decimal.ulp_pos.le (add_nonneg zero_le_one h))

theorem le_unitWorth {x : ℚ} (h : 0 ≤ x) : x ≤ unitWorth x :=
  le_add_of_nonneg_right (mul_nonneg Decimal.ulp_pos.le (add_nonneg zero_le_one h))

/-- The product with a whole number is rounded by a part of itself, or of that number. -/
theorem product_le {d : Decimal} (hvalue : 0 < value.amount) (hrate : 0 ≤ raw.toRat)
    (hd : value.units.mul raw = .ok d) : d.toRat ≤ value.amount * unitWorth raw.toRat := by
  have hone : (1 : ℚ) ≤ value.amount := by exact_mod_cast hvalue
  have hworth : 0 ≤ value.amount * raw.toRat := mul_nonneg (zero_le_one.trans hone) hrate
  have hclose := (abs_le.1 (Decimal.mul_close hd)).2
  rw [Asset.units, Decimal.toRat_ofInt, abs_of_nonneg hworth, sub_le_iff_le_add'] at hclose
  have hmax : max 1 (value.amount * raw.toRat) ≤ value.amount + value.amount * raw.toRat :=
    max_le (by linarith) (by linarith)
  calc d.toRat ≤ value.amount * raw.toRat + Decimal.ulp * max 1 (value.amount * raw.toRat) := hclose
    _ ≤ value.amount * raw.toRat + Decimal.ulp * (value.amount + value.amount * raw.toRat) :=
        add_le_add_right (mul_le_mul_of_nonneg_left hmax Decimal.ulp_pos.le) _
    _ = value.amount * unitWorth raw.toRat := by rw [unitWorth]; ring

/-- What stays clear of the next unit still does so with the rounding of every claim. -/
theorem mul_unitWorth_lt {d units : Amount} {x u : ℚ} (hx : 0 ≤ x) (hd : (d : ℚ) ≤ 10 ^ 19)
    (hu : u ≤ 10 ^ 19) (hworth : d * x ≤ u + 1 - 1 / 10 ^ 8) (hle : units ≤ d) :
    units * unitWorth x < u + 1 :=
  calc units * unitWorth x ≤ d * unitWorth x :=
        mul_le_mul_of_nonneg_right (by exact_mod_cast hle) (unitWorth_nonneg hx)
    _ = d * x + Decimal.ulp * (d + d * x) := by rw [unitWorth]; ring
    _ < u + 1 := by rw [Decimal.ulp]; linarith

theorem Computes.le_unitWorth (h : r.Computes value n)
    (hraw : (Rate.rawRate r.rate value.token.precision r.underlying.token.precision).Returns raw)
    (hvalue : 0 < value.amount) (hrate : 0 ≤ raw.toRat) :
    (n : ℚ) ≤ value.amount * unitWorth raw.toRat := by
  obtain ⟨d, hd, rfl, -⟩ := h.near hraw hvalue.le hrate
  exact (Int.floor_le _).trans (product_le hvalue hrate hd)

/-- A claim computes something if its units cannot be worth more than any amount. -/
theorem exists_computes_of_lt
    (hraw : (Rate.rawRate r.rate value.token.precision r.underlying.token.precision).Returns raw)
    (hvalue : 0 < value.amount) (hrate : 0 ≤ raw.toRat)
    (hlt : value.amount * unitWorth raw.toRat < (Amount.greatest : ℤ) + 1) :
    ∃ n, r.Computes value n := by
  have hvalue0 : (0 : ℚ) ≤ value.amount := by exact_mod_cast hvalue.le
  have hbound : ((Amount.greatest : ℤ) : ℚ) + 1 ≤ (Decimal.bound : ℚ) - 1 := by
    have hint : Amount.greatest + 1 ≤ (Decimal.bound : ℤ) - 1 := by decide
    exact_mod_cast hint
  refine exists_computes_of_floor_le hraw hvalue.le hrate ?_ fun d hd => ?_
  · have hworth := mul_le_mul_of_nonneg_left (ReserveRecord.le_unitWorth hrate) hvalue0
    exact hworth.trans (hlt.le.trans hbound)
  · have hfloor := (Int.floor_le _).trans_lt ((product_le hvalue hrate hd).trans_lt hlt)
    exact Int.lt_add_one_iff.1 (by exact_mod_cast hfloor)

end Computes

/-! ## The rate of a deposit -/

section Deposit

variable {derivative : Token} {d : Amount} {underlying : Asset} {r : ReserveRecord} {raw : Decimal}

/-- A record is made for some units of a derivative, if the quotient exists. -/
theorem ofDeposit?_eq_ok (h : ofDeposit? derivative d underlying = .ok (some r)) :
    0 < d ∧ r.derivative = derivative ∧ r.underlying = underlying ∧
      underlying.wholeTokens.div { coefficient := d, scale := derivative.precision } =
        .ok r.rate := by
  unfold ofDeposit? at h
  split at h
  · cases h
  next hpos =>
  obtain ⟨issued, hissued, h⟩ := Abort.bind_eq_ok.1 h
  rw [Abort.pure_eq_ok] at h
  unfold Decimal.ofUnits Decimal.ofUnits? at hissued
  split_ifs at hissued with hscale
  cases hissued
  rcases hdiv : underlying.wholeTokens.div { coefficient := d, scale := derivative.precision }
    with fault | rate
  · rw [hdiv] at h
    cases h
  · rw [hdiv] at h
    cases h
    exact ⟨not_le.1 hpos, rfl, rfl, rfl⟩

variable (hr : ofDeposit? derivative d underlying = .ok (some r))
  (hnonneg : 0 ≤ underlying.amount) (hin : Amount.InRange underlying.amount)
  (hprecision : underlying.token.precision ≤ Symbol.maxPrecision)
include hr hnonneg hin hprecision

/-- The rate is what whole tokens of the one are to whole tokens of the other, rounded. -/
theorem rate_nearest :
    r.rate.Valid ∧ 0 ≤ r.rate.toRat ∧
      r.rate.Nearest (underlying.amount / 10 ^ underlying.token.precision /
        (d / 10 ^ derivative.precision)) := by
  obtain ⟨hpos, -, rfl, hdiv⟩ := ofDeposit?_eq_ok hr
  have hscale : r.underlying.token.precision ≤ Decimal.maxScale :=
    hprecision.trans (by decide)
  have hwhole : r.underlying.wholeTokens =
      { coefficient := r.underlying.amount, scale := r.underlying.token.precision } := by
    rw [Asset.wholeTokens, Decimal.ofUnits?, if_pos hscale]
    rfl
  rw [hwhole] at hdiv
  have hvalid : Decimal.Valid
      { coefficient := r.underlying.amount, scale := r.underlying.token.precision } :=
    ⟨(Decimal.valid_of_inRange hin).coefficient_lt, hscale, nofun⟩
  have hover : 0 ≤ Decimal.toRat
      { coefficient := r.underlying.amount, scale := r.underlying.token.precision } :=
    Decimal.toRat_nonneg_iff.2 hnonneg
  have hunder : 0 ≤ Decimal.toRat { coefficient := d, scale := derivative.precision } :=
    Decimal.toRat_nonneg_iff.2 hpos.le
  have hnearest := Decimal.div_nearest hdiv hvalid hover hunder
  have hrate := (hnearest.rounds (div_nonneg hover hunder)).nonneg (div_nonneg hover hunder)
  simp only [Decimal.toRat, Decimal.powTen_cast] at hnearest
  exact ⟨Decimal.div_valid hdiv hvalid, hrate, hnearest⟩

/-- Scaled back without another rounding, the rate is off by no more than half a unit of the
underlying token for all units of the derivative together. -/
theorem scaled_worth_le
    (hfine : d * 10 ^ underlying.token.precision ≤ 10 ^ 28 * 10 ^ derivative.precision) :
    d * Rate.scaled r.rate derivative.precision underlying.token.precision ≤
      underlying.amount + 1 / 2 := by
  obtain ⟨hpos, -⟩ := ofDeposit?_eq_ok hr
  obtain ⟨-, -, hnearest⟩ := rate_nearest hr hnonneg hin hprecision
  have hd : (0 : ℚ) < d := by exact_mod_cast hpos
  -- how many units of the underlying token one unit is worth at a rate of one
  obtain ⟨shift, hshift⟩ : ∃ shift : ℚ, shift =
      10 ^ underlying.token.precision / 10 ^ derivative.precision := ⟨_, rfl⟩
  have hshift0 : 0 ≤ d * shift := by
    rw [hshift]
    positivity
  have hunits : d * shift ≤ 10 ^ 28 := by
    rw [hshift, mul_div_assoc', div_le_iff₀ (by positivity)]
    exact_mod_cast hfine
  have hscaled : Rate.scaled r.rate derivative.precision underlying.token.precision =
      r.rate.toRat * shift := by
    rw [Rate.scaled, hshift, zpow_sub₀ (by norm_num), zpow_natCast, zpow_natCast]
  have hexact : d * shift * (underlying.amount / 10 ^ underlying.token.precision /
      (d / 10 ^ derivative.precision)) = underlying.amount := by
    rw [hshift]
    field_simp
  have hamount := Curve.cast_le_greatest hin
  have hclose := mul_le_mul_of_nonneg_left (abs_le.1 hnearest.abs_sub_le).2 hshift0
  rw [mul_sub, hexact, mul_max_of_nonneg _ _ hshift0, mul_left_comm, hexact] at hclose
  have herror : max (d * shift * (Decimal.ulp / 2)) (Decimal.ulp * underlying.amount) ≤ 1 / 2 := by
    refine max_le ?_ ?_
    · rw [Decimal.ulp]
      linarith
    · rw [Decimal.ulp]
      linarith
  calc d * Rate.scaled r.rate derivative.precision underlying.token.precision
      = d * shift * r.rate.toRat := by rw [hscaled]; ring
    _ ≤ underlying.amount + 1 / 2 := by linarith

variable (hd : Amount.InRange d)
  (hraw : (Rate.rawRate r.rate derivative.precision underlying.token.precision).Returns raw)
include hraw

theorem raw_nonneg : 0 ≤ raw.toRat := by
  obtain ⟨hvalid, hrate, -⟩ := rate_nearest hr hnonneg hin hprecision
  have hscaled : 0 ≤ Rate.scaled r.rate derivative.precision underlying.token.precision :=
    mul_nonneg hrate (zpow_nonneg (by norm_num) _)
  exact ((Rate.rawRate_nearest hvalid hrate hraw).rounds hscaled).nonneg hscaled

include hd

/-- Unless the underlying token has so many more decimals than the derivative that half a unit of
the 28th decimal of the rate is more than half a unit for all of the derivative together, what all
of it is worth stays clear of the next unit. -/
theorem worth_le
    (hfine : d * 10 ^ underlying.token.precision ≤ 10 ^ 28 * 10 ^ derivative.precision) :
    d * raw.toRat ≤ underlying.amount + 1 - 1 / 10 ^ 8 := by
  obtain ⟨hpos, -⟩ := ofDeposit?_eq_ok hr
  obtain ⟨hvalid, hrate, -⟩ := rate_nearest hr hnonneg hin hprecision
  have hworth := scaled_worth_le hr hnonneg hin hprecision hfine
  have hd0 : (0 : ℚ) ≤ d := by exact_mod_cast hpos.le
  have hd19 := Curve.cast_le_greatest hd
  have hamount := Curve.cast_le_greatest hin
  have hclose := mul_le_mul_of_nonneg_left
    (abs_le.1 (Rate.rawRate_nearest hvalid hrate hraw).abs_sub_le).2 hd0
  rw [mul_sub, mul_max_of_nonneg _ _ hd0, mul_left_comm] at hclose
  have herror : max (d * (Decimal.ulp / 2)) (Decimal.ulp * (d *
      Rate.scaled r.rate derivative.precision underlying.token.precision)) ≤
        1 / 2 - 1 / 10 ^ 8 := by
    refine max_le ?_ ?_
    · rw [Decimal.ulp]
      linarith
    · rw [Decimal.ulp]
      linarith
  linarith

end Deposit

/-- How a claim that asks for `n` units is answered where the record has them: it is paid, or the
ledger refuses. -/
def Answers (r : ReserveRecord) (n : Amount) (answer : Except ReserveError Asset) : Prop :=
  answer = .ok (r.underlying.withAmount n) ∨ ∃ e, answer = .error (.ledger e)

end ReserveRecord

/-! ## Claims one after the other -/

namespace Pool

/-- A claim: who claims how much, and on which ledger. -/
structure Demand where
  ledger : Ledger
  owner : Account
  amount : Amount

/-- What all claims are for together. -/
def demanded (cs : List Demand) : Amount := (cs.map (·.amount)).sum

/-- Claims for `t` on a pool, one after the other, what they are answered and the pool after them.
Between two of them anything may happen to the ledger. -/
def claimAll (p : Pool) (t : Token) :
    List Demand → Except Abort (List (Except ReserveError Asset) × Pool)
  | [] => .ok ([], p)
  | c :: cs => do
    let result ← p.claim c.ledger c.owner ⟨c.amount, t⟩
    let (answers, q) ← result.reserve.claimAll t cs
    return (result.payout :: answers, q)

variable {p q : Pool} {t : Token} {raw : Decimal} {s : ReserveRecord} {units : Amount}

/-- On a consistent ledger a claim for which something is owed is answered. -/
theorem exists_answer {l : Ledger} {owner : Account} {value : Asset} {n : Amount}
    (hl : l.Consistent) (howed : (p.owed value).Returns (s, n)) :
    ∃ c, p.claim l owner value = .ok c := by
  rcases ends (l.retire owner value claimMemo) with ⟨burnt, hburns⟩ | ⟨e, hrefuses⟩ | ⟨a, haborts⟩
  · by_cases hpos : 0 < n
    · rcases ends (burnt.transfer p.account owner (s.underlying.withAmount n) claimMemo) with
        ⟨l', hpays⟩ | ⟨e, hrefuses⟩ | ⟨a, haborts⟩
      · exact ⟨_, claim_eq_ok.2 (.paid howed hburns hpos hpays)⟩
      · exact ⟨_, claim_eq_ok.2 (.unpaid howed hburns hpos hrefuses)⟩
      · exact absurd haborts (hl.retire hburns).not_aborts_transfer
    · exact ⟨_, claim_eq_ok.2 (.worthless howed hburns hpos)⟩
  · exact ⟨_, claim_eq_ok.2 (.unburned howed hrefuses)⟩
  · exact absurd haborts Ledger.not_aborts_retire

/-- The record `s` of `t`, at a rate of `raw` between smallest units, has what claims for `units`
ask for at most. -/
structure Covers (p : Pool) (t : Token) (raw : Decimal) (units : Amount) (s : ReserveRecord) :
    Prop where
  record : p.record? t = some s
  rate : (Rate.rawRate s.rate t.precision s.underlying.token.precision).Returns raw
  raw_nonneg : 0 ≤ raw.toRat
  le_greatest : s.underlying.amount ≤ Amount.greatest
  enough : units * ReserveRecord.unitWorth raw.toRat < s.underlying.amount + 1

/-- What is paid for some of the units leaves enough for the rest. -/
theorem Covers.less {v paid : Amount} (h : p.Covers t raw (v + units) s) (hpaid : 0 ≤ paid)
    (hle : (paid : ℚ) ≤ v * ReserveRecord.unitWorth raw.toRat)
    (hq : q.record? t = some (s.less paid)) : q.Covers t raw units (s.less paid) := by
  refine ⟨hq, h.rate, h.raw_nonneg, (Int.sub_le_self _ hpaid).trans h.le_greatest, ?_⟩
  have henough := h.enough
  rw [Int.cast_add, add_mul] at henough
  show units * ReserveRecord.unitWorth raw.toRat < ((s.underlying.amount - paid : ℤ) : ℚ) + 1
  rw [Int.cast_sub]
  linarith

/-- What is owed for some of the units is no more than they can be worth. -/
theorem Covers.exists_owed {v : Amount} (h : p.Covers t raw (v + units) s) (hv : 0 < v)
    (hunits : 0 ≤ units) :
    ∃ n, s.Computes ⟨v, t⟩ n ∧ (n : ℚ) ≤ v * ReserveRecord.unitWorth raw.toRat ∧
      (p.owed ⟨v, t⟩).Returns (s, n) := by
  have hworth : (v : ℚ) * ReserveRecord.unitWorth raw.toRat < s.underlying.amount + 1 := by
    have hrest : 0 ≤ units * ReserveRecord.unitWorth raw.toRat :=
      mul_nonneg (by exact_mod_cast hunits) (ReserveRecord.unitWorth_nonneg h.raw_nonneg)
    have henough := h.enough
    rw [Int.cast_add, add_mul] at henough
    linarith
  have hgreatest : (s.underlying.amount : ℚ) ≤ (Amount.greatest : ℤ) := by
    exact_mod_cast h.le_greatest
  have hexists : ∃ n, s.Computes ⟨v, t⟩ n :=
    ReserveRecord.exists_computes_of_lt h.rate hv h.raw_nonneg (hworth.trans_le (by linarith))
  obtain ⟨n, hn⟩ := hexists
  have hnworth := hn.le_unitWorth h.rate hv h.raw_nonneg
  have hle : n ≤ s.underlying.amount :=
    Int.lt_add_one_iff.1 (by exact_mod_cast hnworth.trans_lt hworth)
  exact ⟨n, hn, hnworth, returns_owed.2 ⟨hv, h.record, hn, hle⟩⟩

/-- A claim for some of the units is paid what it asks for, or the ledger refuses, and the record
has enough for the rest. -/
theorem Covers.claim {v : Amount} {l : Ledger} {owner : Account} {c : ClaimResult Pool}
    (h : p.Covers t raw (v + units) s) (hv : 0 < v) (hunits : 0 ≤ units)
    (hclaim : p.Claims l owner ⟨v, t⟩ c) :
    ∃ n paid, s.Computes ⟨v, t⟩ n ∧ s.Answers n c.payout ∧
      c.reserve.Covers t raw units (s.less paid) := by
  obtain ⟨n, hn, hworth, howed⟩ := h.exists_owed hv hunits
  -- where nothing is paid, the record is as it was
  have hunpaid : p.Covers t raw units (s.less 0) :=
    h.less le_rfl (Int.cast_zero.trans_le ((Int.cast_nonneg hn.nonneg).trans hworth))
      (s.less_zero.symm ▸ h.record)
  have hpaid : (p.pay t s n).Covers t raw units (s.less n) :=
    h.less hn.nonneg hworth (by rw [record?_pay, if_pos rfl])
  cases hclaim with
  | refused refuses => exact absurd howed refuses.not_returns
  | unburned => exact ⟨n, 0, hn, .inr ⟨_, rfl⟩, hunpaid⟩
  | unpaid => exact ⟨n, 0, hn, .inr ⟨_, rfl⟩, hunpaid⟩
  | paid owes =>
    obtain ⟨rfl, rfl⟩ := Prod.mk.inj (owes.unique howed)
    exact ⟨_, _, hn, .inl rfl, hpaid⟩
  | worthless owes =>
    obtain ⟨rfl, rfl⟩ := Prod.mk.inj (owes.unique howed)
    exact ⟨_, _, hn, .inl rfl, hpaid⟩

/-- What the claims ask for, one after the other. -/
def Asks (s : ReserveRecord) (t : Token) (cs : List Demand) (asked : List Amount) : Prop :=
  List.Forall₂ (fun c n => s.Computes ⟨c.amount, t⟩ n) cs asked

theorem demanded_nonneg {cs : List Demand} (hcs : ∀ c ∈ cs, 0 < c.amount) : 0 ≤ demanded cs := by
  refine List.sum_nonneg ?_
  rintro _ hn
  obtain ⟨c, hc, rfl⟩ := List.mem_map.1 hn
  exact (hcs c hc).le

/-- Of a record that has enough for all of them, no claim asks too much. -/
theorem Covers.claimAll {cs : List Demand} :
    ∀ {p : Pool} {s : ReserveRecord} {result : List (Except ReserveError Asset) × Pool},
      p.Covers t raw (demanded cs) s → (∀ c ∈ cs, 0 < c.amount) →
      p.claimAll t cs = .ok result →
      ∃ asked, Asks s t cs asked ∧ List.Forall₂ s.Answers asked result.1 := by
  induction cs with
  | nil =>
    intro p s result _ _ hresult
    cases hresult
    exact ⟨[], .nil, .nil⟩
  | cons c cs ih =>
    intro p s result h hcs hresult
    obtain ⟨reply, hreply, hresult⟩ := Abort.bind_eq_ok.1 hresult
    obtain ⟨⟨answers, q⟩, hrest, hresult⟩ := Abort.bind_eq_ok.1 hresult
    cases hresult
    have hcs' : ∀ c ∈ cs, 0 < c.amount := fun c hc => hcs c (List.mem_cons_of_mem _ hc)
    have hsum : demanded (c :: cs) = c.amount + demanded cs := List.sum_cons
    obtain ⟨n, paid, hn, hanswer, hcovers⟩ :=
      (hsum ▸ h).claim (hcs c List.mem_cons_self) (demanded_nonneg hcs') (claim_eq_ok.1 hreply)
    -- the record that is left has the same rate, in the same token
    obtain ⟨asked, hasked, hanswers⟩ := ih hcovers hcs' hrest
    exact ⟨n :: asked, .cons hn hasked, .cons hanswer hanswers⟩

/-- On consistent ledgers they are all answered. -/
theorem Covers.exists_claimAll {cs : List Demand} :
    ∀ {p : Pool} {s : ReserveRecord}, p.Covers t raw (demanded cs) s →
      (∀ c ∈ cs, 0 < c.amount) → (∀ c ∈ cs, c.ledger.Consistent) →
      ∃ answers q, p.claimAll t cs = .ok (answers, q) := by
  induction cs with
  | nil => exact fun _ _ _ => ⟨[], _, rfl⟩
  | cons c cs ih =>
    intro p s h hcs hledgers
    have hcs' : ∀ c ∈ cs, 0 < c.amount := fun c hc => hcs c (List.mem_cons_of_mem _ hc)
    have hsum : demanded (c :: cs) = c.amount + demanded cs := List.sum_cons
    rw [hsum] at h
    obtain ⟨n, -, -, howed⟩ := h.exists_owed (hcs c List.mem_cons_self) (demanded_nonneg hcs')
    have hexists : ∃ reply, p.claim c.ledger c.owner ⟨c.amount, t⟩ = .ok reply :=
      exists_answer (hledgers c List.mem_cons_self) howed
    obtain ⟨reply, hreply⟩ := hexists
    obtain ⟨_, _, -, -, hcovers⟩ :=
      h.claim (hcs c List.mem_cons_self) (demanded_nonneg hcs') (claim_eq_ok.1 hreply)
    obtain ⟨answers, q, hrest⟩ :=
      ih hcovers hcs' fun c hc => hledgers c (List.mem_cons_of_mem _ hc)
    refine ⟨reply.payout :: answers, q, Abort.bind_eq_ok.2 ⟨reply, hreply, ?_⟩⟩
    exact Abort.bind_eq_ok.2 ⟨_, hrest, rfl⟩

/-- All claims together ask for no more than their units can be worth. -/
theorem Asks.sum_le {cs : List Demand} {asked : List Amount} (h : Asks s t cs asked)
    (hraw : (Rate.rawRate s.rate t.precision s.underlying.token.precision).Returns raw)
    (hrate : 0 ≤ raw.toRat) (hcs : ∀ c ∈ cs, 0 < c.amount) :
    (asked.sum : ℚ) ≤ demanded cs * ReserveRecord.unitWorth raw.toRat := by
  induction h with
  | nil => simp [demanded]
  | @cons c n cs asked hn _ ih =>
    have hfirst := hn.le_unitWorth hraw (hcs c List.mem_cons_self) hrate
    have hrest := ih fun c hc => hcs c (List.mem_cons_of_mem _ hc)
    have hsum : demanded (c :: cs) = c.amount + demanded cs := List.sum_cons
    rw [List.sum_cons, hsum, Int.cast_add, Int.cast_add, add_mul]
    exact add_le_add hfirst hrest

end Pool

/-! ## What a deposit backs -/

namespace Pool

/-- Take the record that a deposit behind `d` units of a derivative makes, and its rate `raw` between
smallest units. As long as all the units together are worth clearly less than a unit more than the
deposit, claims for no more than all of them, in whatever parts and with whatever becomes of the
ledger between them, never ask for more than the deposit, and each is paid unless the ledger
refuses; on consistent ledgers they are all answered. So it is where the underlying token has no more than nine decimals more than the
derivative, or where there is not too much of the derivative for so many decimals. Where all the
units are worth a unit more than the deposit, a claim of all is refused for too little on the
record. -/
theorem deposit_backs_claims {derivative : Token} {d : Amount} {underlying : Asset}
    {r : ReserveRecord} {raw : Decimal}
    (hr : ReserveRecord.ofDeposit? derivative d underlying = .ok (some r))
    (hd : Amount.InRange d) (hnonneg : 0 ≤ underlying.amount)
    (hin : Amount.InRange underlying.amount)
    (hprecision : underlying.token.precision ≤ Symbol.maxPrecision)
    (hraw : (Rate.rawRate r.rate derivative.precision underlying.token.precision).Returns raw) :
    (underlying.token.precision ≤ derivative.precision + 9 ∨
        d * 10 ^ underlying.token.precision ≤ 10 ^ 28 * 10 ^ derivative.precision →
      d * raw.toRat ≤ underlying.amount + 1 - 1 / 10 ^ 8) ∧
    (d * raw.toRat ≤ underlying.amount + 1 - 1 / 10 ^ 8 →
      ∀ {p : Pool} {cs : List Demand}, p.record? derivative = some r →
        (∀ c ∈ cs, 0 < c.amount) → demanded cs ≤ d →
        ((∀ c ∈ cs, c.ledger.Consistent) →
          ∃ answers q, p.claimAll derivative cs = .ok (answers, q)) ∧
        ∀ {answers : List (Except ReserveError Asset)} {q : Pool},
          p.claimAll derivative cs = .ok (answers, q) →
          ∃ asked, Asks r derivative cs asked ∧ asked.sum ≤ underlying.amount ∧
            List.Forall₂ r.Answers asked answers) ∧
    (underlying.amount + 1 ≤ d * raw.toRat → d * raw.toRat ≤ (Amount.greatest : ℤ) →
      ∀ {p : Pool} (l : Ledger) (owner : Account), p.record? derivative = some r →
        ∃ n, underlying.amount < n ∧ p.claim l owner ⟨d, derivative⟩ =
          .ok ⟨.error (.insufficientUnderlying derivative underlying.amount n), l, p⟩) := by
  obtain ⟨hpos, -, rfl, -⟩ := ReserveRecord.ofDeposit?_eq_ok hr
  have hrate := ReserveRecord.raw_nonneg hr hnonneg hin hprecision hraw
  refine ⟨fun hfine => ?_, fun hworth => ?_, fun hworth hgreatest => ?_⟩
  · refine ReserveRecord.worth_le hr hnonneg hin hprecision hd hraw ?_
    rcases hfine with hclose | hfine
    · have hpow : (10 : ℤ) ^ r.underlying.token.precision ≤ 10 ^ (derivative.precision + 9) :=
        pow_le_pow_right₀ (by decide) hclose
      have hgreatest : d ≤ 10 ^ 19 := hd.2.trans (by decide)
      calc d * 10 ^ r.underlying.token.precision
          ≤ 10 ^ 19 * 10 ^ (derivative.precision + 9) :=
            mul_le_mul hgreatest hpow (by positivity) (by positivity)
        _ = 10 ^ 28 * 10 ^ derivative.precision := by ring
    · exact hfine
  · intro p cs hrecord hcs hdemanded
    have henough := ReserveRecord.mul_unitWorth_lt hrate (Curve.cast_le_greatest hd)
      (Curve.cast_le_greatest hin) hworth hdemanded
    have hcovers : p.Covers derivative raw (demanded cs) r := ⟨hrecord, hraw, hrate, hin.2, henough⟩
    refine ⟨hcovers.exists_claimAll hcs, fun hanswers => ?_⟩
    obtain ⟨asked, hasked, hanswered⟩ := hcovers.claimAll hcs hanswers
    refine ⟨asked, hasked, ?_, hanswered⟩
    have hsum := (hasked.sum_le hraw hrate hcs).trans_lt henough
    exact Int.lt_add_one_iff.1 (by exact_mod_cast hsum)
  · intro p l owner hrecord
    have hexists : ∃ n, r.Computes ⟨d, derivative⟩ n :=
      ReserveRecord.exists_computes hraw hpos.le hrate hgreatest
    obtain ⟨n, hn⟩ := hexists
    obtain ⟨-, -, -, hfloor, -⟩ :=
      @ReserveRecord.Computes.near r ⟨d, derivative⟩ raw n hraw hpos.le hrate hn
    have hlt : r.underlying.amount + 1 ≤ n :=
      (Int.le_floor.2 (by exact_mod_cast hworth)).trans hfloor
    have hrefuses : (p.owed ⟨d, derivative⟩).Fails
        (.insufficientUnderlying derivative r.underlying.amount n) :=
      fails_owed_of_lt hpos hrecord hn hlt
    exact ⟨n, hlt, claim_eq_ok.2 (.refused hrefuses)⟩

/-! ## Two tokens far apart -/

namespace Sample

/-- A token that has no decimals. -/
def coarse : Token := ⟨⟨"BIG", 0⟩, ⟨"tkn.token"⟩⟩

/-- A token that has as many decimals as there can be. -/
def fine : Token := ⟨⟨"FIN", 18⟩, ⟨"gxc.token"⟩⟩

/-- Two whole tokens. -/
def backing : Asset := ⟨2000000000000000000, fine⟩

/-- Somebody holds `d` coarse units, and the account of the pool holds the backing. -/
def funded (d : Amount) : List Ledger.Call :=
  [.createToken coarse 1000000000000, .createToken fine 9000000000000000000,
    .issue Ledger.Sample.holder ⟨d, coarse⟩ "", .issue Pool.defaultAccount backing ""]

end Sample

/-- Behind three coarse units, one and then two of them are paid one unit less than the backing. -/
theorem three_units_are_backed :
    ∃ (r : ReserveRecord) (l l' : Ledger) (answers : List (Except ReserveError Asset)) (q : Pool)
      (asked : List Amount),
      ReserveRecord.ofDeposit? Sample.coarse 3 Sample.backing = .ok (some r) ∧
      Ledger.empty.afterAll (Sample.funded 3) = .ok l ∧
      ((Pool.empty defaultAccount).insert r).claimAll Sample.coarse
        [⟨l, Ledger.Sample.holder, 1⟩, ⟨l', Ledger.Sample.holder, 2⟩] = .ok (answers, q) ∧
      Asks r Sample.coarse [⟨l, Ledger.Sample.holder, 1⟩, ⟨l', Ledger.Sample.holder, 2⟩] asked ∧
      asked.sum ≤ Sample.backing.amount ∧
      answers = [.ok ⟨666666666666666666, Sample.fine⟩, .ok ⟨1333333333333333333, Sample.fine⟩] := by
  have hyields : Abort.Yields (ReserveRecord.ofDeposit? Sample.coarse 3 Sample.backing) fun made =>
      ∃ r ∈ made, Abort.Yields (Rate.rawRate r.rate 0 18).run (fun scaled =>
          Abort.Yields scaled fun _ => True) ∧
        Abort.Yields (Ledger.empty.afterAll (Sample.funded 3)) fun l =>
          Abort.Yields (((Pool.empty defaultAccount).insert r).claim l Ledger.Sample.holder
            ⟨1, Sample.coarse⟩) fun c =>
            Abort.Yields (((Pool.empty defaultAccount).insert r).claimAll Sample.coarse
              [⟨l, Ledger.Sample.holder, 1⟩, ⟨c.ledger, Ledger.Sample.holder, 2⟩]) fun result =>
                result.1 = [.ok ⟨666666666666666666, Sample.fine⟩,
                  .ok ⟨1333333333333333333, Sample.fine⟩] := by
    decide +kernel
  obtain ⟨_, hmade, r, rfl, ⟨_, hraw, raw, rfl, -⟩, l, hl, c, -, ⟨answers, q⟩, hall, hpaid⟩ := hyields
  obtain ⟨hworth, hcovers, -⟩ := deposit_backs_claims hmade (by decide) (by decide) (by decide)
    (by decide) hraw
  have hrecord : ((Pool.empty defaultAccount).insert r).record? Sample.coarse = some r := by
    rw [← (ReserveRecord.ofDeposit?_eq_ok hmade).2.1, record?, insert, Table.find?_insert_self]
  obtain ⟨-, hanswered⟩ := @hcovers (hworth (.inr (by decide))) _
    [⟨l, Ledger.Sample.holder, 1⟩, ⟨c.ledger, Ledger.Sample.holder, 2⟩] hrecord (by simp)
    (by simp [demanded])
  obtain ⟨asked, hasked, hsum, -⟩ := hanswered hall
  exact ⟨r, l, c.ledger, answers, q, asked, hmade, hl, hall, hasked, hsum, hpaid⟩

/-- Behind thirty thousand million units, half a unit of the 28th decimal of the rate makes more
than a unit for all of them. Whoever claims for all of them is refused. -/
theorem large_deposit_falls_short :
    Abort.Yields (ReserveRecord.ofDeposit? Sample.coarse 30000000000 Sample.backing) fun made =>
      ∃ r ∈ made, Abort.Yields (Ledger.empty.afterAll (Sample.funded 30000000000)) fun l =>
        l.balanceOf defaultAccount Sample.fine = Sample.backing.amount ∧
        Abort.Yields (((Pool.empty defaultAccount).insert r).claim l Ledger.Sample.holder
          ⟨30000000000, Sample.coarse⟩) fun c =>
            c.payout = .error (.insufficientUnderlying Sample.coarse 2000000000000000000
              2000000000000000001) := by
  decide +kernel

end Pool
end BondingCurve
