import BondingCurve.Proofs.Conversion
import BondingCurve.Proofs.Ledger.Consistency
import BondingCurve.Reserve.Brokered

/-!
# Claims

Whatever stands behind a reserve, a claim is handed the ledger as an interface and can only move,
mint and burn on it. `LawfulReserve` says so, and that is all the invariants of an exchange need.
Of a pool more is known: what a claim computes at the rate of a record
(`ReserveRecord.Computes.near`), when that is owed (`Pool.returns_owed`), and every way in which
the claim then ends (`Pool.claim_eq_ok`).
-/

namespace BondingCurve

open Outcome

/-- A reserve that changes the ledger through its operations only. -/
class LawfulReserve (ρ : Type) [Reserve ρ] : Prop where
  moves_claim : ∀ {reserve : ρ} {l : Ledger} {owner : Account} {value : Asset}
    {c : ClaimResult ρ}, Reserve.claim reserve l owner value = .ok c → l.Moves c.ledger

/-! ## What is owed -/

/-- `n` is what a claim computes for `value` at the rate of the record `r`, whether it is there to
be paid or not. -/
def ReserveRecord.Computes (r : ReserveRecord) (value : Asset) (n : Amount) : Prop :=
  ∃ (raw d : Decimal) (c : Conversion),
    (Rate.rawRate r.rate value.token.precision r.underlying.token.precision).Returns raw ∧
    value.units.mul raw = .ok d ∧ (Conversion.truncated d).Returns c ∧ c.amount = n

theorem ReserveRecord.less_zero (r : ReserveRecord) : r.less 0 = r := by
  rw [less, sub_zero]
  rfl

section Computes

variable {r : ReserveRecord} {value : Asset} {raw : Decimal} {n : Amount}

theorem ReserveRecord.Computes.nonneg (h : r.Computes value n) : 0 ≤ n := by
  obtain ⟨_, _, _, -, -, hc, rfl⟩ := h
  exact (Conversion.truncated_isOutcome hc).2.amount_nonneg

variable (hraw : (Rate.rawRate r.rate value.token.precision
  r.underlying.token.precision).Returns raw) (hvalue : 0 ≤ value.amount) (hrate : 0 ≤ raw.toRat)
include hraw hvalue hrate

/-- What a claim computes is the worth of the value at the record's rate, cut down, to the unit
next to it. -/
theorem ReserveRecord.Computes.near (h : r.Computes value n) :
    ∃ d, value.units.mul raw = .ok d ∧ n = ⌊d.toRat⌋ ∧
      ⌊value.amount * raw.toRat⌋ ≤ n ∧ n ≤ ⌈value.amount * raw.toRat⌉ := by
  obtain ⟨raw', d, c, hraw', hd, hc, rfl⟩ := h
  obtain rfl := hraw.unique hraw'
  have hunits : value.units.toRat = value.amount := Decimal.toRat_ofInt _
  have hpos : 0 ≤ value.units.toRat := Decimal.toRat_ofInt_nonneg hvalue
  have hrounds := Decimal.mul_rounds hd hpos hrate
  rw [hunits] at hrounds
  have hworth : 0 ≤ value.amount * raw.toRat := hunits ▸ mul_nonneg hpos hrate
  obtain ⟨htheoretical, hout⟩ := Conversion.truncated_isOutcome hc
  have hamount : c.amount = ⌊d.toRat⌋ := by
    rw [hout.amount_eq, htheoretical, Decimal.toRat_max, Decimal.toRat_zero,
      max_eq_left (hrounds.nonneg hworth)]
    rfl
  have hnear := hrounds.floor_near (hamount ▸ hout.amount_inRange)
  rw [← hamount] at hnear
  exact ⟨d, hd, hamount, hnear⟩

/-- A claim computes something if the product exists and is no more than the greatest amount. -/
theorem ReserveRecord.exists_computes_of_floor_le
    (hroom : value.amount * raw.toRat ≤ (Decimal.bound : ℚ) - 1)
    (hfloor : ∀ d, value.units.mul raw = .ok d → ⌊d.toRat⌋ ≤ Amount.greatest) :
    ∃ n, r.Computes value n := by
  have hpos : 0 ≤ value.units.toRat := Decimal.toRat_ofInt_nonneg hvalue
  obtain ⟨d, hd⟩ : ∃ d, value.units.mul raw = .ok d :=
    Decimal.exists_mul hpos hrate ((Decimal.toRat_ofInt value.amount).symm ▸ hroom)
  have hnonneg := (Decimal.mul_rounds hd hpos hrate).nonneg (mul_nonneg hpos hrate)
  obtain ⟨c, hc, -⟩ := Conversion.exists_truncated hnonneg
    (Ledger.inRange_of_nonneg (Int.floor_nonneg.2 hnonneg) (hfloor d hd))
  exact ⟨c.amount, raw, d, c, hraw, hd, hc, rfl⟩

/-- A claim computes something unless the worth is more than any amount. -/
theorem ReserveRecord.exists_computes (hworth : value.amount * raw.toRat ≤ Amount.greatest) :
    ∃ n, r.Computes value n := by
  have hbound : ((Amount.greatest : ℤ) : ℚ) ≤ (Decimal.bound : ℚ) - 1 := by
    have hint : Amount.greatest ≤ (Decimal.bound : ℤ) - 1 := by decide
    exact_mod_cast hint
  refine exists_computes_of_floor_le hraw hvalue hrate (hworth.trans hbound) fun d hd => ?_
  have hrounds := Decimal.mul_rounds hd (Decimal.toRat_ofInt_nonneg hvalue) hrate
  rw [Asset.units, Decimal.toRat_ofInt] at hrounds
  exact (Int.floor_le_ceil _).trans (hrounds.ceil_le (by decide) hworth)

end Computes

namespace Pool

variable {p : Pool} {l : Ledger} {owner : Account} {value : Asset}

/-- A claim is worth what is computed for it, if no more than that lies on the record. -/
theorem returns_owed {r : ReserveRecord} {n : Amount} :
    (p.owed value).Returns (r, n) ↔ 0 < value.amount ∧ p.record? value.token = some r ∧
      r.Computes value n ∧ n ≤ r.underlying.amount := by
  unfold owed ReserveRecord.Computes
  rcases p.record? value.token with _ | x
  · simp
  · simp only [returns_bind, returns_ite, not_returns_throw, false_and, exists_false, and_false,
      false_or, returns_adapt, returns_orOverflow, returns_pure, Prod.mk.injEq, not_le, gt_iff_lt,
      not_lt, Option.some.injEq]
    constructor
    · rintro ⟨hpos, n, ⟨raw, hraw, d, hd, c, hc, rfl⟩, hle, rfl, rfl⟩
      exact ⟨hpos, rfl, ⟨raw, d, c, hraw, hd, hc, rfl⟩, hle⟩
    · rintro ⟨hpos, rfl, ⟨raw, d, c, hraw, hd, hc, rfl⟩, hle⟩
      exact ⟨hpos, _, ⟨raw, hraw, d, hd, c, hc, rfl⟩, hle, rfl, rfl⟩

/-- A claim is refused for too little on the record where more is computed for it. -/
theorem fails_owed {t : Token} {held needed : Amount}
    (h : (p.owed value).Fails (.insufficientUnderlying t held needed)) :
    ∃ r, p.record? value.token = some r ∧ r.Computes value needed ∧
      r.underlying.amount < needed := by
  unfold owed at h
  rcases hr : p.record? value.token with _ | x
  · simp [hr] at h
  · simp only [hr, fails_bind, fails_ite, fails_throw, fails_adapt, reduceCtorEq, not_fails_pure,
      and_false, exists_false, false_or, or_false, returns_bind, not_returns_throw, false_and,
      returns_adapt, returns_orOverflow, returns_pure, gt_iff_lt,
      ReserveError.insufficientUnderlying.injEq] at h
    obtain ⟨-, _, ⟨raw, hraw, d, hd, c, hc, rfl⟩, hlt, -, -, rfl⟩ := h
    exact ⟨x, rfl, ⟨raw, d, c, hraw, hd, hc, rfl⟩, hlt⟩

theorem fails_owed_of_lt {r : ReserveRecord} {n : Amount} (hpos : 0 < value.amount)
    (hr : p.record? value.token = some r) (hcomputes : r.Computes value n)
    (hlt : r.underlying.amount < n) :
    (p.owed value).Fails (.insufficientUnderlying value.token r.underlying.amount n) := by
  obtain ⟨raw, d, c, hraw, hd, hc, rfl⟩ := hcomputes
  simp only [owed, hr, fails_bind, fails_ite, fails_throw, fails_adapt, returns_bind,
    returns_adapt, returns_orOverflow, returns_pure, gt_iff_lt, not_le]
  exact .inr ⟨hpos, .inr ⟨_, ⟨raw, hraw, d, hd, c, hc, rfl⟩, .inl ⟨hlt, .inl rfl⟩⟩⟩

/-! ## What a claim does -/

/-- The ways in which a claim of `value` by `owner` ends. -/
inductive Claims (p : Pool) (l : Ledger) (owner : Account) (value : Asset) :
    ClaimResult Pool → Prop
  | refused {e : ReserveError} (refuses : (p.owed value).Fails e) :
    Claims p l owner value ⟨.error e, l, p⟩
  | unburned {r : ReserveRecord} {n : Amount} {e : LedgerError}
    (owes : (p.owed value).Returns (r, n))
    (refuses : (l.retire owner value claimMemo).Fails e) :
    Claims p l owner value ⟨.error (.ledger e), l, p⟩
  /-- The tokens stay burned. -/
  | unpaid {r : ReserveRecord} {n : Amount} {burnt : Ledger} {e : LedgerError}
    (owes : (p.owed value).Returns (r, n))
    (burns : (l.retire owner value claimMemo).Returns burnt) (positive : 0 < n)
    (refuses : (burnt.transfer p.account owner (r.underlying.withAmount n) claimMemo).Fails e) :
    Claims p l owner value ⟨.error (.ledger e), burnt, p⟩
  | paid {r : ReserveRecord} {n : Amount} {burnt l' : Ledger}
    (owes : (p.owed value).Returns (r, n))
    (burns : (l.retire owner value claimMemo).Returns burnt) (positive : 0 < n)
    (pays : (burnt.transfer p.account owner (r.underlying.withAmount n) claimMemo).Returns l') :
    Claims p l owner value ⟨.ok (r.underlying.withAmount n), l', p.pay value.token r n⟩
  | worthless {r : ReserveRecord} {n : Amount} {burnt : Ledger}
    (owes : (p.owed value).Returns (r, n))
    (burns : (l.retire owner value claimMemo).Returns burnt) (nothing : ¬0 < n) :
    Claims p l owner value ⟨.ok (r.underlying.withAmount n), burnt, p.pay value.token r n⟩

theorem claim_eq_ok {c : ClaimResult Pool} :
    p.claim l owner value = .ok c ↔ p.Claims l owner value c := by
  unfold claim
  constructor
  · intro h
    obtain ⟨answer, howed, h⟩ := Abort.bind_eq_ok.1 h
    rcases answer with e | ⟨r, n⟩
    · cases h
      exact .refused howed
    obtain ⟨answer, hretire, h⟩ := Abort.bind_eq_ok.1 h
    rcases answer with e | burnt
    · cases h
      exact .unburned howed hretire
    dsimp only at h
    split at h
    · next hpositive =>
      obtain ⟨answer, hpaid, h⟩ := Abort.bind_eq_ok.1 h
      rcases answer with e | paid
      · cases h
        exact .unpaid howed hretire (Asset.isPositive_iff.1 hpositive) hpaid
      · cases h
        exact .paid howed hretire (Asset.isPositive_iff.1 hpositive) hpaid
    · next hpositive =>
      cases h
      exact .worthless howed hretire fun hpos => hpositive (Asset.isPositive_iff.2 hpos)
  · intro h
    cases h with
    | refused refuses => exact Abort.bind_eq_ok.2 ⟨_, refuses, rfl⟩
    | unburned owes refuses =>
      exact Abort.bind_eq_ok.2 ⟨_, owes, Abort.bind_eq_ok.2 ⟨_, refuses, rfl⟩⟩
    | unpaid owes burns positive refuses =>
      refine Abort.bind_eq_ok.2 ⟨_, owes, Abort.bind_eq_ok.2 ⟨_, burns, ?_⟩⟩
      dsimp only
      rw [if_pos (Asset.isPositive_iff.2 positive)]
      exact Abort.bind_eq_ok.2 ⟨_, refuses, rfl⟩
    | paid owes burns positive pays =>
      refine Abort.bind_eq_ok.2 ⟨_, owes, Abort.bind_eq_ok.2 ⟨_, burns, ?_⟩⟩
      dsimp only
      rw [if_pos (Asset.isPositive_iff.2 positive)]
      exact Abort.bind_eq_ok.2 ⟨_, pays, rfl⟩
    | worthless owes burns nothing =>
      refine Abort.bind_eq_ok.2 ⟨_, owes, Abort.bind_eq_ok.2 ⟨_, burns, ?_⟩⟩
      dsimp only
      rw [if_neg fun hpositive => nothing (Asset.isPositive_iff.1 hpositive)]
      rfl

theorem record?_pay {t u : Token} {r : ReserveRecord} {n : Amount} :
    (p.pay t r n).record? u = if u = t then some (r.less n) else p.record? u := by
  rw [record?, pay, Table.find?_insert]
  rfl

/-- What a claim answers: what is owed, or why nothing is, or that the ledger refused. -/
theorem Claims.payout {c : ClaimResult Pool} (h : p.Claims l owner value c) :
    (∃ e, c.payout = .error e ∧ ((p.owed value).Fails e ∨ ∃ e', e = .ledger e')) ∨
      ∃ r n, (p.owed value).Returns (r, n) ∧ c.payout = .ok (r.underlying.withAmount n) := by
  cases h with
  | refused refuses => exact .inl ⟨_, rfl, .inl refuses⟩
  | unburned => exact .inl ⟨_, rfl, .inr ⟨_, rfl⟩⟩
  | unpaid => exact .inl ⟨_, rfl, .inr ⟨_, rfl⟩⟩
  | paid owes => exact .inr ⟨_, _, owes, rfl⟩
  | worthless owes => exact .inr ⟨_, _, owes, rfl⟩

/-- Whatever becomes of a claim, it moves and burns through the ledger. -/
theorem Claims.moves {c : ClaimResult Pool} (h : p.Claims l owner value c) : l.Moves c.ledger := by
  cases h with
  | refused => exact .refl l
  | unburned => exact .refl l
  | unpaid _ burns => exact (Ledger.Moves.refl l).retire burns
  | paid _ burns _ pays => exact ((Ledger.Moves.refl l).retire burns).transfer pays
  | worthless _ burns => exact (Ledger.Moves.refl l).retire burns

/-- What a claim that paid `payout` from the record `r` has done: it burned the value, moved the
payout from the pool's account to the owner unless it was nothing, and took it off the record. -/
structure Redeems (p : Pool) (l : Ledger) (owner : Account) (value payout : Asset)
    (r : ReserveRecord) (burnt l' : Ledger) (p' : Pool) : Prop where
  record : p.record? value.token = some r
  token_eq : payout.token = r.underlying.token
  payout_nonneg : 0 ≤ payout.amount
  payout_le : payout.amount ≤ r.underlying.amount
  pool_eq : p' = p.pay value.token r payout.amount
  burns : (l.retire owner value claimMemo).Returns burnt
  pays : 0 < payout.amount → (burnt.transfer p.account owner payout claimMemo).Returns l'
  pays_nothing : payout.amount = 0 → l' = burnt

theorem Claims.redeems {c : ClaimResult Pool} {payout : Asset} (h : p.Claims l owner value c)
    (hpayout : c.payout = .ok payout) :
    ∃ r burnt, p.Redeems l owner value payout r burnt c.ledger c.reserve := by
  cases h with
  | refused => cases hpayout
  | unburned => cases hpayout
  | unpaid => cases hpayout
  | paid owes burns positive pays =>
    cases hpayout
    obtain ⟨-, hrecord, hcomputes, hle⟩ := returns_owed.1 owes
    exact ⟨_, _, hrecord, rfl, hcomputes.nonneg, hle, rfl, burns, fun _ => pays,
      fun hzero => absurd positive hzero.le.not_gt⟩
  | worthless owes burns nothing =>
    cases hpayout
    obtain ⟨-, hrecord, hcomputes, hle⟩ := returns_owed.1 owes
    exact ⟨_, _, hrecord, rfl, hcomputes.nonneg, hle, rfl, burns, fun hpos => absurd hpos nothing,
      fun _ => rfl⟩

end Pool

instance : LawfulReserve Pool := ⟨fun h => (Pool.claim_eq_ok.1 h).moves⟩

/-- A broker changes what is said of a claim, and nothing else. -/
instance : LawfulReserve BrokeredPool where
  moves_claim {b l owner value c} h := by
    obtain ⟨result, hresult, h⟩ := Abort.bind_eq_ok.1 h
    cases h
    exact (Pool.claim_eq_ok.1 hresult).moves

end BondingCurve
