import BondingCurve.Proofs.Ledger.Effect

/-!
# Registrations are for good

A token that a ledger registers exactly stays so, whatever is called. Movements of tokens register
nothing either (`Moves.registers`). An operation on such a token can fail for many reasons; that the
precision is a different one is none of them (`not_registers_of_fails`).
-/

namespace BondingCurve

open Outcome

namespace Ledger

variable {l l' : Ledger} {t : Token} {c : Call}

/-- No operation changes which token is registered under a key. -/
theorem Registers.call (h : l.Registers t) (hl : (l.call c).Returns l') : l'.Registers t := by
  cases c with
  | createToken u n =>
    obtain ⟨-, hnew, rfl⟩ := returns_createToken.1 hl
    obtain ⟨reg, hreg, htoken⟩ := h
    refine ⟨reg, ?_, htoken⟩
    -- the key of a new token is another one
    have hkey : t.key ≠ u.key := by
      intro hkey
      rw [registration?, hkey, ← registration?, hnew] at hreg
      cases hreg
    rw [registration?_created, if_neg hkey, hreg]
  | freeze a =>
    rw [← returns_pure.1 hl, Registers]
    simp only [registration?_freeze]
    exact h
  | unfreeze a =>
    rw [← returns_pure.1 hl]
    exact h
  | transfer s r v memo => exact (transfer_effect hl).registers.2 h
  | issue r v memo => exact (issue_effect hl).registers.2 h
  | retire s v memo => exact (retire_effect hl).registers.2 h

theorem Moves.registers (h : l.Moves l') : l'.Registers t ↔ l.Registers t := by
  induction h with
  | refl => exact Iff.rfl
  | @step l₁ l₂ c _ hc hl ih =>
    refine Iff.trans ?_ ih
    cases c with
    | createToken | freeze | unfreeze => exact hc.elim
    | transfer s r v memo => exact (transfer_effect hl).registers
    | issue r v memo => exact (issue_effect hl).registers
    | retire s v memo => exact (retire_effect hl).registers

/-! ## The wrong precision -/

section Mismatch

variable {a s r : Account} {v : Asset} {memo : String} {expected : Token}

/-- The precision is found to be wrong where the key is that of another token. -/
theorem fails_checkToken_mismatch :
    (l.checkToken v).Fails (.symbolMismatch expected t) ↔
      0 < v.amount ∧ t = v.token ∧ expected ≠ t ∧
        ∃ reg, l.registration? v.token = some reg ∧ reg.token = expected := by
  unfold checkToken
  rcases l.registration? v.token with _ | reg
  · simp
  · simp only [fails_ite, fails_bind, fails_throw, not_returns_throw, not_fails_pure,
      reduceCtorEq, LedgerError.symbolMismatch.injEq, false_and, and_false, exists_false, or_false,
      false_or, Int.not_le, Option.some.injEq]
    constructor
    · intro h
      obtain ⟨hpos, hne, rfl, rfl⟩ := h
      exact ⟨hpos, rfl, hne, reg, rfl, rfl⟩
    · intro h
      obtain ⟨hpos, rfl, hne, _, rfl, rfl⟩ := h
      exact ⟨hpos, hne, rfl, rfl⟩

theorem not_fails_checkActive_mismatch :
    ¬(l.checkActive a).Fails (.symbolMismatch expected t) := by
  simp [checkActive]

theorem not_fails_debit_mismatch : ¬(l.debit a v).Fails (.symbolMismatch expected t) := by
  simp [debit]

/-- An operation that finds another precision was on a token that is not registered exactly. -/
theorem not_registers_of_fails (h : (l.call c).Fails (.symbolMismatch expected t)) :
    ¬l.Registers t := by
  have hchecked : ∃ v, (l.checkToken v).Fails (.symbolMismatch expected t) := by
    cases c with
    | createToken u n => simp [call, createToken] at h
    | freeze a => simp [call] at h
    | unfreeze a => simp [call] at h
    | transfer s r v memo =>
      simp only [call, transfer, fails_bind, not_fails_checkActive_mismatch,
        not_fails_debit_mismatch, not_fails_lift, not_fails_pure, and_false, exists_false,
        or_false] at h
      exact ⟨v, h⟩
    | issue r v memo =>
      simp only [call, issue, fails_bind, fails_ite, fails_throw, reduceCtorEq,
        not_fails_checkActive_mismatch, not_fails_lift, not_fails_pure, and_false, exists_false,
        or_false] at h
      exact ⟨v, h⟩
    | retire s v memo =>
      simp only [call, retire, fails_bind, not_fails_checkActive_mismatch,
        not_fails_debit_mismatch, not_fails_pure, and_false, exists_false, or_false] at h
      exact ⟨v, h⟩
  obtain ⟨v, hv⟩ := hchecked
  obtain ⟨-, rfl, hne, reg, hreg, rfl⟩ := fails_checkToken_mismatch.1 hv
  rintro ⟨reg', hreg', htoken⟩
  obtain rfl : reg = reg' := Option.some.inj (hreg.symm.trans hreg')
  exact hne htoken

/-- On a ledger that movements lead to, an operation fails with `e`. -/
def Raises (l : Ledger) (e : LedgerError) : Prop :=
  ∃ l' c, l.Moves l' ∧ (l'.call c).Fails e

theorem Moves.raises {e : LedgerError} (h : l.Moves l') (hraises : l'.Raises e) : l.Raises e := by
  obtain ⟨l'', c, hmoves, hfails⟩ := hraises
  exact ⟨l'', c, h.trans hmoves, hfails⟩

/-- Movements of any kind, of whatever is registered, never find another precision than that. -/
theorem Registers.not_raises (h : l.Registers t) : ¬l.Raises (.symbolMismatch expected t) := by
  rintro ⟨l', c, hmoves, hfails⟩
  exact not_registers_of_fails hfails (hmoves.registers.2 h)

end Mismatch

end Ledger
end BondingCurve
