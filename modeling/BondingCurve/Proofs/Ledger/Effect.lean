import BondingCurve.Proofs.Ledger.Consistency
import Mathlib.Algebra.Group.Pi.Basic
import Mathlib.Tactic.Ring

/-!
# The effect of an operation on a ledger

What an operation adds to balances and supplies does not depend on the ledger (`Ledger.Effect`),
and the effects of a sequence add up.
-/

namespace BondingCurve

open Outcome

/-- What `v` adds to the balances when it is put on the account `b`. -/
def Asset.on (v : Asset) (b : Account) : Account → Token → ℤ :=
  fun a t => if a = b ∧ t = v.token then v.amount else 0

/-- What `v` adds to the supplies when it is minted. -/
def Asset.inSupply (v : Asset) : TokenKey → ℤ := fun k => if k = v.token.key then v.amount else 0

namespace Asset

variable {v : Asset}

theorem on_self (v : Asset) (b : Account) : v.on b b v.token = v.amount := if_pos ⟨rfl, rfl⟩

/-- An account of another name gets nothing. -/
theorem on_of_ne {a b : Account} {t : Token} (h : a ≠ b) : v.on b a t = 0 := if_neg fun he => h he.1

theorem on_of_token_ne {a b : Account} {t : Token} (h : t ≠ v.token) : v.on b a t = 0 :=
  if_neg fun he => h he.2

theorem on_nonneg (h : 0 ≤ v.amount) (b a : Account) (t : Token) : 0 ≤ v.on b a t := by
  unfold on
  split
  · exact h
  · exact le_rfl

theorem on_eq_zero (h : v.amount = 0) (b : Account) : v.on b = 0 := by
  ext a t
  rw [on, h, ite_self]
  rfl

theorem on_neg (v : Asset) (b : Account) : on ⟨-v.amount, v.token⟩ b = -v.on b := by
  ext a t
  show (if _ then -v.amount else 0) = -(if a = b ∧ t = v.token then v.amount else 0)
  split
  · rfl
  · rfl

theorem inSupply_neg (v : Asset) : inSupply ⟨-v.amount, v.token⟩ = -v.inSupply := by
  ext k
  show (if _ then -v.amount else 0) = -(if k = v.token.key then v.amount else 0)
  split
  · rfl
  · rfl

end Asset

namespace Ledger

variable {l l' l'' : Ledger} {a b s r : Account} {t : Token} {v : Asset} {memo : String}

/-- One ledger differs from another by `δ` in its balances and by `σ` in its supplies. -/
structure Effect (l l' : Ledger) (δ : Account → Token → ℤ) (σ : TokenKey → ℤ) : Prop where
  balanceOf : ∀ a t, l'.balanceOf a t = l.balanceOf a t + δ a t
  registration? : ∀ t, l'.registration? t =
    (l.registration? t).map fun reg => { reg with supply := reg.supply + σ t.key }
  frozen : l'.frozen = l.frozen

/-- Doing nothing changes nothing. -/
theorem effect_refl (l : Ledger) : l.Effect l 0 0 := by
  refine ⟨?_, ?_, rfl⟩
  · intro a t
    exact (Int.add_zero _).symm
  · intro t
    rcases l.registration? t with _ | reg
    · rfl
    · simp

/-- The effects of two steps add up. -/
theorem Effect.trans {δ ε : Account → Token → ℤ} {σ τ : TokenKey → ℤ} (h : l.Effect l' δ σ)
    (h' : l'.Effect l'' ε τ) : l.Effect l'' (δ + ε) (σ + τ) := by
  refine ⟨?_, ?_, h'.frozen.trans h.frozen⟩
  · -- balances
    intro a t
    rw [h'.balanceOf, h.balanceOf, Int.add_assoc]
    rfl
  · -- supplies
    intro t
    rw [h'.registration?, h.registration?, Option.map_map]
    congr 1
    funext reg
    show ({ reg with supply := reg.supply + σ t.key + τ t.key } : Registration) = _
    rw [Int.add_assoc]
    rfl

/-- Where no supply changes, the ledger's tokens are the same. -/
theorem Effect.registration?_eq {δ : Account → Token → ℤ} (h : l.Effect l' δ 0) (t : Token) :
    l'.registration? t = l.registration? t :=
  (h.registration? t).trans ((effect_refl l).registration? t).symm

/-- A token that is registered stays so. -/
theorem Effect.registers {δ : Account → Token → ℤ} {σ : TokenKey → ℤ} (h : l.Effect l' δ σ) :
    l'.Registers t ↔ l.Registers t := by
  unfold Registers
  rw [h.registration? t]
  rcases l.registration? t with _ | reg
  · simp
  · simp

/-- No effect freezes anybody. -/
theorem Effect.isFrozen {δ : Account → Token → ℤ} {σ : TokenKey → ℤ} (h : l.Effect l' δ σ)
    (a : Account) : l'.isFrozen a = l.isFrozen a := by
  rw [Ledger.isFrozen, h.frozen, Ledger.isFrozen]

/-- A transfer gives the receiver what it takes from the sender, and no supply changes. -/
theorem transfer_effect (hl : (l.transfer s r v memo).Returns l') :
    l.Effect l' (v.on r - v.on s) 0 := by
  obtain ⟨-, -, rfl⟩ := returns_transfer.1 hl
  refine ⟨?_, ?_, rfl⟩
  · intro a t
    rw [balanceOf_transferred]
    show _ = l.balanceOf a t + (v.on r a t - v.on s a t)
    rw [Asset.on, Asset.on]
    ring
  · exact (effect_refl l).registration?

/-- A transfer leaves alone who neither sends nor receives. -/
theorem balanceOf_of_transfer (hs : a ≠ s) (hr : a ≠ r)
    (hl : (l.transfer s r v memo).Returns l') (t : Token) :
    l'.balanceOf a t = l.balanceOf a t := by
  rw [(transfer_effect hl).balanceOf, Pi.sub_apply, Pi.sub_apply, Asset.on_of_ne hr,
    Asset.on_of_ne hs, sub_zero, add_zero]

/-- What somebody else sent, the receiver has. -/
theorem Consistent.le_balanceOf_receiver (h : l.Consistent) (hne : r ≠ s)
    (hl : (l.transfer s r v memo).Returns l') : v.amount ≤ l'.balanceOf r v.token := by
  have hbalance := (transfer_effect hl).balanceOf r v.token
  simp only [Pi.sub_apply, Asset.on_self, Asset.on_of_ne hne, sub_zero] at hbalance
  have hbefore := h.balance_nonneg r v.token
  rw [hbalance]
  linarith

/-- Where a supply and one balance change alike. -/
theorem adjusted_effect {reg : Registration} {n : Amount}
    (hreg : l.registration? t = some reg) (ht : reg.token = t) (e : Entry) :
    l.Effect ((l.adjusted reg a t n).record e) (Asset.on ⟨n, t⟩ a) (Asset.inSupply ⟨n, t⟩) := by
  subst ht
  refine ⟨?_, ?_, rfl⟩
  · intro b u
    rw [balanceOf_record, balanceOf_adjusted]
    rfl
  · intro u
    rw [registration?_record, registration?_adjusted, Asset.inSupply]
    -- a registration is found by its key, whatever precision is asked for
    by_cases hu : u.key = reg.token.key
    · have hold : l.registration? u = some reg := by
        rw [Ledger.registration?, hu, ← Ledger.registration?, hreg]
      rw [if_pos hu, if_pos hu, hold]
      rfl
    · rw [if_neg hu, if_neg hu]
      exact (effect_refl l).registration? u

/-- An issue adds to one balance and to the supply alike. -/
theorem issue_effect (hl : (l.issue r v memo).Returns l') : l.Effect l' (v.on r) v.inSupply := by
  obtain ⟨reg, hcan, -, -, rfl⟩ := returns_issue.1 hl
  exact adjusted_effect hcan.registration hcan.token_eq _

/-- A retirement takes from one balance and from the supply alike. -/
theorem retire_effect (hl : (l.retire s v memo).Returns l') :
    l.Effect l' (-v.on s) (-v.inSupply) := by
  obtain ⟨reg, hcan, rfl⟩ := returns_retire.1 hl
  have heffect := adjusted_effect (a := s) (n := -v.amount) hcan.registration hcan.token_eq
    (.retire s v memo)
  rwa [Asset.on_neg, Asset.inSupply_neg] at heffect

/-- Tokens are issued to nobody else. -/
theorem balanceOf_of_issue (hr : a ≠ r) (hl : (l.issue r v memo).Returns l') (t : Token) :
    l'.balanceOf a t = l.balanceOf a t := by
  rw [(issue_effect hl).balanceOf, Asset.on_of_ne hr, add_zero]

/-- Nobody else's tokens are retired. -/
theorem balanceOf_of_retire (hs : a ≠ s) (hl : (l.retire s v memo).Returns l') (t : Token) :
    l'.balanceOf a t = l.balanceOf a t := by
  rw [(retire_effect hl).balanceOf, Pi.neg_apply, Pi.neg_apply, Asset.on_of_ne hs, neg_zero,
    add_zero]

end Ledger

end BondingCurve
