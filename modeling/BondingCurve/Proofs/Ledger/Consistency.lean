import BondingCurve.Proofs.Ledger.Operations
import BondingCurve.Proofs.Table
import Mathlib.Tactic.Linarith

/-!
# Consistency of a ledger

In a consistent ledger the balances of a token add up to its supply, no balance is negative, and
only registered tokens are held (`Ledger.Consistent`). Every operation keeps it. Two accounts
together then hold no more than the supply (`Consistent.add_le_greatest`), so a credit behind a
debit never leaves the amount range: in a consistent ledger `transfer` and `issue` succeed exactly
when their conditions hold.
-/

namespace BondingCurve

open Outcome

namespace Ledger

variable {l l' : Ledger} {a b s r : Account} {t u : Token} {v : Asset} {memo : String}

/-! ## What all accounts hold together -/

/-- All that is held of a token. -/
def held (l : Ledger) (t : Token) : ℤ := (l.balancesOf t).sum

/-- What a row adds to the holdings of `t`. -/
def partOf (t : Token) (h : Holding) (n : Amount) : ℤ := if h.token = t then n else 0

/-- What is held of a token is a sum over all balances, to which other tokens add nothing. -/
theorem held_eq_sum : l.held t = l.balances.sum (partOf t) := by
  rw [held, balancesOf, Table.sum]
  induction l.balances.rows with
  | nil => rfl
  | cons x rows ih =>
    by_cases h : x.1.token = t
    · simp [partOf, h, ih]
    · simp [partOf, h, ih]

/-- An account adds its balance to what is held of its token. -/
theorem share_partOf :
    l.balances.share (partOf u) ⟨a, t⟩ = if t = u then l.balanceOf a t else 0 := by
  rw [balanceOf]
  rcases h : l.balances.find? ⟨a, t⟩ with _ | n
  · simp [Table.share_of_find?_eq_none h]
  · simp [Table.share_of_find? h, partOf]

/-- Setting a balance moves what is held by as much. -/
theorem held_setBalance (n : Amount) :
    (l.setBalance a t n).held u = l.held u + if t = u then n - l.balanceOf a t else 0 := by
  rw [held_eq_sum, held_eq_sum, setBalance, Table.sum_insert, share_partOf, partOf]
  by_cases h : t = u
  · rw [if_pos h, if_pos h, if_pos h, add_sub_assoc]
  · rw [if_neg h, if_neg h, if_neg h, sub_zero]

/-- What the journal says adds to nothing that is held. -/
@[simp] theorem held_record (e : Entry) : (l.record e).held t = l.held t := rfl

@[simp] theorem held_setSupply (reg : Registration) (n : Amount) :
    (l.setSupply reg n).held t = l.held t := rfl

/-! ## Consistent ledgers -/

/-- What the rows of a ledger agree on. -/
structure Consistent (l : Ledger) : Prop where
  /-- A registration stands under the key of its token. -/
  key_eq : ∀ {t reg}, l.registration? t = some reg → reg.token.key = t.key
  held_eq : ∀ {t reg}, l.registration? t = some reg → reg.token = t → l.held t = reg.supply
  capped : ∀ {t reg}, l.registration? t = some reg → reg.supply ≤ reg.maxSupply
  cap_le : ∀ {t reg}, l.registration? t = some reg → reg.maxSupply ≤ Amount.greatest
  balance_nonneg : ∀ a t, 0 ≤ l.balanceOf a t
  /-- Only what is registered is held. -/
  registers : ∀ {a t}, l.balanceOf a t ≠ 0 → l.Registers t

/-- Where nothing was registered, nothing is held. -/
theorem consistent_empty : empty.Consistent where
  key_eq h := by cases h
  held_eq h := by cases h
  capped h := by cases h
  cap_le h := by cases h
  balance_nonneg _ _ := le_rfl
  registers h := absurd rfl h

/-- A single account holds no more than all accounts. -/
theorem balanceOf_le_held (h : ∀ b, 0 ≤ l.balanceOf b t) : l.balanceOf a t ≤ l.held t := by
  have hrows : ∀ k n, l.balances.find? k = some n → 0 ≤ partOf t k n := by
    intro k n hk
    unfold partOf
    split
    · next ht =>
      have hb := h k.owner
      rwa [balanceOf, ← ht, show (⟨k.owner, k.token⟩ : Holding) = k from rfl, hk] at hb
    · exact le_rfl
  rw [held_eq_sum]
  rcases hk : l.balances.find? ⟨a, t⟩ with _ | n
  · rw [balanceOf, hk]
    refine List.sum_nonneg fun m hm => ?_
    obtain ⟨r, hr, rfl⟩ := List.mem_map.1 hm
    exact hrows r.1 r.2 (Table.find?_eq_some_iff.2 hr)
  · have hle := Table.le_sum hrows hk
    rw [partOf, if_pos rfl] at hle
    rwa [balanceOf, hk]

/-- Two accounts hold no more than all accounts: with the one's balance gone, the other's is still
among the holdings. -/
theorem balanceOf_add_le_held (h : ∀ b, 0 ≤ l.balanceOf b t) (hne : a ≠ b) :
    l.balanceOf a t + l.balanceOf b t ≤ l.held t := by
  have hrest : ∀ c, 0 ≤ (l.setBalance a t 0).balanceOf c t := by
    intro c
    rw [balanceOf_setBalance]
    split
    · exact le_rfl
    · exact h c
  have hle := balanceOf_le_held (a := b) hrest
  rw [balanceOf_setBalance, if_neg fun hb => hne hb.1.symm, held_setBalance, if_pos rfl] at hle
  linarith

namespace Consistent

/-- Nobody has more of a token than there is. -/
theorem balanceOf_le_supply {reg : Registration} (h : l.Consistent)
    (hreg : l.registration? t = some reg) (ht : reg.token = t) : l.balanceOf a t ≤ reg.supply :=
  h.held_eq hreg ht ▸ balanceOf_le_held fun b => h.balance_nonneg b t

/-- No supply is negative. -/
theorem supply_nonneg {reg : Registration} (h : l.Consistent)
    (hreg : l.registration? t = some reg) : 0 ≤ reg.supply := by
  have hself : l.registration? reg.token = some reg := by
    rw [registration?, h.key_eq hreg]
    exact hreg
  exact (h.balance_nonneg ⟨""⟩ reg.token).trans (h.balanceOf_le_supply hself rfl)

/-- A supply is an amount, since its cap is one. -/
theorem supply_le_greatest {reg : Registration} (h : l.Consistent)
    (hreg : l.registration? t = some reg) : reg.supply ≤ Amount.greatest :=
  (h.capped hreg).trans (h.cap_le hreg)

/-- Two accounts never hold more than the greatest amount together. -/
theorem add_le_greatest (h : l.Consistent) (hne : a ≠ b) :
    l.balanceOf a t + l.balanceOf b t ≤ Amount.greatest := by
  by_cases hreg : l.Registers t
  · obtain ⟨reg, hreg, ht⟩ := hreg
    have hheld := balanceOf_add_le_held (fun c => h.balance_nonneg c t) hne
    rw [h.held_eq hreg ht] at hheld
    exact hheld.trans (h.supply_le_greatest hreg)
  · have hzero : ∀ c, l.balanceOf c t = 0 := fun c => not_not.1 fun hc => hreg (h.registers hc)
    rw [hzero, hzero]
    decide

/-- So is every balance, registered or not. -/
theorem balanceOf_le_greatest (h : l.Consistent) : l.balanceOf a t ≤ Amount.greatest := by
  by_cases hreg : l.Registers t
  · obtain ⟨reg, hreg, ht⟩ := hreg
    exact (h.balanceOf_le_supply hreg ht).trans (h.supply_le_greatest hreg)
  · have hzero : l.balanceOf a t = 0 := not_not.1 fun hc => hreg (h.registers hc)
    rw [hzero]
    decide

end Consistent

/-! ## Operations on a consistent ledger -/

/-- Of a number that is not negative only the upper end has to be looked at. -/
theorem inRange_of_nonneg {n : Amount} (h0 : 0 ≤ n) (h : n ≤ Amount.greatest) :
    Amount.InRange n :=
  ⟨le_trans (by decide) h0, h⟩

/-- On a consistent ledger the conditions alone decide, since no balance outgrows its supply. -/
theorem Consistent.returns_transfer (h : l.Consistent) :
    (l.transfer s r v memo).Returns l' ↔ l.CanTransfer s r v ∧ l' = l.transferred s r v memo := by
  rw [Ledger.returns_transfer]
  refine and_congr_right fun hcan => and_iff_right ?_
  have hpos := hcan.amount_pos
  have hcovered := hcan.covered
  have hr := h.balance_nonneg r v.token
  rw [balanceOf_setBalance]
  by_cases hrs : r = s
  · subst hrs
    have hle := h.balanceOf_le_greatest (a := r) (t := v.token)
    rw [if_pos ⟨rfl, rfl⟩]
    exact inRange_of_nonneg (by linarith) (by linarith)
  · have hsum := h.add_le_greatest (t := v.token) hrs
    rw [if_neg fun hb => hrs hb.1]
    exact inRange_of_nonneg (by linarith) (by linarith)

/-- A transfer that is possible succeeds, whatever its memo. -/
theorem Consistent.exists_transfer (h : l.Consistent) (memo : String)
    (hcan : l.CanTransfer s r v) : ∃ l', (l.transfer s r v memo).Returns l' :=
  ⟨_, h.returns_transfer.2 ⟨hcan, rfl⟩⟩

/-- A retirement that is possible succeeds, on any ledger. -/
theorem exists_retire {reg : Registration} (memo : String) (hcan : l.CanRetire reg s v) :
    ∃ l', (l.retire s v memo).Returns l' :=
  ⟨_, returns_retire.2 ⟨reg, hcan, rfl⟩⟩

/-- On a consistent ledger the cap keeps the supply and the balance in range. -/
theorem Consistent.returns_issue (h : l.Consistent) :
    (l.issue r v memo).Returns l' ↔
      ∃ reg, l.CanIssue reg r v ∧ l' = l.issued reg r v memo := by
  rw [Ledger.returns_issue]
  refine exists_congr fun reg => and_congr_right fun hcan => ?_
  have hpos := hcan.amount_pos
  have hcapped := hcan.capped
  have hcap := h.cap_le hcan.registration
  have hsupply := h.supply_nonneg hcan.registration
  have hbalance := h.balanceOf_le_supply (a := r) hcan.registration hcan.token_eq
  have hr := h.balance_nonneg r v.token
  have hrange : Amount.InRange (reg.supply + v.amount) :=
    inRange_of_nonneg (by linarith) (by linarith)
  have hcredit : Amount.InRange (l.balanceOf r v.token + v.amount) :=
    inRange_of_nonneg (by linarith) (by linarith)
  exact ⟨fun ⟨_, _, hl⟩ => hl, fun hl => ⟨hrange, hcredit, hl⟩⟩

/-! ## Consistency is kept -/

/-- A transfer leaves all that is held, since it takes as much as it gives. -/
theorem held_transferred : (l.transferred s r v memo).held t = l.held t := by
  unfold transferred
  rw [held_record, held_setBalance, held_setBalance]
  split
  · linarith
  · linarith

/-- An adjustment moves what is held of its token and of no other. -/
theorem held_adjusted {reg : Registration} {n : Amount} :
    (l.adjusted reg a t n).held u = l.held u + if t = u then n else 0 := by
  rw [adjusted, held_setBalance, held_setSupply, balanceOf_setSupply, add_sub_cancel_left]

/-- A transfer keeps a ledger consistent. -/
theorem Consistent.transferred (h : l.Consistent) (hcan : l.CanTransfer s r v) :
    (l.transferred s r v memo).Consistent where
  key_eq hreg := h.key_eq hreg
  held_eq hreg ht := held_transferred.trans (h.held_eq hreg ht)
  capped hreg := h.capped hreg
  cap_le hreg := h.cap_le hreg
  balance_nonneg a t := by
    have ha := h.balance_nonneg a t
    have hpos := hcan.amount_pos
    have hcovered := hcan.covered
    rw [balanceOf_transferred]
    by_cases hs : a = s ∧ t = v.token
    · obtain ⟨rfl, rfl⟩ := hs
      rw [if_pos ⟨rfl, rfl⟩]
      split <;> linarith
    · rw [if_neg hs]
      split <;> linarith
  registers {a t} hne := by
    by_cases ht : t = v.token
    · exact ht ▸ hcan.registers
    · apply h.registers (a := a) (t := t)
      simpa [balanceOf_transferred, ht] using hne

/-- A change of the supply that one balance follows. -/
theorem Consistent.adjusted {reg : Registration} {n : Amount} (h : l.Consistent)
    (hreg : l.registration? t = some reg) (ht : reg.token = t)
    (hcapped : reg.supply + n ≤ reg.maxSupply) (hnonneg : 0 ≤ l.balanceOf a t + n) :
    (l.adjusted reg a t n).Consistent := by
  subst ht
  refine ⟨?_, ?_, ?_, ?_, ?_, ?_⟩
  · intro u reg' hu
    rw [registration?_adjusted] at hu
    split at hu
    · next hkey =>
      cases hu
      exact hkey.symm
    · exact h.key_eq hu
  · intro u reg' hu hreg'
    rw [registration?_adjusted] at hu
    rw [held_adjusted]
    split at hu
    · cases hu
      rw [if_pos hreg', ← hreg', h.held_eq hreg rfl]
    · next hkey =>
      rw [if_neg fun hu => hkey (by rw [hu]), add_zero]
      exact h.held_eq hu hreg'
  · intro u reg' hu
    rw [registration?_adjusted] at hu
    split at hu
    · cases hu
      exact hcapped
    · exact h.capped hu
  · intro u reg' hu
    rw [registration?_adjusted] at hu
    split at hu
    · cases hu
      show reg.maxSupply ≤ Amount.greatest
      exact h.cap_le hreg
    · exact h.cap_le hu
  · intro b u
    rw [balanceOf_adjusted]
    split
    · next hb =>
      obtain ⟨rfl, rfl⟩ := hb
      exact hnonneg
    · rw [add_zero]
      exact h.balance_nonneg b u
  · intro b u hne
    rw [registers_adjusted hreg]
    by_cases hb : b = a ∧ u = reg.token
    · exact ⟨reg, by rw [hb.2, hreg], hb.2.symm⟩
    · rw [balanceOf_adjusted, if_neg hb, add_zero] at hne
      exact h.registers hne

/-- So does every entry in the journal. -/
theorem Consistent.record (h : l.Consistent) (e : Entry) : (l.record e).Consistent :=
  ⟨h.key_eq, h.held_eq, h.capped, h.cap_le, h.balance_nonneg, h.registers⟩

/-- Issued tokens are held by somebody, and below the cap. -/
theorem Consistent.issued {reg : Registration} (h : l.Consistent) (hcan : l.CanIssue reg r v) :
    (l.issued reg r v memo).Consistent := by
  refine (h.adjusted hcan.registration hcan.token_eq hcan.capped ?_).record _
  have hr := h.balance_nonneg r v.token
  have hpos := hcan.amount_pos
  linarith

/-- Retired tokens were held by somebody, so no balance goes below zero. -/
theorem Consistent.retired {reg : Registration} (h : l.Consistent) (hcan : l.CanRetire reg s v) :
    (l.retired reg s v memo).Consistent := by
  have hpos := hcan.amount_pos
  have hcovered := hcan.covered
  have hcapped := h.capped hcan.registration
  exact (h.adjusted hcan.registration hcan.token_eq (by linarith) (by linarith)).record _

/-- A new token has neither supply nor holders: whoever held it would have had it registered. -/
theorem Consistent.created {n : Amount} (h : l.Consistent) (hnew : l.registration? t = none)
    (h0 : 0 ≤ n) (hn : n ≤ Amount.greatest) : (l.created t n).Consistent where
  key_eq {u reg} hu := by
    rw [registration?_created] at hu
    split at hu
    · next hkey =>
      cases hu
      exact hkey.symm
    · exact h.key_eq hu
  held_eq {u reg} hu hreg := by
    rw [registration?_created] at hu
    split at hu
    · cases hu
      subst hreg
      refine (held_eq_sum (l := l)).trans (Table.sum_eq_zero fun k m hk => ?_)
      unfold partOf
      split
      · next hkt =>
        by_contra hm
        have hbalance : l.balanceOf k.owner k.token = m := by rw [balanceOf, hk]; rfl
        obtain ⟨reg, hreg, -⟩ := h.registers (hbalance.trans_ne hm)
        rw [hkt, hnew] at hreg
        cases hreg
      · rfl
    · exact h.held_eq hu hreg
  capped {u reg} hu := by
    rw [registration?_created] at hu
    split at hu
    · cases hu
      exact h0
    · exact h.capped hu
  cap_le {u reg} hu := by
    rw [registration?_created] at hu
    split at hu
    · cases hu
      exact hn
    · exact h.cap_le hu
  balance_nonneg := h.balance_nonneg
  registers {a u} hne := by
    obtain ⟨reg, hreg, hu⟩ := h.registers hne
    refine ⟨reg, ?_, hu⟩
    rw [registration?_created, if_neg, hreg]
    intro hkey
    rw [registration?, hkey, ← registration?, hnew] at hreg
    cases hreg

/-- Freezing an account says nothing of balances and supplies. -/
theorem Consistent.freeze (h : l.Consistent) : (l.freeze a).Consistent := by
  unfold Ledger.freeze
  split
  · exact h
  · exact ⟨h.key_eq, h.held_eq, h.capped, h.cap_le, h.balance_nonneg, h.registers⟩

theorem Consistent.unfreeze (h : l.Consistent) : (l.unfreeze a).Consistent :=
  ⟨h.key_eq, h.held_eq, h.capped, h.cap_le, h.balance_nonneg, h.registers⟩

/-- A transfer that returns has kept the ledger consistent. -/
theorem Consistent.transfer (h : l.Consistent) (hl : (l.transfer s r v memo).Returns l') :
    l'.Consistent := by
  obtain ⟨hcan, rfl⟩ := h.returns_transfer.1 hl
  exact h.transferred hcan

/-- An issue that returns has kept the ledger consistent. -/
theorem Consistent.issue (h : l.Consistent) (hl : (l.issue r v memo).Returns l') :
    l'.Consistent := by
  obtain ⟨reg, hcan, rfl⟩ := h.returns_issue.1 hl
  exact h.issued hcan

/-- A retirement that returns has kept the ledger consistent. -/
theorem Consistent.retire (h : l.Consistent) (hl : (l.retire s v memo).Returns l') :
    l'.Consistent := by
  obtain ⟨reg, hcan, rfl⟩ := returns_retire.1 hl
  exact h.retired hcan

/-! ## Calls -/

/-- An operation with its arguments. -/
inductive Call where
  | createToken (t : Token) (maxSupply : Amount)
  | freeze (a : Account)
  | unfreeze (a : Account)
  | transfer (sender receiver : Account) (value : Asset) (memo : String)
  | issue (receiver : Account) (value : Asset) (memo : String)
  | retire (sender : Account) (value : Asset) (memo : String)

/-- A cap is an amount. All other numbers are compared with the ledger's before they count. -/
def Call.InRange : Call → Prop
  | .createToken _ n => Amount.InRange n
  | .freeze _ | .unfreeze _ | .transfer .. | .issue .. | .retire .. => True

instance : (c : Call) → Decidable c.InRange
  | .createToken _ n => inferInstanceAs (Decidable (Amount.InRange n))
  | .freeze _ | .unfreeze _ | .transfer .. | .issue .. | .retire .. => .isTrue trivial

/-- What a call gives. -/
def call (l : Ledger) : Call → Outcome LedgerError Ledger
  | .createToken t n => l.createToken t n
  | .freeze a => pure (l.freeze a)
  | .unfreeze a => pure (l.unfreeze a)
  | .transfer s r v memo => l.transfer s r v memo
  | .issue r v memo => l.issue r v memo
  | .retire s v memo => l.retire s v memo

/-- Every operation that returns keeps a ledger consistent, for caps that are amounts. -/
theorem Consistent.call {c : Call} (h : l.Consistent) (hc : c.InRange)
    (hl : (l.call c).Returns l') : l'.Consistent := by
  cases c with
  | createToken t n =>
    obtain ⟨hpos, hnew, rfl⟩ := returns_createToken.1 hl
    exact h.created hnew (le_of_lt hpos) hc.2
  | freeze a => exact returns_pure.1 hl ▸ h.freeze
  | unfreeze a => exact returns_pure.1 hl ▸ h.unfreeze
  | transfer s r v memo => exact h.transfer hl
  | issue r v memo => exact h.issue hl
  | retire s v memo => exact h.retire hl

/-- The operations that move tokens. A party that is handed a ledger can do these and no others. -/
def Call.IsMovement : Call → Prop
  | .createToken .. | .freeze _ | .unfreeze _ => False
  | .transfer .. | .issue .. | .retire .. => True

/-- One ledger leads to another by movements. -/
inductive Moves : Ledger → Ledger → Prop
  | refl (l : Ledger) : Moves l l
  | step {l l' l'' : Ledger} {c : Call} (h : Moves l l') (hc : c.IsMovement)
      (hl : (l'.call c).Returns l'') : Moves l l''

theorem Moves.transfer {l₀ : Ledger} (h₀ : l₀.Moves l)
    (h : (l.transfer s r v memo).Returns l') : l₀.Moves l' :=
  .step h₀ (c := .transfer s r v memo) trivial h

theorem Moves.issue {l₀ : Ledger} (h₀ : l₀.Moves l) (h : (l.issue r v memo).Returns l') :
    l₀.Moves l' :=
  .step h₀ (c := .issue r v memo) trivial h

theorem Moves.retire {l₀ : Ledger} (h₀ : l₀.Moves l) (h : (l.retire s v memo).Returns l') :
    l₀.Moves l' :=
  .step h₀ (c := .retire s v memo) trivial h

/-- Movements after movements are movements. -/
theorem Moves.trans {l₀ : Ledger} (h₀ : l₀.Moves l) (h : l.Moves l') : l₀.Moves l' := by
  induction h with
  | refl => exact h₀
  | step _ hc hl ih => exact .step ih hc hl

/-- A movement names no cap, so nothing in it is out of range. -/
theorem Call.IsMovement.inRange {c : Call} (hc : c.IsMovement) : c.InRange := by
  cases c <;> trivial

/-- Movements keep a ledger consistent. -/
theorem Consistent.moves (h : l.Consistent) (hl : Moves l l') : l'.Consistent := by
  induction hl with
  | refl => exact h
  | step _ hc hl ih => exact ih.call hc.inRange hl

end Ledger
end BondingCurve
