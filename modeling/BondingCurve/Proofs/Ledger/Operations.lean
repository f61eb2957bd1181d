import BondingCurve.Ledger
import BondingCurve.Proofs.Outcome

/-!
# What the ledger's operations do

Each operation succeeds under conditions that are listed in one structure (`CanTransfer`,
`CanIssue`, `CanRetire`) and then gives one explicit ledger (`transferred`, `issued`, `retired`).
The `returns_` lemmas say both at once. What the explicit ledgers hold is read off by
`balanceOf_`, `registration?_` and simp lemmas; nothing after this module opens an operation.
-/

namespace BondingCurve

open Outcome

namespace Ledger

variable {l l' : Ledger} {a b s r : Account} {t u : Token} {v : Asset} {memo : String}

/-- The ledger knows the token, precision and all. -/
def Registers (l : Ledger) (t : Token) : Prop := ∃ reg, l.registration? t = some reg ∧ reg.token = t

/-! ## Single balances -/

/-- The ledger with another balance of `t` for `a`. -/
def setBalance (l : Ledger) (a : Account) (t : Token) (n : Amount) : Ledger :=
  { l with balances := l.balances.insert ⟨a, t⟩ n }

/-- A balance is no part of the register. -/
@[simp] theorem tokens_setBalance (n : Amount) : (l.setBalance a t n).tokens = l.tokens := rfl

@[simp] theorem frozen_setBalance (n : Amount) : (l.setBalance a t n).frozen = l.frozen := rfl

@[simp] theorem journal_setBalance (n : Amount) : (l.setBalance a t n).journal = l.journal := rfl

/-- Setting one balance changes that one only. -/
theorem balanceOf_setBalance (n : Amount) :
    (l.setBalance a t n).balanceOf b u = if b = a ∧ u = t then n else l.balanceOf b u := by
  rw [balanceOf, setBalance, Table.find?_insert]
  by_cases h : b = a ∧ u = t
  · obtain ⟨rfl, rfl⟩ := h
    simp
  · have hne : (⟨b, u⟩ : Holding) ≠ ⟨a, t⟩ := by
      intro heq
      cases heq
      exact h ⟨rfl, rfl⟩
    rw [if_neg hne, if_neg h]
    rfl

@[simp] theorem tokens_record (e : Entry) : (l.record e).tokens = l.tokens := rfl

@[simp] theorem frozen_record (e : Entry) : (l.record e).frozen = l.frozen := rfl

/-- An entry goes behind all others. -/
@[simp] theorem journal_record (e : Entry) : (l.record e).journal = l.journal ++ [e] := rfl

@[simp] theorem balances_record (e : Entry) : (l.record e).balances = l.balances := rfl

/-- What the journal says moves nothing. -/
@[simp] theorem balanceOf_record (e : Entry) : (l.record e).balanceOf a t = l.balanceOf a t := rfl

@[simp] theorem registration?_record (e : Entry) :
    (l.record e).registration? t = l.registration? t := rfl

@[simp] theorem registration?_setBalance (n : Amount) :
    (l.setBalance a t n).registration? u = l.registration? u := rfl

/-! ## Supplies -/

@[simp] theorem balances_setSupply (reg : Registration) (n : Amount) :
    (l.setSupply reg n).balances = l.balances := rfl

@[simp] theorem frozen_setSupply (reg : Registration) (n : Amount) :
    (l.setSupply reg n).frozen = l.frozen := rfl

@[simp] theorem journal_setSupply (reg : Registration) (n : Amount) :
    (l.setSupply reg n).journal = l.journal := rfl

@[simp] theorem balanceOf_setSupply (reg : Registration) (n : Amount) :
    (l.setSupply reg n).balanceOf a t = l.balanceOf a t := rfl

/-- A supply is written under the key of its token, for every precision that is asked for. -/
theorem registration?_setSupply (reg : Registration) (n : Amount) :
    (l.setSupply reg n).registration? t =
      if t.key = reg.token.key then some { reg with supply := n } else l.registration? t := by
  rw [registration?, setSupply, Table.find?_insert]
  rfl

/-! ## Checks -/

/-- The supply of a registered token is told, and with it the token as it is registered. -/
theorem returns_supply {a : Asset} :
    (l.supply t).Returns a ↔ ∃ reg, l.registration? t = some reg ∧ a = ⟨reg.supply, reg.token⟩ := by
  unfold supply
  rcases l.registration? t with _ | reg
  · simp
  · simp [eq_comm]

/-- A value can be moved when it is positive and its token is registered just so. -/
theorem returns_checkToken {reg : Registration} :
    (l.checkToken v).Returns reg ↔
      0 < v.amount ∧ l.registration? v.token = some reg ∧ reg.token = v.token := by
  unfold checkToken
  rcases h : l.registration? v.token with _ | x
  · simp
  · simp only [returns_ite, returns_bind, not_returns_throw, returns_pure, false_and,
      exists_false, and_false, false_or, Option.some.injEq, Int.not_le, ne_eq, Decidable.not_not]
    constructor
    · intro h
      obtain ⟨hpos, htoken, rfl⟩ := h
      exact ⟨hpos, rfl, htoken⟩
    · intro h
      obtain ⟨hpos, rfl, htoken⟩ := h
      exact ⟨hpos, htoken, rfl⟩

/-- An account passes when it is not frozen. -/
theorem returns_checkActive {x : Unit} : (l.checkActive a).Returns x ↔ l.isFrozen a = false := by
  simp [checkActive]

/-- A debit succeeds where the balance covers it. -/
theorem returns_debit :
    (l.debit a v).Returns l' ↔
      v.amount ≤ l.balanceOf a v.token ∧
        l' = l.setBalance a v.token (l.balanceOf a v.token - v.amount) := by
  simp [debit, setBalance, eq_comm]

/-- A debit fails only where the balance is too small, and says by how much. -/
theorem fails_debit {e : LedgerError} :
    (l.debit s v).Fails e ↔ l.balanceOf s v.token < v.amount ∧
      e = .insufficientBalance s (l.balanceOf s v.token) v.amount := by
  simp [debit, eq_comm]

/-- A credit returns where the new balance is an amount, and aborts elsewhere. -/
theorem credit_eq_ok :
    l.credit a v = .ok l' ↔
      Amount.InRange (l.balanceOf a v.token + v.amount) ∧
        l' = l.setBalance a v.token (l.balanceOf a v.token + v.amount) := by
  simp only [credit, Abort.bind_eq_ok, Amount.add_eq_ok_iff, Abort.pure_eq_ok]
  constructor
  · intro h
    obtain ⟨n, ⟨hrange, rfl⟩, rfl⟩ := h
    exact ⟨hrange, rfl⟩
  · intro h
    obtain ⟨hrange, rfl⟩ := h
    exact ⟨_, ⟨hrange, rfl⟩, rfl⟩

/-! ## Transfers -/

/-- What a transfer of `v` from `s` to `r` needs. -/
structure CanTransfer (l : Ledger) (s r : Account) (v : Asset) : Prop where
  amount_pos : 0 < v.amount
  registers : l.Registers v.token
  sender_active : l.isFrozen s = false
  receiver_active : l.isFrozen r = false
  covered : v.amount ≤ l.balanceOf s v.token

/-- The ledger after a transfer: a debit, and a credit on top of it. -/
def transferred (l : Ledger) (s r : Account) (v : Asset) (memo : String) : Ledger :=
  let l := l.setBalance s v.token (l.balanceOf s v.token - v.amount)
  (l.setBalance r v.token (l.balanceOf r v.token + v.amount)).record (.transfer s r v memo)

@[simp] theorem tokens_transferred : (l.transferred s r v memo).tokens = l.tokens := rfl

@[simp] theorem frozen_transferred : (l.transferred s r v memo).frozen = l.frozen := rfl

@[simp] theorem registration?_transferred :
    (l.transferred s r v memo).registration? t = l.registration? t := rfl

/-- The sender loses what the receiver gets; an account that is both keeps its balance. -/
theorem balanceOf_transferred :
    (l.transferred s r v memo).balanceOf a t =
      l.balanceOf a t - (if a = s ∧ t = v.token then v.amount else 0) +
        (if a = r ∧ t = v.token then v.amount else 0) := by
  unfold transferred
  rw [balanceOf_record, balanceOf_setBalance, balanceOf_setBalance, balanceOf_setBalance]
  by_cases ht : t = v.token
  · subst ht
    by_cases hs : a = s <;> by_cases hr : a = r <;> grind
  · simp [ht]

/-- A transfer succeeds under its conditions, provided that the receiver's balance stays an amount.
-/
theorem returns_transfer :
    (l.transfer s r v memo).Returns l' ↔
      l.CanTransfer s r v ∧
        Amount.InRange ((l.setBalance s v.token (l.balanceOf s v.token - v.amount)).balanceOf r
          v.token + v.amount) ∧
        l' = l.transferred s r v memo := by
  simp only [transfer, returns_bind, returns_checkToken, returns_checkActive, returns_debit,
    returns_lift, credit_eq_ok, returns_pure]
  constructor
  · intro h
    obtain ⟨reg, ⟨hpos, hreg, htoken⟩, -, hs, -, hr, _, ⟨hcov, rfl⟩, _, ⟨hrange, rfl⟩, rfl⟩ := h
    exact ⟨⟨hpos, ⟨reg, hreg, htoken⟩, hs, hr, hcov⟩, hrange, rfl⟩
  · intro h
    obtain ⟨⟨hpos, ⟨reg, hreg, htoken⟩, hs, hr, hcov⟩, hrange, rfl⟩ := h
    exact ⟨reg, ⟨hpos, hreg, htoken⟩, (), hs, (), hr, _, ⟨hcov, rfl⟩, _, ⟨hrange, rfl⟩, rfl⟩

/-- A transfer adds one entry to the journal. -/
theorem journal_of_transfer (h : (l.transfer s r v memo).Returns l') :
    l'.journal = l.journal ++ [.transfer s r v memo] := by
  obtain ⟨-, -, rfl⟩ := returns_transfer.1 h
  rfl

/-! ## Minting and burning -/

/-- The ledger with `n` more of `t` in circulation, all of it on the balance of `a`. -/
def adjusted (l : Ledger) (reg : Registration) (a : Account) (t : Token) (n : Amount) : Ledger :=
  (l.setSupply reg (reg.supply + n)).setBalance a t (l.balanceOf a t + n)

section Adjusted

variable {reg : Registration} {n : Amount}

@[simp] theorem frozen_adjusted : (l.adjusted reg a t n).frozen = l.frozen := rfl

@[simp] theorem journal_adjusted : (l.adjusted reg a t n).journal = l.journal := rfl

/-- An adjustment changes the one balance, by what it changes the supply. -/
theorem balanceOf_adjusted :
    (l.adjusted reg a t n).balanceOf b u =
      l.balanceOf b u + (if b = a ∧ u = t then n else 0) := by
  rw [adjusted, balanceOf_setBalance, balanceOf_setSupply]
  by_cases h : b = a ∧ u = t
  · obtain ⟨rfl, rfl⟩ := h
    simp
  · simp [h]

/-- An adjustment changes the one supply, found by its key. -/
theorem registration?_adjusted :
    (l.adjusted reg a t n).registration? u =
      if u.key = reg.token.key then some { reg with supply := reg.supply + n }
      else l.registration? u := by
  rw [adjusted, registration?_setBalance, registration?_setSupply]

/-- What is registered stays registered, with another supply. -/
theorem registers_adjusted (hreg : l.registration? reg.token = some reg) :
    (l.adjusted reg a t n).Registers u ↔ l.Registers u := by
  unfold Registers
  rw [registration?_adjusted]
  by_cases hkey : u.key = reg.token.key
  · have hold : l.registration? u = some reg := by rw [registration?, hkey, ← registration?, hreg]
    simp [hkey, hold]
  · simp [hkey]

end Adjusted

/-- Within the range a saturating sum is a sum. -/
theorem addSaturating_of_inRange {m n : Amount} (h : Amount.InRange (m + n)) :
    m.addSaturating n = m + n := by
  obtain ⟨hleast, hgreatest⟩ := h
  rw [Amount.addSaturating, Int.min_eq_right hgreatest, Int.max_eq_right hleast]

/-- What minting `v` for `r` needs, where `reg` is how the ledger knows the token. -/
structure CanIssue (l : Ledger) (reg : Registration) (r : Account) (v : Asset) : Prop where
  amount_pos : 0 < v.amount
  registration : l.registration? v.token = some reg
  token_eq : reg.token = v.token
  capped : reg.supply + v.amount ≤ reg.maxSupply
  receiver_active : l.isFrozen r = false

/-- The ledger after minting. -/
def issued (l : Ledger) (reg : Registration) (r : Account) (v : Asset) (memo : String) : Ledger :=
  (l.adjusted reg r v.token v.amount).record (.issue r v memo)

/-- Tokens are issued under the conditions, provided that supply and balance stay amounts. -/
theorem returns_issue :
    (l.issue r v memo).Returns l' ↔
      ∃ reg, l.CanIssue reg r v ∧ Amount.InRange (reg.supply + v.amount) ∧
        Amount.InRange (l.balanceOf r v.token + v.amount) ∧ l' = l.issued reg r v memo := by
  simp only [issue, returns_bind, returns_checkToken, returns_checkActive, returns_ite,
    not_returns_throw, false_and, exists_false, and_false, false_or, returns_lift, credit_eq_ok,
    Amount.add_eq_ok_iff, balanceOf_setSupply, returns_pure, gt_iff_lt, Int.not_lt]
  constructor
  · intro h
    obtain ⟨reg, ⟨hpos, hreg, htoken⟩, hcap, -, hr, _, ⟨hsupply, rfl⟩, _, ⟨hrange, rfl⟩, rfl⟩ := h
    rw [addSaturating_of_inRange hsupply] at hcap
    exact ⟨reg, ⟨hpos, hreg, htoken, hcap, hr⟩, hsupply, hrange, rfl⟩
  · intro h
    obtain ⟨reg, ⟨hpos, hreg, htoken, hcap, hr⟩, hsupply, hrange, rfl⟩ := h
    rw [← addSaturating_of_inRange hsupply] at hcap
    exact ⟨reg, ⟨hpos, hreg, htoken⟩, hcap, (), hr, _, ⟨hsupply, rfl⟩, _, ⟨hrange, rfl⟩, rfl⟩

/-- What burning `v` of `s` needs, where `reg` is how the ledger knows the token. -/
structure CanRetire (l : Ledger) (reg : Registration) (s : Account) (v : Asset) : Prop where
  amount_pos : 0 < v.amount
  registration : l.registration? v.token = some reg
  token_eq : reg.token = v.token
  sender_active : l.isFrozen s = false
  covered : v.amount ≤ l.balanceOf s v.token

/-- The ledger after burning. -/
def retired (l : Ledger) (reg : Registration) (s : Account) (v : Asset) (memo : String) : Ledger :=
  (l.adjusted reg s v.token (-v.amount)).record (.retire s v memo)

/-- Tokens are retired under the conditions alone: what goes down stays an amount. -/
theorem returns_retire :
    (l.retire s v memo).Returns l' ↔
      ∃ reg, l.CanRetire reg s v ∧ l' = l.retired reg s v memo := by
  simp only [retire, returns_bind, returns_checkToken, returns_checkActive, returns_debit,
    returns_pure]
  constructor
  · intro h
    obtain ⟨reg, ⟨hpos, hreg, htoken⟩, -, hs, _, ⟨hcov, rfl⟩, rfl⟩ := h
    exact ⟨reg, ⟨hpos, hreg, htoken, hs, hcov⟩, rfl⟩
  · intro h
    obtain ⟨reg, ⟨hpos, hreg, htoken, hs, hcov⟩, rfl⟩ := h
    exact ⟨reg, ⟨hpos, hreg, htoken⟩, (), hs, _, ⟨hcov, rfl⟩, rfl⟩

/-- An issue adds one entry to the journal. -/
theorem journal_of_issue (h : (l.issue r v memo).Returns l') :
    l'.journal = l.journal ++ [.issue r v memo] := by
  obtain ⟨_, -, -, -, rfl⟩ := returns_issue.1 h
  rfl

/-- A retirement adds one entry to the journal. -/
theorem journal_of_retire (h : (l.retire s v memo).Returns l') :
    l'.journal = l.journal ++ [.retire s v memo] := by
  obtain ⟨_, -, rfl⟩ := returns_retire.1 h
  rfl

/-! ## Registering and freezing -/

/-- The ledger after a token was registered. -/
def created (l : Ledger) (t : Token) (maxSupply : Amount) : Ledger :=
  { l with tokens := l.tokens.insert t.key ⟨t, 0, maxSupply⟩ }

@[simp] theorem balanceOf_created {n : Amount} :
    (l.created t n).balanceOf a u = l.balanceOf a u := rfl

/-- A new token is found under its key, with nothing of it in existence. -/
theorem registration?_created {n : Amount} :
    (l.created t n).registration? u =
      if u.key = t.key then some ⟨t, 0, n⟩ else l.registration? u := by
  rw [registration?, created, Table.find?_insert]
  rfl

/-- A token can be registered when its key is free and something of it may exist. -/
theorem returns_createToken {maxSupply : Amount} :
    (l.createToken t maxSupply).Returns l' ↔
      0 < maxSupply ∧ l.registration? t = none ∧ l' = l.created t maxSupply := by
  have hcontains : l.tokens.contains t.key = (l.registration? t).isSome := rfl
  simp only [createToken, hcontains]
  rcases l.registration? t with _ | reg
  · simp [created, eq_comm]
  · simp

/-- Who is frozen keeps what he has. -/
@[simp] theorem balanceOf_freeze : (l.freeze b).balanceOf a t = l.balanceOf a t := by
  unfold freeze
  split <;> rfl

@[simp] theorem registration?_freeze : (l.freeze b).registration? t = l.registration? t := by
  unfold freeze
  split <;> rfl

@[simp] theorem balanceOf_unfreeze : (l.unfreeze b).balanceOf a t = l.balanceOf a t := rfl

@[simp] theorem registration?_unfreeze : (l.unfreeze b).registration? t = l.registration? t := rfl

end Ledger
end BondingCurve
