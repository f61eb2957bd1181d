import BondingCurve.Proofs.Ledger.Conservation

/-!
# The cap of a supply

Minting compares the cap with a sum that stops at the greatest amount, and then adds without
stopping. Below the greatest amount the two agree, so a token with a lower cap is capped exactly. A
cap of the greatest amount is never exceeded by the first sum; what goes beyond it is left to the
second one, which aborts. `Mintable.returns_issue`, `Mintable.fails_issue` and
`Mintable.aborts_issue` divide all requests between the three ends.
-/

namespace BondingCurve

open Outcome

/-- A sum that stops at the greatest amount passes a cap below it where the sum itself does, and no
other cap. -/
theorem Amount.lt_addSaturating_iff {m n cap : Amount} (hcap : 0 ≤ cap) :
    cap < m.addSaturating n ↔ cap < m + n ∧ cap < greatest := by
  have hleast : ¬cap < least := not_lt.2 (le_trans (by decide) hcap)
  rw [addSaturating, lt_max_iff, or_iff_right hleast, lt_min_iff, and_comm]

/-- A sum aborts exactly when it leaves the range. -/
theorem Amount.add_eq_error_iff {m n : Amount} {a : Abort} :
    Amount.add m n = .error a ↔ ¬InRange (m + n) ∧ a = .amountSum := by
  unfold add
  split <;> simp_all [eq_comm]

namespace Ledger

variable {l l' : Ledger} {s r : Account} {v : Asset} {memo : String} {reg : Registration}
  {a : Abort}

/-! ## Which operations abort, and which transfers are refused -/

theorem not_aborts_checkToken : ¬(l.checkToken v).Aborts a := by
  unfold checkToken
  rcases l.registration? v.token with _ | reg
  · simp
  · simp

theorem not_aborts_checkActive : ¬(l.checkActive s).Aborts a := by
  simp [checkActive]

/-- A debit takes from what is there, so nothing runs over. -/
theorem not_aborts_debit : ¬(l.debit s v).Aborts a := by
  simp [debit]

/-- A credit aborts exactly when the balance leaves the range. -/
theorem credit_eq_error :
    l.credit s v = .error a ↔
      ¬Amount.InRange (l.balanceOf s v.token + v.amount) ∧ a = .amountSum := by
  rw [← Amount.add_eq_error_iff, credit]
  rcases Amount.add (l.balanceOf s v.token) v.amount with b | n
  · simp [bind, Except.bind]
  · simp [bind, Except.bind, pure, Except.pure]

/-- A transfer aborts only in the sum behind all checks. -/
theorem canTransfer_of_aborts (h : (l.transfer s r v memo).Aborts a) : l.CanTransfer s r v := by
  simp only [transfer, aborts_bind, not_aborts_checkToken, not_aborts_checkActive,
    not_aborts_debit, not_aborts_pure, returns_checkToken, returns_checkActive, returns_debit,
    and_false, exists_false, false_or, or_false] at h
  obtain ⟨reg, ⟨hpos, hreg, htoken⟩, -, hs, -, hr, _, ⟨hcovered, -⟩, -⟩ := h
  exact ⟨hpos, ⟨reg, hreg, htoken⟩, hs, hr, hcovered⟩

/-- A transfer in a consistent ledger is carried out or refused. -/
theorem Consistent.not_aborts_transfer (h : l.Consistent) :
    ¬(l.transfer s r v memo).Aborts a := by
  intro habort
  obtain ⟨l', hl'⟩ := h.exists_transfer memo (canTransfer_of_aborts habort)
  exact habort.not_returns hl'

/-- Burning is carried out or refused in any ledger: there is no sum in it. -/
theorem not_aborts_retire : ¬(l.retire s v memo).Aborts a := by
  simp only [retire, aborts_bind, not_aborts_checkToken, not_aborts_checkActive,
    not_aborts_debit, not_aborts_pure, and_false, exists_false, or_self, not_false_eq_true]

/-- A transfer is refused exactly where one of its conditions is not met. -/
theorem exists_fails_transfer_iff :
    (∃ e, (l.transfer s r v memo).Fails e) ↔ ¬l.CanTransfer s r v := by
  constructor
  · rintro ⟨e, hfails⟩ ⟨hpos, ⟨reg, hreg, htoken⟩, hsender, hreceiver, hcovered⟩
    have hknown := returns_checkToken.2 ⟨hpos, hreg, htoken⟩
    have hdebit := returns_debit.2 ⟨hcovered, rfl⟩
    rw [transfer, hknown.bind_eq, (returns_checkActive (x := ()).2 hsender).bind_eq,
      (returns_checkActive (x := ()).2 hreceiver).bind_eq, hdebit.bind_eq] at hfails
    -- behind the checks there is only a sum of two amounts
    simp only [fails_bind, not_fails_lift, not_fails_pure, and_false, exists_false,
      or_self] at hfails
  · intro hcannot
    rcases ends (l.transfer s r v memo) with ⟨l', hreturns⟩ | hfails | ⟨a, haborts⟩
    · exact absurd (returns_transfer.1 hreturns).1 hcannot
    · exact hfails
    · exact absurd (canTransfer_of_aborts haborts) hcannot

/-! ## Requests that only the cap can stop -/

/-- What minting `v` for `r` needs apart from the cap, where `reg` is how the ledger knows the
token. -/
structure Mintable (l : Ledger) (reg : Registration) (r : Account) (v : Asset) : Prop where
  amount_pos : 0 < v.amount
  registration : l.registration? v.token = some reg
  token_eq : reg.token = v.token
  receiver_active : l.isFrozen r = false

/-- What can be minted is issued as far as its cap allows. -/
theorem canIssue_iff :
    l.CanIssue reg r v ↔ l.Mintable reg r v ∧ reg.supply + v.amount ≤ reg.maxSupply :=
  ⟨fun h => ⟨⟨h.amount_pos, h.registration, h.token_eq, h.receiver_active⟩, h.capped⟩,
    fun ⟨h, hcap⟩ => ⟨h.amount_pos, h.registration, h.token_eq, hcap, h.receiver_active⟩⟩

/-- Minting aborts only in the sums behind all checks. -/
theorem mintable_of_aborts_issue (h : (l.issue r v memo).Aborts a) :
    (∃ reg, l.Mintable reg r v) ∧ a = .amountSum := by
  simp only [issue, aborts_bind, aborts_ite, aborts_lift, not_aborts_checkToken,
    not_aborts_checkActive, not_aborts_throw, not_aborts_pure, not_returns_throw,
    Amount.add_eq_error_iff, credit_eq_error, returns_checkToken, returns_checkActive, false_and,
    and_false, exists_false, false_or, or_false] at h
  obtain ⟨reg, ⟨hpos, hreg, htoken⟩, _, _, hactive, hsum⟩ := h
  refine ⟨⟨reg, hpos, hreg, htoken, hactive⟩, ?_⟩
  rcases hsum with ⟨_, ha⟩ | ⟨_, _, _, ha⟩
  · exact ha
  · exact ha

namespace Mintable

theorem returns_checkToken (hv : l.Mintable reg r v) : (l.checkToken v).Returns reg :=
  Ledger.returns_checkToken.2 ⟨hv.amount_pos, hv.registration, hv.token_eq⟩

/-- No cap is negative on a consistent ledger. -/
theorem cap_nonneg (h : l.Consistent) (hv : l.Mintable reg r v) : 0 ≤ reg.maxSupply :=
  (h.supply_nonneg hv.registration).trans (h.capped hv.registration)


/-- Below the cap, tokens that can be minted are issued. -/
theorem returns_issue (h : l.Consistent) (hv : l.Mintable reg r v) :
    (l.issue r v memo).Returns l' ↔
      reg.supply + v.amount ≤ reg.maxSupply ∧ l' = l.issued reg r v memo := by
  rw [h.returns_issue]
  constructor
  · intro hl
    obtain ⟨reg', hcan, rfl⟩ := hl
    obtain rfl := Option.some.inj (hv.registration.symm.trans hcan.registration)
    exact ⟨hcan.capped, rfl⟩
  · intro hl
    exact ⟨reg, canIssue_iff.2 ⟨hv, hl.1⟩, hl.2⟩

/-- The cap refuses what passes it, if it is below the greatest amount. -/
theorem fails_issue (h : l.Consistent) (hv : l.Mintable reg r v) {e : LedgerError} :
    (l.issue r v memo).Fails e ↔
      reg.maxSupply < reg.supply + v.amount ∧ reg.maxSupply < Amount.greatest ∧
        e = .maxSupplyExceeded v.token v.amount reg.maxSupply := by
  rw [issue, hv.returns_checkToken.bind_eq]
  simp only [checkActive, hv.receiver_active, fails_bind, fails_ite, fails_throw,
    not_fails_lift, not_fails_pure, gt_iff_lt, Amount.lt_addSaturating_iff (hv.cap_nonneg h),
    Bool.false_eq_true, if_false, and_false, exists_false, or_false]
  constructor
  · intro hfails
    obtain ⟨⟨hcap, hgreatest⟩, rfl⟩ := hfails
    exact ⟨hcap, hgreatest, rfl⟩
  · intro hfails
    obtain ⟨hcap, hgreatest, rfl⟩ := hfails
    exact ⟨⟨hcap, hgreatest⟩, rfl⟩

/-- What passes a cap of the greatest amount is not refused, and cannot be added. -/
theorem aborts_issue (h : l.Consistent) (hv : l.Mintable reg r v) :
    (l.issue r v memo).Aborts a ↔
      reg.maxSupply = Amount.greatest ∧ Amount.greatest < reg.supply + v.amount ∧
        a = .amountSum := by
  constructor
  · intro habort
    -- neither of the other two ends is there
    have hcap : reg.maxSupply < reg.supply + v.amount := by
      by_contra hle
      exact habort.not_returns ((hv.returns_issue h).2 ⟨not_lt.1 hle, rfl⟩)
    have hgreatest : ¬reg.maxSupply < Amount.greatest := by
      intro hlt
      exact habort.not_fails ((hv.fails_issue h).2 ⟨hcap, hlt, rfl⟩)
    have heq : reg.maxSupply = Amount.greatest :=
      le_antisymm (h.cap_le hv.registration) (not_lt.1 hgreatest)
    exact ⟨heq, heq ▸ hcap, (mintable_of_aborts_issue habort).2⟩
  · intro hover
    obtain ⟨hcap, hlt, rfl⟩ := hover
    rcases (l.issue r v memo).ends with ⟨l', hl'⟩ | ⟨e, he⟩ | ⟨a, ha⟩
    · have hle := ((hv.returns_issue h).1 hl').1
      rw [hcap] at hle
      exact absurd hlt (not_lt.2 hle)
    · have hbelow := ((hv.fails_issue h).1 he).2.1
      exact absurd hcap hbelow.ne
    · rwa [← (mintable_of_aborts_issue ha).2]

end Mintable

/-- An issue aborts only at the greatest cap, where the sum that is compared with it stops. -/
theorem Consistent.aborts_issue (h : l.Consistent) :
    (l.issue r v memo).Aborts a ↔
      ∃ reg, l.Mintable reg r v ∧ reg.maxSupply = Amount.greatest ∧
        Amount.greatest < reg.supply + v.amount ∧ a = .amountSum := by
  constructor
  · intro habort
    obtain ⟨⟨reg, hv⟩, _⟩ := mintable_of_aborts_issue habort
    exact ⟨reg, hv, (hv.aborts_issue h).1 habort⟩
  · intro hover
    obtain ⟨reg, hv, hover⟩ := hover
    exact (hv.aborts_issue h).2 hover

/-- What minting adds to the supply. -/
theorem Mintable.registration?_issued (hv : l.Mintable reg r v) :
    (l.issued reg r v memo).registration? v.token =
      some { reg with supply := reg.supply + v.amount } := by
  rw [issued, registration?_record, registration?_adjusted, hv.token_eq, if_pos rfl]

/-- A call that fails has changed nothing. -/
theorem after_of_fails {c : Call} {e : LedgerError} (h : (l.call c).Fails e) :
    l.after c = .ok l := by
  rw [after, h]
  rfl

end Ledger
end BondingCurve
