import BondingCurve.Proofs.Ledger.Cap

/-!
# What an operation looks at

An operation reads the registration of one token, the accounts that are frozen, and the balance it
takes from. On two ledgers with the same tokens and the same frozen accounts (`Ledger.SameRegister`)
it ends alike as soon as that balance is the same in both, or enough in both
(`Ledger.SameFunds`). The rest of the balances may differ: in a consistent ledger no credit behind a
debit aborts.

`Outcome.Alike` compares how two computations end. It follows a `do` block step by step, and each
step hands on what both sides have returned.
-/

namespace BondingCurve

namespace Outcome

variable {ε ε' α β γ δ : Type}

/-- Both computations return, in values that `R` relates, both fail with one error, or both abort
for one cause. -/
inductive Alike (R : α → β → Prop) (o : Outcome ε α) (o' : Outcome ε β) : Prop
  | returns {a : α} {b : β} (h : o.Returns a) (h' : o'.Returns b) (hR : R a b)
  | fails {e : ε} (h : o.Fails e) (h' : o'.Fails e)
  | aborts {a : Abort} (h : o.Aborts a) (h' : o'.Aborts a)

namespace Alike

variable {R : α → β → Prop} {S : γ → δ → Prop} {o : Outcome ε α} {o' : Outcome ε β}

/-- An outcome is like itself. -/
theorem refl (o : Outcome ε α) : Alike Eq o o := by
  rcases o.ends with ⟨a, h⟩ | ⟨e, h⟩ | ⟨a, h⟩
  · exact .returns h h rfl
  · exact .fails h h
  · exact .aborts h h

theorem pure {a : α} {b : β} (h : R a b) :
    Alike R (Pure.pure a : Outcome ε α) (Pure.pure b : Outcome ε β) :=
  .returns (returns_pure.2 rfl) (returns_pure.2 rfl) h

/-- Where the first steps end alike, the rest is compared on what they return. -/
theorem bind {f : α → Outcome ε γ} {g : β → Outcome ε δ} (h : Alike R o o')
    (hfg : ∀ {a b}, o.Returns a → o'.Returns b → R a b → Alike S (f a) (g b)) :
    Alike S (o >>= f) (o' >>= g) := by
  cases h with
  | returns ha hb hR =>
    rw [ha.bind_eq, hb.bind_eq]
    exact hfg ha hb hR
  | fails h h' => exact .fails (fails_bind.2 (.inl h)) (fails_bind.2 (.inl h'))
  | aborts h h' => exact .aborts (aborts_bind.2 (.inl h)) (aborts_bind.2 (.inl h'))

/-- A first step that is the same on both sides. -/
theorem bind_self {f : α → Outcome ε γ} {g : α → Outcome ε δ}
    (hfg : ∀ {a}, o.Returns a → Alike S (f a) (g a)) : Alike S (o >>= f) (o >>= g) :=
  (refl o).bind fun ha _ hab => hab ▸ hfg ha

/-- Outcomes stay alike when their errors are renamed in the same way. -/
theorem adapt {f : ε → ε'} (h : Alike R o o') :
    Alike R (ExceptT.adapt f o : Outcome ε' α) (ExceptT.adapt f o' : Outcome ε' β) := by
  cases h with
  | returns h h' hR => exact .returns (returns_adapt.2 h) (returns_adapt.2 h') hR
  | fails h h' => exact .fails (fails_adapt.2 ⟨_, h, rfl⟩) (fails_adapt.2 ⟨_, h', rfl⟩)
  | aborts h h' => exact .aborts (aborts_adapt.2 h) (aborts_adapt.2 h')

/-- Outcomes of the ledger stay alike inside the exchange. -/
theorem liftLedger {o : Outcome LedgerError α} {o' : Outcome LedgerError β} (h : Alike R o o') :
    Alike R (liftM o : Outcome ExchangeError α) (liftM o' : Outcome ExchangeError β) :=
  h.adapt

end Alike
end Outcome

open Outcome

namespace Ledger

variable {l l' l₁ l₁' : Ledger} {s r : Account} {v : Asset} {memo : String}

/-! ## Ledgers that look the same -/

/-- The same tokens are registered, precision and all, and the same accounts are frozen. -/
structure SameRegister (l l' : Ledger) : Prop where
  token : ∀ t, (l'.registration? t).map (·.token) = (l.registration? t).map (·.token)
  frozen : l'.frozen = l.frozen

namespace SameRegister

theorem symm (h : l.SameRegister l') : l'.SameRegister l :=
  ⟨fun t => (h.token t).symm, h.frozen.symm⟩

theorem trans {l'' : Ledger} (h : l.SameRegister l') (h' : l'.SameRegister l'') :
    l.SameRegister l'' :=
  ⟨fun t => (h'.token t).trans (h.token t), h'.frozen.trans h.frozen⟩

/-- Whether an account is frozen is read off the register. -/
theorem checkActive_eq (h : l.SameRegister l') (a : Account) :
    l'.checkActive a = l.checkActive a := by
  rw [checkActive, isFrozen, h.frozen, checkActive, isFrozen]

end SameRegister

/-- Who takes `v` from `s` finds the same balance in both ledgers, or enough in both. -/
def SameFunds (l l' : Ledger) (s : Account) (v : Asset) : Prop :=
  l'.balanceOf s v.token = l.balanceOf s v.token ∨
    v.amount ≤ l.balanceOf s v.token ∧ v.amount ≤ l'.balanceOf s v.token

/-! ## Steps of an operation -/

/-- The register alone decides whether a value can be moved. -/
theorem checkToken_alike (h : l.SameRegister l') (v : Asset) :
    Alike (fun _ _ => True) (l.checkToken v) (l'.checkToken v) := by
  have htoken := h.token v.token
  by_cases hpos : v.amount ≤ 0
  · exact .fails (e := .invalidQuantity v.amount) (by simp [checkToken, hpos])
      (by simp [checkToken, hpos])
  · rcases hreg : l.registration? v.token with _ | reg
    · rw [hreg, Option.map_none, Option.map_eq_none_iff] at htoken
      exact .fails (e := .unknownToken v.token) (by simp [checkToken, hpos, hreg])
        (by simp [checkToken, hpos, htoken])
    · rw [hreg, Option.map_some, Option.map_eq_some_iff] at htoken
      obtain ⟨reg', hreg', htoken⟩ := htoken
      by_cases hsame : reg.token = v.token
      · exact .returns (returns_checkToken.2 ⟨not_le.1 hpos, hreg, hsame⟩)
          (returns_checkToken.2 ⟨not_le.1 hpos, hreg', htoken.trans hsame⟩) trivial
      · -- both ledgers have the token with the same other precision
        exact .fails (e := .symbolMismatch reg.token v.token)
          (by simp [checkToken, hpos, hreg, hsame])
          (by simp [checkToken, hpos, hreg', htoken, hsame])

/-- A debit depends on the one balance that it takes from. -/
theorem debit_alike (h : l.SameFunds l' s v) :
    Alike (fun _ _ => True) (l.debit s v) (l'.debit s v) := by
  by_cases hcovered : v.amount ≤ l.balanceOf s v.token
  · have hcovered' : v.amount ≤ l'.balanceOf s v.token := by
      rcases h with hsame | ⟨_, hle⟩
      · exact hsame ▸ hcovered
      · exact hle
    exact .returns (returns_debit.2 ⟨hcovered, rfl⟩) (returns_debit.2 ⟨hcovered', rfl⟩) trivial
  · have hsame : l'.balanceOf s v.token = l.balanceOf s v.token := by
      rcases h with hsame | ⟨hle, _⟩
      · exact hsame
      · exact absurd hle hcovered
    have hlt := not_le.1 hcovered
    exact .fails (fails_debit.2 ⟨hlt, rfl⟩) (fails_debit.2 ⟨hsame ▸ hlt, by rw [hsame]⟩)

/-- A credit depends on the one balance that it adds to. -/
theorem credit_alike (h : l'.balanceOf r v.token = l.balanceOf r v.token) :
    Alike (fun _ _ => True) (liftM (l.credit r v) : Outcome LedgerError Ledger)
      (liftM (l'.credit r v)) := by
  by_cases hrange : Amount.InRange (l.balanceOf r v.token + v.amount)
  · exact .returns (returns_lift.2 (credit_eq_ok.2 ⟨hrange, rfl⟩))
      (returns_lift.2 (credit_eq_ok.2 ⟨h ▸ hrange, rfl⟩)) trivial
  · exact .aborts (aborts_lift.2 (credit_eq_error.2 ⟨hrange, rfl⟩))
      (aborts_lift.2 (credit_eq_error.2 ⟨h ▸ hrange, rfl⟩))

/-- What was taken from one account can be put on any other, in a consistent ledger. -/
theorem Consistent.exists_credit {reg : Registration} {u u' : Unit} (h : l.Consistent)
    (hreg : (l.checkToken v).Returns reg) (hs : (l.checkActive s).Returns u)
    (hr : (l.checkActive r).Returns u') (hdebit : (l.debit s v).Returns l₁) :
    ∃ l₂, l₁.credit r v = .ok l₂ := by
  obtain ⟨hpos, hreg, htoken⟩ := returns_checkToken.1 hreg
  obtain ⟨l₂, hl₂⟩ := h.exists_transfer "" ⟨hpos, ⟨reg, hreg, htoken⟩,
    returns_checkActive.1 hs, returns_checkActive.1 hr, (returns_debit.1 hdebit).1⟩
  simp only [Ledger.transfer, returns_bind, returns_lift] at hl₂
  obtain ⟨_, _, _, _, _, _, l₁', hdebit', l₂, hcredit, _⟩ := hl₂
  obtain rfl := hdebit.unique hdebit'
  exact ⟨l₂, hcredit⟩

/-! ## Operations -/

/-- A transfer between consistent ledgers depends on the register and on what the sender has. -/
theorem Consistent.transfer_alike (h : l.Consistent) (h' : l'.Consistent)
    (hregister : l.SameRegister l') (hfunds : l.SameFunds l' s v) :
    Alike (fun _ _ => True) (l.transfer s r v memo) (l'.transfer s r v memo) := by
  simp only [Ledger.transfer, hregister.checkActive_eq]
  refine (checkToken_alike hregister v).bind fun hreg hreg' _ => ?_
  refine .bind_self fun hs => .bind_self fun hr => ?_
  refine (debit_alike hfunds).bind fun {l₁ l₁'} hdebit hdebit' _ => ?_
  -- the receiver may have different balances, but neither of the credits aborts
  have hs' := hs
  have hr' := hr
  rw [← hregister.checkActive_eq] at hs' hr'
  obtain ⟨l₂, hl₂⟩ := h.exists_credit hreg hs hr hdebit
  obtain ⟨l₂', hl₂'⟩ := h'.exists_credit hreg' hs' hr' hdebit'
  exact .returns (returns_bind.2 ⟨l₂, returns_lift.2 hl₂, returns_pure.2 rfl⟩)
    (returns_bind.2 ⟨l₂', returns_lift.2 hl₂', returns_pure.2 rfl⟩) trivial

/-- A retirement depends on the register and on what its account has. -/
theorem retire_alike (hregister : l.SameRegister l') (hfunds : l.SameFunds l' s v) :
    Alike (fun _ _ => True) (l.retire s v memo) (l'.retire s v memo) := by
  simp only [Ledger.retire, hregister.checkActive_eq]
  refine (checkToken_alike hregister v).bind fun _ _ _ => ?_
  refine .bind_self fun _ => ?_
  exact (debit_alike hfunds).bind fun _ _ _ => .pure trivial

/-- Minting reads the supply as well, and puts all on one balance. -/
theorem issue_alike (hregistration : l'.registration? v.token = l.registration? v.token)
    (hfrozen : l'.frozen = l.frozen) (hbalance : l'.balanceOf r v.token = l.balanceOf r v.token) :
    Alike (fun _ _ => True) (l.issue r v memo) (l'.issue r v memo) := by
  have htoken : l'.checkToken v = l.checkToken v := by
    rw [checkToken, hregistration, checkToken]
  have hactive : l'.checkActive r = l.checkActive r := by
    rw [checkActive, isFrozen, hfrozen, checkActive, isFrozen]
  simp only [Ledger.issue, htoken, hactive]
  refine .bind_self fun {reg} _ => ?_
  by_cases hcap : reg.supply.addSaturating v.amount > reg.maxSupply
  · simp only [if_pos hcap]
    exact .bind_self fun h => absurd h not_returns_throw
  · simp only [if_neg hcap]
    refine .bind_self fun _ => .bind_self fun _ => ?_
    refine .bind (credit_alike hbalance) fun _ _ _ => ?_
    exact .pure trivial

end Ledger
end BondingCurve
