import BondingCurve.Exchange.Settlement
import BondingCurve.Exchange.Administration

/-!
# How a computation ends

`o.Returns a` says that the computation `o` ends, without an abort and without an error of the
domain, in the value `a`. A sequence of steps returns a value exactly when its steps do one after
the other, so the lemmas here open any `do` block into the facts that its success is made of.
`o.Fails e` and `o.Aborts a` say the same of the two other ends.
-/

namespace BondingCurve
namespace Abort

variable {α β : Type}

/-- A sequence of steps that can only abort. -/
@[simp] theorem bind_eq_ok {r : Except Abort α} {f : α → Except Abort β} {b : β} :
    (r >>= f) = .ok b ↔ ∃ a, r = .ok a ∧ f a = .ok b := by
  cases r <;> simp [bind, Except.bind]

@[simp] theorem pure_eq_ok {a b : α} : (pure a : Except Abort α) = .ok b ↔ a = b := by
  simp [pure, Except.pure]

/-- A computation of whose result something is returned. -/
theorem map_eq_ok {r : Except Abort α} {f : α → β} {b : β} :
    (r >>= fun a => pure (f a)) = .ok b ↔ ∃ a, r = .ok a ∧ f a = b := by
  simp only [bind_eq_ok, pure_eq_ok]

/-- Naming a fault changes no result. -/
@[simp] theorem mapError_eq_ok {ε : Type} {r : Except ε α} {f : ε → Abort} {a : α} :
    r.mapError f = .ok a ↔ r = .ok a := by
  cases r with
  | error e =>
    show Except.error (f e) = .ok a ↔ Except.error e = .ok a
    simp
  | ok b =>
    show Except.ok b = .ok a ↔ Except.ok b = .ok a
    simp

/-- The computation has a result, of which `P` holds. It can be decided by carrying it out. -/
def Yields {ε : Type} (r : Except ε α) (P : α → Prop) : Prop := ∃ a, r = .ok a ∧ P a

instance {ε : Type} {P : α → Prop} [DecidablePred P] : (r : Except ε α) → Decidable (Yields r P)
  | .ok a => decidable_of_iff (P a) ⟨fun h => ⟨a, rfl, h⟩, fun ⟨_, ha, h⟩ => Except.ok.inj ha ▸ h⟩
  | .error _ => .isFalse nofun

end Abort

namespace Outcome

variable {ε ε' α β : Type}

/-- The computation succeeds with `a`. -/
def Returns (o : Outcome ε α) (a : α) : Prop := o.run = .ok (.ok a)

theorem returns_def {o : Outcome ε α} {a : α} : o.Returns a ↔ o.run = .ok (.ok a) := Iff.rfl

@[simp] theorem returns_pure {a b : α} : (pure a : Outcome ε α).Returns b ↔ a = b := by
  rw [returns_def, show (pure a : Outcome ε α).run = .ok (.ok a) from rfl]
  simp

@[simp] theorem not_returns_throw {e : ε} {a : α} : ¬(throw e : Outcome ε α).Returns a := by
  rw [returns_def, show (throw e : Outcome ε α).run = .ok (.error e) from rfl]
  simp

@[simp] theorem returns_bind {o : Outcome ε α} {f : α → Outcome ε β} {b : β} :
    Returns (o >>= f) b ↔ ∃ a, o.Returns a ∧ (f a).Returns b := by
  simp only [Returns, ExceptT.run_bind]
  rcases h : o.run with e | e | a <;> simp [bind, Except.bind, pure, Except.pure]

/-- A pure computation inside an outcome returns what it computes. -/
@[simp] theorem returns_lift {r : Except Abort α} {a : α} :
    Returns (liftM r : Outcome ε α) a ↔ r = .ok a := by
  rcases r with e | b <;>
    simp [Returns, liftM, monadLift, MonadLift.monadLift, ExceptT.lift, ExceptT.run, ExceptT.mk,
      Functor.map, Except.map]

/-- Naming an error otherwise changes no success. -/
@[simp] theorem returns_adapt {f : ε → ε'} {o : Outcome ε α} {a : α} :
    Returns (ExceptT.adapt f o : Outcome ε' α) a ↔ o.Returns a := by
  have hrun : (ExceptT.adapt f o : Outcome ε' α).run = Except.mapError f <$> o.run := rfl
  rw [returns_def, returns_def, hrun]
  rcases o.run with abort | e | b
  · show Except.error abort = .ok _ ↔ Except.error abort = .ok _
    simp
  · show Except.ok (Except.error (f e)) = .ok _ ↔ Except.ok (Except.error e) = .ok _
    simp
  · show Except.ok (Except.ok b) = .ok _ ↔ Except.ok (Except.ok b) = .ok _
    simp

/-- Errors of the curve are lifted into those of the exchange. -/
@[simp] theorem returns_liftCurve {o : Outcome CurveError α} {a : α} :
    Returns (liftM o : Outcome ExchangeError α) a ↔ o.Returns a := returns_adapt

/-- Errors of the ledger are lifted into those of the exchange. -/
@[simp] theorem returns_liftLedger {o : Outcome LedgerError α} {a : α} :
    Returns (liftM o : Outcome ExchangeError α) a ↔ o.Returns a := returns_adapt

/-- A pure computation inside an operation of the exchange, which is lifted twice. -/
@[simp] theorem returns_liftPure {r : Except Abort α} {a : α} :
    Returns (liftM r : Outcome ExchangeError α) a ↔ r = .ok a :=
  returns_adapt.trans returns_lift

/-- A choice returns what the branch taken returns. -/
@[simp] theorem returns_ite {c : Prop} [Decidable c] {o o' : Outcome ε α} {a : α} :
    Returns (if c then o else o') a ↔ (c ∧ o.Returns a) ∨ (¬c ∧ o'.Returns a) := by
  by_cases h : c <;> simp [h]

/-- A computation returns one value at most. -/
theorem Returns.unique {o : Outcome ε α} {a b : α} (ha : o.Returns a) (hb : o.Returns b) : a = b :=
  Except.ok.inj (Except.ok.inj (ha.symm.trans hb))

/-- A step that returns `a` hands `a` to the steps after it. -/
theorem Returns.bind_eq {o : Outcome ε α} {f : α → Outcome ε β} {a : α} (h : o.Returns a) :
    o >>= f = f a := by
  apply ExceptT.ext
  rw [ExceptT.run_bind, h]
  rfl

/-- What the steps after a first one are counts only for what that one returns. -/
theorem bind_congr_of_returns {o : Outcome ε α} {f g : α → Outcome ε β}
    (h : ∀ {a}, o.Returns a → f a = g a) : o >>= f = o >>= g := by
  apply ExceptT.ext
  rw [ExceptT.run_bind, ExceptT.run_bind]
  rcases ho : o.run with abort | e | a
  · rfl
  · rfl
  · show (f a).run = (g a).run
    rw [h ho]

/-! ## Errors -/

/-- The computation ends in the error `e`. -/
def Fails (o : Outcome ε α) (e : ε) : Prop := o.run = .ok (.error e)

theorem fails_def {o : Outcome ε α} {e : ε} : o.Fails e ↔ o.run = .ok (.error e) := Iff.rfl

/-- A computation that fails returns nothing. -/
theorem Fails.not_returns {o : Outcome ε α} {e : ε} {a : α} (h : o.Fails e) : ¬o.Returns a :=
  fun ha => nomatch h.symm.trans ha

@[simp] theorem not_fails_pure {a : α} {e : ε} : ¬(pure a : Outcome ε α).Fails e := by
  rw [fails_def, show (pure a : Outcome ε α).run = .ok (.ok a) from rfl]
  simp

@[simp] theorem fails_throw {e e' : ε} : (throw e : Outcome ε α).Fails e' ↔ e = e' := by
  rw [fails_def, show (throw e : Outcome ε α).run = .ok (.error e) from rfl]
  simp

/-- A sequence of steps fails in one of them, and the steps before it have returned. -/
@[simp] theorem fails_bind {o : Outcome ε α} {f : α → Outcome ε β} {e : ε} :
    Fails (o >>= f) e ↔ o.Fails e ∨ ∃ a, o.Returns a ∧ (f a).Fails e := by
  simp only [Fails, Returns, ExceptT.run_bind]
  rcases h : o.run with e | e | a <;> simp [bind, Except.bind, pure, Except.pure]

@[simp] theorem not_fails_lift {r : Except Abort α} {e : ε} :
    ¬Fails (liftM r : Outcome ε α) e := by
  rcases r with e | b <;>
    simp [Fails, liftM, monadLift, MonadLift.monadLift, ExceptT.lift, ExceptT.run, ExceptT.mk,
      Functor.map, Except.map]

@[simp] theorem fails_adapt {f : ε → ε'} {o : Outcome ε α} {e : ε'} :
    Fails (ExceptT.adapt f o : Outcome ε' α) e ↔ ∃ e', o.Fails e' ∧ f e' = e := by
  have hrun : (ExceptT.adapt f o : Outcome ε' α).run = Except.mapError f <$> o.run := rfl
  simp only [fails_def, hrun]
  rcases o.run with abort | e' | b
  · simp [Functor.map, Except.map]
  · rw [show Except.mapError f <$> (.ok (.error e') : Except Abort (Except ε α)) =
      .ok (.error (f e')) from rfl]
    simp
  · rw [show Except.mapError f <$> (.ok (.ok b) : Except Abort (Except ε α)) =
      .ok (.ok b) from rfl]
    simp

/-- Errors of the curve become errors of the exchange. -/
@[simp] theorem fails_liftCurve {o : Outcome CurveError α} {e : ExchangeError} :
    Fails (liftM o : Outcome ExchangeError α) e ↔ ∃ e', o.Fails e' ∧ .curve e' = e := fails_adapt

/-- Errors of the ledger become errors of the exchange. -/
@[simp] theorem fails_liftLedger {o : Outcome LedgerError α} {e : ExchangeError} :
    Fails (liftM o : Outcome ExchangeError α) e ↔ ∃ e', o.Fails e' ∧ .ledger e' = e := fails_adapt

@[simp] theorem not_fails_liftPure {r : Except Abort α} {e : ExchangeError} :
    ¬Fails (liftM r : Outcome ExchangeError α) e := by
  intro h
  obtain ⟨_, h, _⟩ := fails_adapt.1 h
  exact not_fails_lift h

@[simp] theorem fails_ite {c : Prop} [Decidable c] {o o' : Outcome ε α} {e : ε} :
    Fails (if c then o else o') e ↔ (c ∧ o.Fails e) ∨ (¬c ∧ o'.Fails e) := by
  by_cases h : c <;> simp [h]

/-! ## Aborts -/

/-- The computation ends in the abort `a`, with no answer at all. -/
def Aborts (o : Outcome ε α) (a : Abort) : Prop := o.run = .error a

theorem aborts_def {o : Outcome ε α} {a : Abort} : o.Aborts a ↔ o.run = .error a := Iff.rfl

instance {o : Outcome ε α} {a : Abort} : Decidable (o.Aborts a) :=
  match h : o.run with
  | .error b => decidable_of_iff (b = a) (by rw [aborts_def, h, Except.error.injEq])
  | .ok _ => .isFalse fun ha => nomatch h.symm.trans ha

/-- A computation that aborts returns nothing. -/
theorem Aborts.not_returns {o : Outcome ε α} {a : Abort} {b : α} (h : o.Aborts a) :
    ¬o.Returns b :=
  fun hb => nomatch h.symm.trans hb

/-- Nor does it fail. -/
theorem Aborts.not_fails {o : Outcome ε α} {a : Abort} {e : ε} (h : o.Aborts a) : ¬o.Fails e :=
  fun he => nomatch h.symm.trans he

/-- A computation returns, fails or aborts. -/
theorem ends (o : Outcome ε α) : (∃ a, o.Returns a) ∨ (∃ e, o.Fails e) ∨ ∃ a, o.Aborts a := by
  simp only [Returns, Fails, Aborts]
  rcases o.run with a | e | b
  · exact .inr (.inr ⟨a, rfl⟩)
  · exact .inr (.inl ⟨e, rfl⟩)
  · exact .inl ⟨b, rfl⟩

@[simp] theorem not_aborts_pure {b : α} {a : Abort} : ¬(pure b : Outcome ε α).Aborts a := by
  rw [aborts_def, show (pure b : Outcome ε α).run = .ok (.ok b) from rfl]
  simp

@[simp] theorem not_aborts_throw {e : ε} {a : Abort} : ¬(throw e : Outcome ε α).Aborts a := by
  rw [aborts_def, show (throw e : Outcome ε α).run = .ok (.error e) from rfl]
  simp

/-- A sequence of steps aborts in one of them, and the steps before it have returned. -/
@[simp] theorem aborts_bind {o : Outcome ε α} {f : α → Outcome ε β} {a : Abort} :
    Aborts (o >>= f) a ↔ o.Aborts a ∨ ∃ b, o.Returns b ∧ (f b).Aborts a := by
  simp only [Aborts, Returns, ExceptT.run_bind]
  rcases h : o.run with e | e | b <;> simp [bind, Except.bind, pure, Except.pure]

@[simp] theorem aborts_lift {r : Except Abort α} {a : Abort} :
    Aborts (liftM r : Outcome ε α) a ↔ r = .error a := by
  rcases r with e | b <;>
    simp [Aborts, liftM, monadLift, MonadLift.monadLift, ExceptT.lift, ExceptT.run, ExceptT.mk,
      Functor.map, Except.map]

/-- Naming an error otherwise changes no abort. -/
@[simp] theorem aborts_adapt {f : ε → ε'} {o : Outcome ε α} {a : Abort} :
    Aborts (ExceptT.adapt f o : Outcome ε' α) a ↔ o.Aborts a := by
  have hrun : (ExceptT.adapt f o : Outcome ε' α).run = Except.mapError f <$> o.run := rfl
  rw [aborts_def, aborts_def, hrun]
  rcases o.run with abort | e | b
  · show Except.error abort = .error _ ↔ Except.error abort = .error _
    simp
  · show Except.ok (Except.error (f e)) = .error _ ↔ Except.ok (Except.error e) = .error _
    simp
  · show Except.ok (Except.ok b) = .error _ ↔ Except.ok (Except.ok b) = .error _
    simp

@[simp] theorem aborts_liftCurve {o : Outcome CurveError α} {a : Abort} :
    Aborts (liftM o : Outcome ExchangeError α) a ↔ o.Aborts a := aborts_adapt

@[simp] theorem aborts_liftLedger {o : Outcome LedgerError α} {a : Abort} :
    Aborts (liftM o : Outcome ExchangeError α) a ↔ o.Aborts a := aborts_adapt

@[simp] theorem aborts_liftPure {r : Except Abort α} {a : Abort} :
    Aborts (liftM r : Outcome ExchangeError α) a ↔ r = .error a :=
  aborts_adapt.trans aborts_lift

@[simp] theorem aborts_ite {c : Prop} [Decidable c] {o o' : Outcome ε α} {a : Abort} :
    Aborts (if c then o else o') a ↔ (c ∧ o.Aborts a) ∨ (¬c ∧ o'.Aborts a) := by
  by_cases h : c <;> simp [h]

end Outcome
end BondingCurve
