import BondingCurve.Proofs.Ledger.Consistency

/-!
# A ledger in place

The operations of a ledger give a new ledger or none. A ledger that is kept in one place is written
to row by row, and a check that comes after a write comes too late: what was written stays.
`Ledger.InPlace` is a computation on such a ledger. Here every operation is written down with its
checks and its writes one after the other, and `Mirrors` says that no check of it comes too late: it
does what the operation proper does, and where that one fails the ledger is as it was
(`inPlace_mirrors`).
-/

namespace BondingCurve

open Outcome

namespace Ledger

/-- A computation on a ledger in place. What it wrote before an error stays written. -/
abbrev InPlace (α : Type) := ExceptT LedgerError (StateT Ledger (Except Abort)) α

/-- The ledger with another supply of whatever is registered under the key of the token. -/
def resupplied (l : Ledger) (t : Token) (f : Amount → Except Abort Amount) :
    Except Abort Ledger := do
  match l.registration? t with
  | some r =>
    let supply ← f r.supply
    return { l with tokens := l.tokens.insert t.key { r with supply } }
  | none => return l

namespace InPlace

variable {α : Type}

/-- Look at the ledger and write nothing. -/
def access (f : Ledger → Outcome LedgerError α) : InPlace α :=
  ExceptT.mk fun l => do return (← (f l).run, l)

/-- Write without any check. -/
def write (f : Ledger → Except Abort Ledger) : InPlace Unit :=
  ExceptT.mk fun l => do return (.ok (), ← f l)

/-! ## Rows -/

def debit (owner : Account) (value : Asset) : InPlace Unit := do
  let available ← access fun l => pure (l.balanceOf owner value.token)
  if available < value.amount then
    throw (.insufficientBalance owner available value.amount)
  write fun l => return l.setBalance owner value.token (available - value.amount)

def credit (owner : Account) (value : Asset) : InPlace Unit := write (·.credit owner value)

def resupply (t : Token) (f : Amount → Except Abort Amount) : InPlace Unit :=
  write (·.resupplied t f)

def record (e : Entry) : InPlace Unit := write fun l => return l.record e

/-! ## Operations -/

def createToken (t : Token) (maxSupply : Amount) : InPlace Unit := do
  if maxSupply ≤ 0 then throw (.invalidQuantity maxSupply)
  if (← access fun l => pure (l.tokens.contains t.key)) then throw (.tokenExists t)
  write fun l => return { l with tokens := l.tokens.insert t.key ⟨t, 0, maxSupply⟩ }

def transfer (sender receiver : Account) (value : Asset) (memo : String) : InPlace Unit := do
  let _ ← access (·.checkToken value)
  access (·.checkActive sender)
  access (·.checkActive receiver)
  debit sender value
  credit receiver value
  record (.transfer sender receiver value memo)

/-- The supply is written before the balance. -/
def issue (receiver : Account) (value : Asset) (memo : String) : InPlace Unit := do
  let r ← access (·.checkToken value)
  if r.supply.addSaturating value.amount > r.maxSupply then
    throw (.maxSupplyExceeded value.token value.amount r.maxSupply)
  access (·.checkActive receiver)
  resupply value.token (Amount.add · value.amount)
  credit receiver value
  record (.issue receiver value memo)

/-- The balance is written before the supply. -/
def retire (sender : Account) (value : Asset) (memo : String) : InPlace Unit := do
  let _ ← access (·.checkToken value)
  access (·.checkActive sender)
  debit sender value
  resupply value.token fun supply => pure (supply - value.amount)
  record (.retire sender value memo)

end InPlace

/-- A call in place. -/
def Call.inPlace : Call → InPlace Unit
  | .createToken t n => .createToken t n
  | .freeze a => .write fun l => return l.freeze a
  | .unfreeze a => .write fun l => return l.unfreeze a
  | .transfer s r v memo => .transfer s r v memo
  | .issue r v memo => .issue r v memo
  | .retire s v memo => .retire s v memo

/-! ## No check comes too late -/

/-- The answer to an operation and the ledger after it, which is `l` where the operation fails. -/
def answer (l : Ledger) (o : Outcome LedgerError Ledger) :
    Except Abort (Except LedgerError Unit × Ledger) := do
  match ← o.run with
  | .ok l' => return (.ok (), l')
  | .error e => return (.error e, l)

/-- From `l` on, the computation in place does what is left of an operation on `l₀`. It may fail
only as long as `l` is still `l₀`. -/
def Mirrors (l₀ l : Ledger) (p : InPlace Unit) (o : Outcome LedgerError Ledger) : Prop :=
  p.run.run l = l₀.answer o

namespace Mirrors

variable {α : Type} {l₀ l : Ledger} {o : Outcome LedgerError Ledger} {q : α → InPlace Unit}
  {k : α → Outcome LedgerError Ledger}

/-- Both computations look at the same thing, before anything is written. -/
theorem access {f : Ledger → Outcome LedgerError α}
    (h : ∀ a, (f l).Returns a → l.Mirrors l (q a) (k a)) :
    l.Mirrors l (InPlace.access f >>= q) (f l >>= k) := by
  show ((f l).run >>= _) >>= _ = l.answer (f l >>= k)
  rcases hf : (f l).run with abort | e | a
  · rw [answer, ExceptT.run_bind, hf]
    rfl
  · rw [answer, ExceptT.run_bind, hf]
    rfl
  · have hbind : (f l >>= k).run = (k a).run := by
      rw [ExceptT.run_bind, hf]
      rfl
    rw [answer, hbind]
    exact h a hf

/-- Only the computation in place has to look at what the other one has at hand. -/
theorem peek {f : Ledger → α} (h : l₀.Mirrors l (q (f l)) o) :
    l₀.Mirrors l (InPlace.access (fun l => pure (f l)) >>= q) o := h

/-- An error ends both computations, before anything is written. -/
theorem throw_bind (e : LedgerError) :
    l.Mirrors l (MonadExcept.throw e >>= q) (MonadExcept.throw e >>= k) := rfl

/-- A write can abort and cannot fail. -/
theorem write {m : Except Abort α} {g : α → Ledger} {f : Ledger → Except Abort Ledger}
    {q : Unit → InPlace Unit} (hf : f l = g <$> m) (h : ∀ a, l₀.Mirrors (g a) (q ()) (k a)) :
    l₀.Mirrors l (InPlace.write f >>= q) (liftM m >>= k) := by
  show (f l >>= _) >>= _ = l₀.answer (liftM m >>= k)
  rw [hf]
  rcases m with abort | a
  · rfl
  · exact h a

theorem write_pure {f : Ledger → Except Abort Ledger} {q : Unit → InPlace Unit} {l' : Ledger}
    (hf : f l = .ok l') (h : l₀.Mirrors l' (q ()) o) :
    l₀.Mirrors l (InPlace.write f >>= q) o := by
  show (f l >>= _) >>= _ = l₀.answer o
  rw [hf]
  exact h

/-- A debit checks the balance and writes it after that. -/
theorem debit {a : Account} {v : Asset} {q : Unit → InPlace Unit}
    {k : Ledger → Outcome LedgerError Ledger}
    (h : l.Mirrors (l.setBalance a v.token (l.balanceOf a v.token - v.amount)) (q ())
      (k (l.setBalance a v.token (l.balanceOf a v.token - v.amount)))) :
    l.Mirrors l (InPlace.debit a v >>= q) (l.debit a v >>= k) := by
  unfold InPlace.debit Ledger.debit
  rw [bind_assoc]
  refine .peek ?_
  dsimp only
  split
  · rfl
  · exact h

end Mirrors

variable {l : Ledger}

/-- A registration is found again under the key of its token. -/
theorem resupplied_eq {reg : Registration} {t : Token} {f : Amount → Except Abort Amount}
    (hreg : l.registration? t = some reg) (ht : reg.token = t) :
    l.resupplied t f = l.setSupply reg <$> f reg.supply := by
  subst ht
  unfold resupplied
  rw [hreg]
  rfl

/-! ## Every operation -/

theorem createToken_mirrors (t : Token) (maxSupply : Amount) :
    l.Mirrors l (.createToken t maxSupply) (l.createToken t maxSupply) := by
  unfold InPlace.createToken Ledger.createToken
  split
  · exact .throw_bind _
  · refine .peek ?_
    split
    · exact .throw_bind _
    · rfl

theorem transfer_mirrors (s r : Account) (v : Asset) (memo : String) :
    l.Mirrors l (.transfer s r v memo) (l.transfer s r v memo) := by
  unfold InPlace.transfer Ledger.transfer
  refine .access fun _ _ => .access fun _ _ => .access fun _ _ => ?_
  exact .debit (.write (g := id) (id_map _).symm fun _ => rfl)

theorem issue_mirrors (r : Account) (v : Asset) (memo : String) :
    l.Mirrors l (.issue r v memo) (l.issue r v memo) := by
  unfold InPlace.issue Ledger.issue
  refine .access fun reg hchecked => ?_
  obtain ⟨_, hreg, htoken⟩ := returns_checkToken.1 hchecked
  dsimp only
  split
  · exact .throw_bind _
  -- all that is checked is checked now
  refine .access fun _ _ => .write (g := l.setSupply reg) (resupplied_eq hreg htoken) fun _ => ?_
  exact .write (g := id) (id_map _).symm fun _ => rfl

theorem retire_mirrors (s : Account) (v : Asset) (memo : String) :
    l.Mirrors l (.retire s v memo) (l.retire s v memo) := by
  unfold InPlace.retire Ledger.retire
  refine .access fun reg hchecked => .access fun _ _ => .debit ?_
  obtain ⟨_, hreg, htoken⟩ := returns_checkToken.1 hchecked
  -- the balance that is written is no registration
  exact .write_pure (resupplied_eq (l := l.setBalance s v.token _) hreg htoken) rfl

/-- A call in place answers as the call does, and leaves the ledger of the call, or all as it was
where the call fails. -/
theorem inPlace_mirrors (l : Ledger) (c : Call) : c.inPlace.run.run l = l.answer (l.call c) := by
  cases c with
  | createToken t n => exact createToken_mirrors t n
  | freeze a => rfl
  | unfreeze a => rfl
  | transfer s r v memo => exact transfer_mirrors s r v memo
  | issue r v memo => exact issue_mirrors r v memo
  | retire s v memo => exact retire_mirrors s v memo

end Ledger
end BondingCurve
