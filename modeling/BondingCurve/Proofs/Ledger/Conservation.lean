import BondingCurve.Proofs.Ledger.Consistency

/-!
# Conservation on a ledger

Supplies stand under a contract and a code, balances under an account and an exact token, and each
operation writes one or both of these tables. From an empty ledger on, whatever is called and
whatever of it fails, the two agree: the balances of a token add up to its supply
(`Consistent.totalHeld`), and there is no row, not even an empty one, for a token that is not
registered exactly so (`HoldsRegistered`). `afterAll_balanced` collects this for a whole history.
-/

namespace BondingCurve

open Outcome

namespace Ledger

variable {l l' : Ledger} {a : Account} {t u : Token} {k : Holding} {m n : Amount}

/-! ## Histories -/

/-- The ledger after a call, and the one before it where the call fails. -/
def after (l : Ledger) (c : Call) : Except Abort Ledger := do
  match ← (l.call c).run with
  | .ok l' => return l'
  | .error _ => return l

/-- The ledger after calls one after the other, if none of them aborts. -/
def afterAll (l : Ledger) (cs : List Call) : Except Abort Ledger := cs.foldlM after l

/-- A call leaves the ledger that it returns, or nothing has happened. -/
theorem after_cases {c : Call} (h : l.after c = .ok l') : (l.call c).Returns l' ∨ l' = l := by
  obtain ⟨result, hresult, h⟩ := Abort.bind_eq_ok.1 h
  rcases result with e | l₁
  · rw [Abort.pure_eq_ok] at h
    exact .inr h.symm
  · rw [Abort.pure_eq_ok] at h
    subst h
    exact .inl hresult

/-- What every call of a history keeps holds after it. -/
theorem afterAll_induction {P : Ledger → Prop} {cs : List Call}
    (hstep : ∀ {l l' : Ledger} {c : Call}, c ∈ cs → P l → (l.call c).Returns l' → P l')
    (hl : P l) (h : l.afterAll cs = .ok l') : P l' := by
  -- the ledger at the head of the history moves, the last one stays
  induction cs generalizing l with
  | nil =>
    rw [afterAll, List.foldlM_nil, Abort.pure_eq_ok] at h
    exact h ▸ hl
  | cons c cs ih =>
    rw [afterAll, List.foldlM_cons] at h
    obtain ⟨l₁, hl₁, h⟩ := Abort.bind_eq_ok.1 h
    apply ih (fun hd => hstep (List.mem_cons_of_mem c hd)) _ h
    rcases after_cases hl₁ with hreturns | rfl
    · exact hstep List.mem_cons_self hl hreturns
    · exact hl

/-! ## The sum that a query computes -/

/-- Where no number is negative, only the last sum can leave the amount range. -/
theorem foldlM_add_eq_ok {ns : List Amount} (hns : ∀ x ∈ ns, 0 ≤ x) (hm : 0 ≤ m)
    (h : m + ns.sum ≤ Amount.greatest) : ns.foldlM Amount.add m = .ok (m + ns.sum) := by
  induction ns generalizing m with
  | nil =>
    rw [List.foldlM_nil, List.sum_nil, add_zero]
    rfl
  | cons x ns ih =>
    have hx : 0 ≤ x := hns x List.mem_cons_self
    have hrest : ∀ y ∈ ns, 0 ≤ y := fun y hy => hns y (List.mem_cons_of_mem x hy)
    have hsum : 0 ≤ ns.sum := List.sum_nonneg hrest
    rw [List.sum_cons, ← add_assoc] at h ⊢
    have hadd : Amount.add m x = .ok (m + x) := by
      rw [Amount.add_eq_ok_iff]
      exact ⟨inRange_of_nonneg (by linarith) (by linarith), rfl⟩
    rw [List.foldlM_cons, hadd]
    exact ih hrest (by linarith) h

/-- The balances of a token are those that some account has. -/
theorem mem_balancesOf : n ∈ l.balancesOf t ↔ ∃ b, l.balances.find? ⟨b, t⟩ = some n := by
  simp only [balancesOf, List.mem_map, List.mem_filter, decide_eq_true_eq]
  constructor
  · intro h
    obtain ⟨⟨⟨b, u⟩, n⟩, ⟨hrow, rfl⟩, rfl⟩ := h
    exact ⟨b, Table.find?_eq_some_iff.2 hrow⟩
  · intro h
    obtain ⟨b, hb⟩ := h
    exact ⟨(⟨b, t⟩, n), ⟨Table.find?_eq_some_iff.1 hb, rfl⟩, rfl⟩

/-- In a consistent ledger the query for all that is held of a token answers with its supply. -/
theorem Consistent.totalHeld {reg : Registration} (h : l.Consistent)
    (hreg : l.registration? t = some reg) (ht : reg.token = t) :
    l.totalHeld t = .ok reg.supply := by
  have hnonneg : ∀ n ∈ l.balancesOf t, 0 ≤ n := by
    intro n hn
    obtain ⟨b, hb⟩ := mem_balancesOf.1 hn
    have hbalance := h.balance_nonneg b t
    rwa [balanceOf, hb] at hbalance
  have hsum : (l.balancesOf t).sum = reg.supply := h.held_eq hreg ht
  have hle : 0 + (l.balancesOf t).sum ≤ Amount.greatest := by
    rw [hsum, zero_add]
    exact h.supply_le_greatest hreg
  have hfold := foldlM_add_eq_ok hnonneg le_rfl hle
  rwa [hsum, zero_add] at hfold

/-! ## Rows of registered tokens only -/

/-- Whoever has a row for a token, the token is registered, precision and all. -/
def HoldsRegistered (l : Ledger) : Prop :=
  ∀ k n, l.balances.find? k = some n → l.Registers k.token

/-- Nobody holds anything at first. -/
theorem holdsRegistered_empty : empty.HoldsRegistered := fun _ _ h => nomatch h

theorem find?_setBalance (h : (l.setBalance a t n).balances.find? k = some m) :
    k.token = t ∨ l.balances.find? k = some m := by
  rw [setBalance, Table.find?_insert] at h
  split at h
  · next hk => exact .inl (by rw [hk])
  · exact .inr h

/-- A change that keeps what is registered and writes rows of one registered token only. -/
theorem HoldsRegistered.of_rows (h : l.HoldsRegistered) (ht : l'.Registers t)
    (hkeep : ∀ u, l.Registers u → l'.Registers u)
    (hrows : ∀ {k n}, l'.balances.find? k = some n →
      k.token = t ∨ ∃ m, l.balances.find? k = some m) : l'.HoldsRegistered := by
  intro k n hk
  rcases hrows hk with htoken | ⟨m, hm⟩
  · exact htoken ▸ ht
  · exact hkeep k.token (h k m hm)

/-- An adjustment is of a registered token. -/
theorem HoldsRegistered.adjusted {reg : Registration} (h : l.HoldsRegistered)
    (hreg : l.registration? t = some reg) (ht : reg.token = t) :
    (l.adjusted reg a t n).HoldsRegistered := by
  have hself : l.registration? reg.token = some reg := ht ▸ hreg
  apply h.of_rows (t := t)
  · rw [registers_adjusted hself]
    exact ⟨reg, hreg, ht⟩
  · intro u hu
    rwa [registers_adjusted hself]
  · intro k n hk
    exact (find?_setBalance hk).imp_right fun hold => ⟨n, hold⟩

/-- Only an operation on a registered token writes a row, and no operation drops a token. -/
theorem HoldsRegistered.call {c : Call} (h : l.HoldsRegistered) (hl : (l.call c).Returns l') :
    l'.HoldsRegistered := by
  cases c with
  | createToken t n =>
    obtain ⟨-, hnew, rfl⟩ := returns_createToken.1 hl
    intro k m hk
    obtain ⟨reg, hreg, htoken⟩ := h k m hk
    refine ⟨reg, ?_, htoken⟩
    rw [registration?_created, if_neg, hreg]
    intro hkey
    rw [registration?, hkey, ← registration?, hnew] at hreg
    cases hreg
  | freeze a =>
    rw [← returns_pure.1 hl]
    unfold Ledger.freeze
    split
    · exact h
    · exact h
  | unfreeze a =>
    rw [← returns_pure.1 hl]
    exact h
  | transfer s r v memo =>
    obtain ⟨hcan, -, rfl⟩ := returns_transfer.1 hl
    refine h.of_rows hcan.registers (fun u hu => hu) ?_
    intro k n hk
    -- the row of the receiver, of the sender, or from before
    rcases find?_setBalance hk with htoken | hk
    · exact .inl htoken
    · exact (find?_setBalance hk).imp_right fun hold => ⟨n, hold⟩
  | issue r v memo =>
    obtain ⟨reg, hcan, -, -, rfl⟩ := returns_issue.1 hl
    exact h.adjusted hcan.registration hcan.token_eq
  | retire s v memo =>
    obtain ⟨reg, hcan, rfl⟩ := returns_retire.1 hl
    exact h.adjusted hcan.registration hcan.token_eq

/-! ## Whole histories -/

/-- After any calls, failed ones among them, the ledger is consistent. -/
theorem consistent_afterAll {cs : List Call} (hcs : ∀ c ∈ cs, c.InRange)
    (h : empty.afterAll cs = .ok l) : l.Consistent :=
  afterAll_induction (fun hc hl hreturns => hl.call (hcs _ hc) hreturns) consistent_empty h

/-- And every balance is in a registered token. -/
theorem holdsRegistered_afterAll {cs : List Call} (h : empty.afterAll cs = .ok l) :
    l.HoldsRegistered :=
  afterAll_induction (P := HoldsRegistered) (fun _ hl hreturns => hl.call hreturns)
    holdsRegistered_empty h

/-- Whatever is called on an empty ledger, and whatever of it fails: a registered token is held to
exactly its supply, which is within its cap; no balance is negative; and every row is of a token
that is registered with its precision. -/
theorem afterAll_balanced {cs : List Call} (hcs : ∀ c ∈ cs, c.InRange)
    (h : empty.afterAll cs = .ok l) :
    (∀ key reg, l.tokens.find? key = some reg →
      reg.token.key = key ∧ l.totalHeld reg.token = .ok reg.supply ∧ 0 ≤ reg.supply ∧
        reg.supply ≤ reg.maxSupply) ∧
    (∀ a t, 0 ≤ l.balanceOf a t) ∧
    ∀ k n, l.balances.find? k = some n → l.Registers k.token := by
  have hl := consistent_afterAll hcs h
  have hholds := holdsRegistered_afterAll h
  refine ⟨?_, hl.balance_nonneg, hholds⟩
  intro key reg hreg
  -- a key is that of some token, and the registration under it is under its own key
  have hkey : reg.token.key = key := hl.key_eq (t := ⟨⟨key.code, 0⟩, key.contract⟩) hreg
  have hself : l.registration? reg.token = some reg := by
    rw [registration?, hkey]
    exact hreg
  exact ⟨hkey, hl.totalHeld hself rfl, hl.supply_nonneg hself, hl.capped hself⟩

/-! ## A history -/

namespace Sample

def coin : Token := ⟨⟨"GXC", 4⟩, ⟨"gxc.token"⟩⟩

def holder : Account := ⟨"alice"⟩

def other : Account := ⟨"bob"⟩

/-- Calls of every kind. The issue beyond the cap, the transfer of a coin with two decimals, and
the transfer to a frozen account fail. -/
def mixed : List Call :=
  [.createToken coin 100, .issue holder ⟨70, coin⟩ "", .issue other ⟨31, coin⟩ "",
    .transfer holder holder ⟨30, coin⟩ "",
    .transfer holder other ⟨1, ⟨⟨"GXC", 2⟩, coin.contract⟩⟩ "", .retire holder ⟨20, coin⟩ "",
    .freeze other, .transfer holder other ⟨5, coin⟩ "", .unfreeze other,
    .transfer holder other ⟨10, coin⟩ ""]

end Sample

open Sample in
theorem mixed_balanced :
    (∀ c ∈ mixed, c.InRange) ∧ Abort.Yields (empty.afterAll mixed) fun l =>
      l.totalHeld coin = .ok 50 ∧ 0 ≤ l.balanceOf other coin ∧
        ∀ k n, l.balances.find? k = some n → l.Registers k.token := by
  have hrange : ∀ c ∈ mixed, c.InRange := by decide
  have hrun : Abort.Yields (empty.afterAll mixed) fun l =>
      l.tokens.find? coin.key = some ⟨coin, 50, 100⟩ := by decide +kernel
  obtain ⟨l, hl, hreg⟩ := hrun
  obtain ⟨htokens, hnonneg, hrows⟩ := afterAll_balanced hrange hl
  obtain ⟨-, hheld, -, -⟩ := htokens coin.key ⟨coin, 50, 100⟩ hreg
  exact ⟨hrange, l, hl, hheld, hnonneg other coin, hrows⟩

end Ledger
end BondingCurve
