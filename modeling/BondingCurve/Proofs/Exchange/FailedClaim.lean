import BondingCurve.Proofs.Exchange.Movement
import BondingCurve.Proofs.Ledger.Cap

/-!
# Claims that fail half way

A claim burns before it pays, and a payout that the ledger refuses does not bring the tokens back:
undoing is left to the caller. So a claim that fails leaves the pool as it was, and the ledger as it
was but for one case, in which just the burn remains. The books before the claim tell that case
(`Pool.Strands`): something is owed, the burn goes through, and the account of the pool is frozen,
is asked for a token that the ledger does not know, or has too little of it. A conversion in which
a claim has failed puts the burn back (`failed_claim_strands_iff`).
-/

namespace BondingCurve

open Outcome

namespace Pool

variable {p : Pool} {l : Ledger} {owner : Account} {value : Asset} {c : ClaimResult Pool}

/-- The value is burned and not paid for: `n` units are owed from the record `r`, the ledger, which
knows the value's token as `reg`, burns, and the account of the pool cannot pay. -/
structure Strands (p : Pool) (l : Ledger) (owner : Account) (value : Asset) (r : ReserveRecord)
    (n : Amount) (reg : Registration) : Prop where
  owes : (p.owed value).Returns (r, n)
  positive : 0 < n
  burns : l.CanRetire reg owner value
  unpayable : l.isFrozen p.account = true ∨ ¬l.Registers r.underlying.token ∨
    l.balanceOf p.account r.underlying.token -
      value.on owner p.account r.underlying.token < n

/-- A claim that fails leaves the pool as it was, and the ledger as it was or with the burn only. -/
theorem Claims.failed {e : ReserveError} (h : p.Claims l owner value c)
    (hfailed : c.payout = .error e) :
    c.reserve = p ∧
      ((c.ledger = l ∧ ∀ r n reg, ¬p.Strands l owner value r n reg) ∨
        (l.retire owner value claimMemo).Returns c.ledger ∧
          ∃ r n reg, p.Strands l owner value r n reg) := by
  cases h with
  | refused refuses =>
    exact ⟨rfl, .inl ⟨rfl, fun r n reg hstrands => refuses.not_returns hstrands.owes⟩⟩
  | unburned _ refuses =>
    refine ⟨rfl, .inl ⟨rfl, fun r n reg hstrands => ?_⟩⟩
    exact refuses.not_returns (Ledger.returns_retire.2 ⟨reg, hstrands.burns, rfl⟩)
  | @unpaid r n burnt e' owes burns positive refuses =>
    obtain ⟨reg, hcan, -⟩ := Ledger.returns_retire.1 burns
    have hcannot := Ledger.exists_fails_transfer_iff.1 ⟨e', refuses⟩
    rw [canTransfer_payout_iff positive hcan burns] at hcannot
    refine ⟨rfl, .inr ⟨burns, r, n, reg, owes, positive, hcan, ?_⟩⟩
    by_contra hpays
    simp only [not_or, not_not, not_lt, Bool.not_eq_true] at hpays
    exact hcannot hpays
  | paid => cases hfailed
  | worthless => cases hfailed

end Pool

namespace Exchange

/-- A claim that fails leaves every record of the pool as it was. The ledger is as it was too,
unless what was owed could not be paid behind the burn; then the burn remains, on the balance of the
owner, on the supply and in the journal, and nothing else has changed. A conversion that fails,
whatever its claim had done, leaves ledger and pool as they were. -/
theorem failed_claim_strands_iff :
    (∀ {p p' : Pool} {l l' : Ledger} {owner : Account} {value : Asset} {e : ReserveError},
      p.claim l owner value = .ok ⟨.error e, l', p'⟩ →
      p' = p ∧
      (l' ≠ l ↔ ∃ r n reg, p.Strands l owner value r n reg) ∧
      (l' ≠ l → l.Effect l' (-value.on owner) (-value.inSupply) ∧
        l'.journal = l.journal ++ [.retire owner value Pool.claimMemo])) ∧
    ∀ {x y : Exchange Pool} {now : Int} {signers : Signers} {sender : Account}
      {given wanted : Asset} {e : ExchangeError},
      x.convert now signers sender given wanted = .ok ⟨.error e, y⟩ →
      y.ledger = x.ledger ∧ y.reserve = x.reserve := by
  constructor
  · intro p p' l l' owner value e h
    obtain ⟨hpool, ⟨hledger, hpaid⟩ | ⟨hburns, hstrands⟩⟩ := (Pool.claim_eq_ok.1 h).failed rfl
    · dsimp only at hpool hledger
      refine ⟨hpool, ⟨fun hne => absurd hledger hne, ?_⟩, fun hne => absurd hledger hne⟩
      rintro ⟨r, n, reg, hstrands⟩
      exact absurd hstrands (hpaid r n reg)
    · dsimp only at hpool hburns
      have hjournal := Ledger.journal_of_retire hburns
      refine ⟨hpool, ⟨fun _ => hstrands, ?_⟩, fun _ => ⟨Ledger.retire_effect hburns, hjournal⟩⟩
      -- the burn is one entry more
      rintro - rfl
      simp at hjournal
  · intro x y now signers sender given wanted e h
    rcases convert_eq_error h with ⟨-, rfl⟩ | ⟨-, -, rfl⟩
    · exact ⟨rfl, rfl⟩
    · exact ⟨rfl, rfl⟩

/-- The account of the reserve is frozen. Alice claims for a hundred units, which are burned and
not paid for; when she sells them, she is refused and keeps them. -/
theorem frozen_reserve_strands :
    ∃ (x y : Exchange Pool) (l : Ledger),
      x.reserve.claim x.ledger Sample.alice ⟨100, Sample.smart⟩ =
        .ok ⟨.error (.ledger (.frozen Pool.defaultAccount)), l, x.reserve⟩ ∧
      (∃ r n reg, x.reserve.Strands x.ledger Sample.alice ⟨100, Sample.smart⟩ r n reg) ∧
      l.balanceOf Sample.alice Sample.smart = x.ledger.balanceOf Sample.alice Sample.smart - 100 ∧
      x.convert 0 [Sample.alice] Sample.alice ⟨100, Sample.smart⟩ ⟨0, Sample.connected⟩ =
        .ok ⟨.error (.reserve (.ledger (.frozen Pool.defaultAccount))), y⟩ ∧
      y.ledger = x.ledger := by
  have hyields : Abort.Yields (inMemory.trace (Sample.backedMarket ++
      [.ledger (.freeze Pool.defaultAccount)])) fun r =>
        Abort.Yields (r.2.reserve.claim r.2.ledger Sample.alice ⟨100, Sample.smart⟩) (fun c =>
          c.payout = .error (.ledger (.frozen Pool.defaultAccount)) ∧
            c.ledger.journal ≠ r.2.ledger.journal) ∧
        Abort.Yields (r.2.convert 0 [Sample.alice] Sample.alice ⟨100, Sample.smart⟩
          ⟨0, Sample.connected⟩) fun reply =>
            reply.answer = .error (.reserve (.ledger (.frozen Pool.defaultAccount))) := by
    decide +kernel
  obtain ⟨⟨_, x⟩, -, ⟨⟨_, l, p⟩, hclaim, rfl, hjournal⟩, ⟨_, y⟩, hconvert, rfl⟩ := hyields
  obtain ⟨hclaims, hconverts⟩ := failed_claim_strands_iff
  obtain ⟨rfl, hiff, hburn⟩ := hclaims hclaim
  have hne : l ≠ x.ledger := fun heq => hjournal (congrArg Ledger.journal heq)
  refine ⟨x, y, l, hclaim, hiff.1 hne, ?_, hconvert, (hconverts hconvert).1⟩
  rw [(hburn hne).1.balanceOf]
  rfl

end Exchange

/-! ## A reserve with less than it says -/

namespace Sample

/-- A hundred units on the account of the reserve, and a thousand smart tokens. -/
def shortLedger : List Ledger.Call :=
  [.createToken connected 1000000, .createToken smart 1000000, .issue alice ⟨1000, smart⟩ "",
    .issue Pool.defaultAccount ⟨100, connected⟩ ""]

/-- A pool that says it has five hundred units, and redeems for two units each. -/
def shortPool : Pool :=
  (Pool.empty Pool.defaultAccount).insert ⟨smart, ⟨500, connected⟩, .ofInt 2⟩

end Sample

namespace Exchange

/-- Two hundred units are owed for Alice's hundred. The claim fails, and her tokens are gone. -/
theorem short_reserve_burns :
    Abort.Yields (Ledger.empty.afterAll Sample.shortLedger) fun l =>
      l.balanceOf Sample.alice Sample.smart = 1000 ∧
      Abort.Yields (Sample.shortPool.claim l Sample.alice ⟨100, Sample.smart⟩) fun c =>
        c.payout = .error (.ledger (.insufficientBalance Pool.defaultAccount 100 200)) ∧
        c.ledger.balanceOf Sample.alice Sample.smart = 900 ∧
        c.ledger.balanceOf Sample.alice Sample.connected = 0 ∧
        c.ledger.registration? Sample.smart = some ⟨Sample.smart, 900, 1000000⟩ ∧
        c.ledger.journal ≠ l.journal := by
  decide +kernel

end Exchange
end BondingCurve
