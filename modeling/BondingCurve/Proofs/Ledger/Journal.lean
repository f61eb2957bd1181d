import BondingCurve.Proofs.Ledger.Conservation
import BondingCurve.Proofs.Ledger.Effect
import BondingCurve.Proofs.Ledger.InPlace

/-!
# The journal of a ledger

The journal has an entry for every operation that moved tokens, and nothing else. `Tally.replay`
adds the entries up, from nothing and without a check; a ledger keeps its balances and its supplies
in two tables under different keys, and whatever is called on it from empty on, both tables are what
the journal adds up to (`replay_journal`). A call that fails is in none of them.
-/

namespace BondingCurve

open Outcome

namespace Ledger

/-! ## Adding entries up -/

/-- Balances and supplies as sums. -/
structure Tally where
  balances : Account → Token → ℤ
  supplies : TokenKey → ℤ

namespace Tally

def zero : Tally := ⟨0, 0⟩

/-- The tally after an entry, whatever was there before. -/
def add (b : Tally) : Entry → Tally
  | .transfer sender receiver value _ =>
    ⟨b.balances - value.on sender + value.on receiver, b.supplies⟩
  | .issue receiver value _ => ⟨b.balances + value.on receiver, b.supplies + value.inSupply⟩
  | .retire sender value _ => ⟨b.balances - value.on sender, b.supplies - value.inSupply⟩

/-- The tally of entries, the oldest one first. -/
def replay (journal : List Entry) : Tally := journal.foldl add zero

end Tally

/-- What a ledger says is in circulation under a key. -/
def supplyUnder (l : Ledger) (k : TokenKey) : ℤ := ((l.tokens.find? k).map (·.supply)).getD 0

/-- What the tables of a ledger say. -/
def tally (l : Ledger) : Tally := ⟨l.balanceOf, l.supplyUnder⟩

/-- The entry that a call is worth when it succeeds. -/
def Call.posting? : Call → Option Entry
  | .transfer sender receiver value memo => some (.transfer sender receiver value memo)
  | .issue receiver value memo => some (.issue receiver value memo)
  | .retire sender value memo => some (.retire sender value memo)
  | .createToken .. | .freeze _ | .unfreeze _ => none

/-! ## Steps -/

variable {l l' : Ledger} {c : Call} {δ : Account → Token → ℤ} {σ : TokenKey → ℤ}

/-- Every key is that of a token. -/
theorem exists_key (k : TokenKey) : ∃ t : Token, t.key = k := ⟨⟨⟨k.code, 0⟩, k.contract⟩, rfl⟩

/-- An effect is added to the tally, if it is on no supply that is not there. -/
theorem Effect.tally_eq (h : l.Effect l' δ σ)
    (hσ : ∀ t, l.registration? t = none → σ t.key = 0) :
    l'.tally = ⟨l.tally.balances + δ, l.tally.supplies + σ⟩ := by
  have hsupplies : l'.supplyUnder = l.supplyUnder + σ := by
    funext k
    obtain ⟨t, rfl⟩ := exists_key k
    show ((l'.registration? t).map (·.supply)).getD 0 =
      ((l.registration? t).map (·.supply)).getD 0 + σ t.key
    rw [h.registration? t]
    rcases hreg : l.registration? t with _ | reg
    · rw [hσ t hreg]
      rfl
    · rfl
  have hbalances : l'.balanceOf = l.balanceOf + δ := by
    funext a t
    exact h.balanceOf a t
  rw [tally, hbalances, hsupplies]
  rfl

/-- A registered token has a supply to add to. -/
theorem inSupply_eq_zero {v : Asset} {reg : Registration}
    (hreg : l.registration? v.token = some reg) {t : Token} (ht : l.registration? t = none) :
    v.inSupply t.key = 0 := by
  refine if_neg fun hkey => ?_
  rw [registration?, hkey, ← registration?, hreg] at ht
  cases ht

/-- A token that is new is registered without a supply. -/
theorem tally_created {t : Token} {n : Amount} (h : l.registration? t = none) :
    (l.created t n).tally = l.tally := by
  have hsupplies : (l.created t n).supplyUnder = l.supplyUnder := by
    funext k
    obtain ⟨u, rfl⟩ := exists_key k
    show (((l.created t n).registration? u).map (·.supply)).getD 0 =
      ((l.registration? u).map (·.supply)).getD 0
    rw [registration?_created]
    split
    · next hkey =>
      rw [registration?, hkey, ← registration?, h]
      rfl
    · rfl
  rw [tally, hsupplies]
  rfl

/-- A call that succeeds adds what its entry says to the tables, and the entry to the journal. -/
theorem call_accounted (h : (l.call c).Returns l') :
    l'.tally = c.posting?.toList.foldl Tally.add l.tally ∧
      l'.journal = l.journal ++ c.posting?.toList := by
  cases c with
  | createToken t n =>
    obtain ⟨-, hnew, rfl⟩ := returns_createToken.1 h
    exact ⟨tally_created hnew, (List.append_nil _).symm⟩
  | freeze a =>
    rw [← returns_pure.1 h]
    unfold Ledger.freeze
    split
    · exact ⟨rfl, (List.append_nil _).symm⟩
    · exact ⟨rfl, (List.append_nil _).symm⟩
  | unfreeze a =>
    rw [← returns_pure.1 h]
    exact ⟨rfl, (List.append_nil _).symm⟩
  | transfer s r v memo =>
    refine ⟨?_, journal_of_transfer h⟩
    rw [(transfer_effect h).tally_eq fun _ _ => rfl, add_zero, ← add_sub_assoc, add_sub_right_comm]
    rfl
  | issue r v memo =>
    refine ⟨?_, journal_of_issue h⟩
    obtain ⟨reg, hcan, -⟩ := returns_issue.1 h
    rw [(issue_effect h).tally_eq fun _ ht => inSupply_eq_zero hcan.registration ht]
    rfl
  | retire s v memo =>
    refine ⟨?_, journal_of_retire h⟩
    obtain ⟨reg, hcan, -⟩ := returns_retire.1 h
    have hσ : ∀ t, l.registration? t = none → (-v.inSupply) t.key = 0 := by
      intro t ht
      rw [Pi.neg_apply, inSupply_eq_zero hcan.registration ht, neg_zero]
    rw [(retire_effect h).tally_eq hσ, ← sub_eq_add_neg, ← sub_eq_add_neg]
    rfl

/-! ## Whole histories -/

theorem replay_afterAll {cs : List Call} (h : empty.afterAll cs = .ok l) :
    Tally.replay l.journal = l.tally := by
  refine afterAll_induction (P := fun l => Tally.replay l.journal = l.tally) ?_ rfl h
  intro l l' c _ hl hcall
  obtain ⟨htally, hjournal⟩ := call_accounted hcall
  rw [hjournal, htally, ← hl, Tally.replay, List.foldl_append, Tally.replay]

/-- Whatever is called on an empty ledger, and whatever of it fails: the journal adds up to the
balances and the supplies, from nothing and without a check. A further call that succeeds appends
its one entry, or none if it moves no tokens, and one that fails leaves the ledger as it was, in
place too, where its writes stand between its checks. -/
theorem replay_journal {cs : List Call} (h : empty.afterAll cs = .ok l) :
    Tally.replay l.journal = ⟨l.balanceOf, l.supplyUnder⟩ ∧ ∀ c : Call,
      (∀ l', (l.call c).Returns l' → c.inPlace.run.run l = .ok (.ok (), l') ∧
        l'.journal = l.journal ++ c.posting?.toList) ∧
      ∀ e, (l.call c).Fails e → c.inPlace.run.run l = .ok (.error e, l) := by
  refine ⟨replay_afterAll h, ?_⟩
  intro c
  rw [inPlace_mirrors]
  constructor
  · intro l' hcall
    refine ⟨?_, (call_accounted hcall).2⟩
    rw [answer, hcall]
    rfl
  · intro e hcall
    rw [answer, hcall]
    rfl

open Sample in
/-- Ten calls of which four move tokens. Their entries add up to what is left, and a call for more
than the cap leaves the ledger as it was. -/
theorem mixed_replays :
    ∃ l, empty.afterAll mixed = .ok l ∧ l.journal.length = 4 ∧
      Tally.replay l.journal = ⟨l.balanceOf, l.supplyUnder⟩ ∧ l.balanceOf other coin = 10 ∧
      l.supplyUnder coin.key = 50 ∧
      (Call.issue other ⟨51, coin⟩ "").inPlace.run.run l =
        .ok (.error (.maxSupplyExceeded coin 51 100), l) := by
  have hrun : Abort.Yields (empty.afterAll mixed) fun l =>
      l.journal.length = 4 ∧ l.balanceOf other coin = 10 ∧ l.supplyUnder coin.key = 50 ∧
        (l.call (.issue other ⟨51, coin⟩ "")).run =
          .ok (.error (.maxSupplyExceeded coin 51 100)) := by
    decide +kernel
  obtain ⟨l, hl, hlength, hbalance, hsupply, hfails⟩ := hrun
  obtain ⟨hreplay, hcalls⟩ := replay_journal hl
  exact ⟨l, hl, hlength, hreplay, hbalance, hsupply, (hcalls _).2 _ hfails⟩

end Ledger
end BondingCurve
