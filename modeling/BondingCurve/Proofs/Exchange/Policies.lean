import BondingCurve.Proofs.Exchange.Run
import BondingCurve.Proofs.FeeSchedule

/-!
# Policies that are stored

`setCharge` stores a policy for one token, or the default one. It checks the rate and takes any
fixed part of the connected token, so what it can store are the policies with a rate of no more
than the whole (`stores_iff`). A fixed part below zero counts as none in a fee, but is told from
none where a policy is exempt: such a policy costs one unit with no rate at all, and raising its
fixed part to zero waives that unit. There, and only there, the dearer of two policies is the
cheaper one (`fee_le_fee_iff`).
-/

namespace BondingCurve

open Outcome

namespace Exchange

variable {ρ : Type} {x y : Exchange ρ} {signers : Signers} {now : Int} {rate : Int}
  {fixed : Option Asset} {target : Option Token} {p q : FeePolicy}

/-- The policy of a token, or without one the default policy. -/
def targetPolicy? (x : Exchange ρ) : Option Token → Option FeePolicy
  | none => x.configuration.get?.map (·.defaultPolicy)
  | some smart => x.policy? smart

@[simp] theorem targetPolicy?_emit {payload : Event.Payload} :
    (x.emit now payload).targetPolicy? target = x.targetPolicy? target := by
  cases target <;> rfl

theorem returns_requireRate {r : PerMille} :
    (requireRate rate).Returns r ↔ (r.value : ℤ) = rate ∧ r.value ≤ PerMille.greatest := by
  unfold requireRate PerMille.ofNat?
  by_cases hrate : 0 ≤ rate
  · lift rate to ℕ using hrate
    rw [if_pos (Int.natCast_nonneg _), Int.toNat_natCast]
    by_cases hle : rate ≤ PerMille.greatest
    · rw [if_pos hle]
      simp only [returns_pure, Nat.cast_inj]
      constructor
      · rintro rfl
        exact ⟨rfl, hle⟩
      · rintro ⟨rfl, -⟩
        rfl
    · simp only [if_neg hle, not_returns_throw, Nat.cast_inj, false_iff, not_and, not_le]
      rintro rfl
      exact not_le.1 hle
  · simp only [if_neg hrate, not_returns_throw, false_iff, not_and]
    rintro rfl
    exact absurd (Int.natCast_nonneg _) hrate

/-- What is stored for a target has the rate that was asked for, which is a rate, and the fixed
part that was asked for, or else the one that was stored before. -/
theorem targetPolicy?_of_setCharge
    (h : x.setCharge now signers rate fixed target = .ok ⟨.ok (), y⟩)
    (hp : y.targetPolicy? target = some p) :
    (p.rate.value : ℤ) = rate ∧ p.Bounded ∧
      p.fixed = (fixed.map (·.amount)).getD (((x.targetPolicy? target).map (·.fixed)).getD 0) := by
  obtain ⟨z, payload, hz, rfl⟩ := commit_eq_ok_ok.1 h
  rw [targetPolicy?_emit] at hp
  obtain ⟨-, conf, hconf, -, hset⟩ := returns_setChargeChange.1 hz
  cases target with
  | none =>
    simp only [Option.elim_none, setDefaultPolicy, returns_bind, returns_requireRate, returns_pure,
      Prod.mk.injEq] at hset
    obtain ⟨r, ⟨hrate, hle⟩, rfl, -⟩ := hset
    cases hp
    refine ⟨hrate, hle, ?_⟩
    simp [targetPolicy?, hconf, Configuration.defaultPolicy]
  | some smart =>
    simp only [Option.elim_some, setPolicy, returns_bind, returns_ite, returns_requireRate,
      not_returns_throw, and_false, or_false, returns_pure, Prod.mk.injEq] at hset
    rcases hset with ⟨-, -, rfl, -⟩ | ⟨-, r, ⟨hrate, hle⟩, rfl, -⟩
    · -- the policy of the token has been removed
      simp [targetPolicy?, policy?] at hp
    · simp only [targetPolicy?, policy?, Table.find?_insert_self, Option.some.injEq] at hp
      subst hp
      exact ⟨hrate, hle, rfl⟩

/-- Some request to set a fee makes `p` the policy of its target. -/
def Stores (x : Exchange ρ) (p : FeePolicy) : Prop :=
  ∃ now signers rate fixed target y,
    x.setCharge now signers rate fixed target = .ok ⟨.ok (), y⟩ ∧ y.targetPolicy? target = some p

theorem Stores.bounded (h : x.Stores p) : p.Bounded := by
  obtain ⟨now, signers, rate, fixed, target, y, hset, hp⟩ := h
  exact (targetPolicy?_of_setCharge hset hp).2.1

/-- The exchange with another default policy. -/
def defaulted (x : Exchange ρ) (conf : Configuration) (p : FeePolicy) : Exchange ρ :=
  { x with configuration := x.configuration.set ⟨conf.connected, p.rate, p.fixed, conf.owner⟩ }

/-- An exchange that has a configuration stores every policy with a rate of no more than the whole,
whatever its fixed part, and no other. -/
theorem stores_iff {conf : Configuration} (hconf : x.configuration.get? = some conf) :
    x.Stores p ↔ p.Bounded := by
  refine ⟨Stores.bounded, fun hp => ?_⟩
  have hchange : (x.setChargeChange [x.contract] p.rate.value (some ⟨p.fixed, conf.connected⟩)
      none).Returns (x.defaulted conf p, .chargeUpdated none p) := by
    refine returns_setChargeChange.2 ⟨List.mem_singleton.2 rfl, conf, hconf, ?_, ?_⟩
    · rintro _ ⟨⟩
      rfl
    · exact returns_bind.2 ⟨p.rate, returns_requireRate.2 ⟨rfl, hp⟩, returns_pure.2 rfl⟩
  exact ⟨0, _, _, _, _, _, commit_eq_ok_ok.2 ⟨_, _, hchange, rfl⟩, rfl⟩

/-! ## Raised charges -/

/-- Of two policies that can be stored, the one with no smaller a rate and no smaller a fixed part
has no smaller a fee on any amount, unless it waives the unit that the other one charges for a
fixed part below zero. There the fee falls from one unit to none. -/
theorem fee_le_fee_iff {x' : Exchange ρ} {value : Amount} (hp : x.Stores p) (hq : x'.Stores q)
    (hrate : p.rate.value ≤ q.rate.value) (hfixed : p.fixed ≤ q.fixed)
    (hvalue : Amount.InRange value) :
    ∃ fee fee', p.feeOn value = .ok fee ∧ q.feeOn value = .ok fee' ∧
      (fee ≤ fee' ↔ ¬p.WaivedBy q value) ∧ (p.WaivedBy q value → fee = 1 ∧ fee' = 0) := by
  have hfee := FeePolicy.feeOn_eq_schedule hp.bounded hvalue.2
  have hfee' := FeePolicy.feeOn_eq_schedule hq.bounded hvalue.2
  refine ⟨_, _, hfee, hfee', ?_, ?_⟩
  · exact FeePolicy.schedule_le_schedule_iff hrate hfixed
  · exact FeePolicy.schedule_of_waivedBy hrate

/-- The market can store both, and five thousandths with a fixed part below zero cost no more than
ten thousandths and a hundred. -/
theorem raised_charge_costs_more :
    ∃ x : Exchange Pool, x.Reachable ∧ x.Stores ⟨⟨5⟩, -100⟩ ∧ x.Stores ⟨⟨10⟩, 100⟩ ∧
      ∃ fee fee', (⟨⟨5⟩, -100⟩ : FeePolicy).feeOn 1000 = .ok fee ∧
        (⟨⟨10⟩, 100⟩ : FeePolicy).feeOn 1000 = .ok fee' ∧ fee ≤ fee' := by
  have hyields : Abort.Yields (inMemory.trace Sample.market) fun r =>
      (r.2.configuration.get?).isSome := by
    decide +kernel
  obtain ⟨r, hr, hsome⟩ := hyields
  obtain ⟨conf, hconf⟩ := Option.isSome_iff_exists.1 hsome
  have hp : r.2.Stores ⟨⟨5⟩, -100⟩ := (stores_iff hconf).2 (by decide : 5 ≤ PerMille.greatest)
  have hq : r.2.Stores ⟨⟨10⟩, 100⟩ := (stores_iff hconf).2 (by decide : 10 ≤ PerMille.greatest)
  obtain ⟨fee, fee', hfee, hfee', hle, -⟩ :=
    fee_le_fee_iff hp hq (by decide) (by decide) (by decide : Amount.InRange 1000)
  exact ⟨r.2, Sample.reachable_trace (by decide) hr, hp, hq, fee, fee', hfee, hfee',
    hle.2 fun h => absurd h.2.2 (by decide)⟩

/-- The smart token bears no rate, and its fixed part is raised from one below zero to zero. The fee
on ten units was one, and is waived. -/
theorem raised_fixed_part_is_waived :
    ∃ x y : Exchange Pool, x.Reachable ∧
      x.setCharge 0 [Sample.contract] 0 (some ⟨0, Sample.connected⟩) (some Sample.smart) =
        .ok ⟨.ok (), y⟩ ∧
      x.effectivePolicy Sample.smart = ⟨⟨0⟩, -1⟩ ∧ y.effectivePolicy Sample.smart = ⟨⟨0⟩, 0⟩ ∧
      (x.effectivePolicy Sample.smart).feeOn 10 = .ok 1 ∧
      (y.effectivePolicy Sample.smart).feeOn 10 = .ok 0 := by
  have hyields : Abort.Yields (inMemory.trace (Sample.market ++
      [.setCharge 0 [Sample.contract] 0 (some ⟨-1, Sample.connected⟩) (some Sample.smart)]))
      fun r => r.2.effectivePolicy Sample.smart = ⟨⟨0⟩, -1⟩ ∧
        Abort.Yields (r.2.setCharge 0 [Sample.contract] 0 (some ⟨0, Sample.connected⟩)
          (some Sample.smart)) fun reply => Abort.Yields reply.answer fun _ =>
            reply.exchange.effectivePolicy Sample.smart = ⟨⟨0⟩, 0⟩ := by
    decide +kernel
  obtain ⟨r, hr, hp, ⟨_, y⟩, hset, ⟨⟩, rfl, hq⟩ := hyields
  refine ⟨r.2, y, Sample.reachable_trace (by decide) hr, hset, hp, hq, ?_, ?_⟩
  · have hbounded : (⟨⟨0⟩, -1⟩ : FeePolicy).Bounded := (by decide : 0 ≤ PerMille.greatest)
    rw [hp, FeePolicy.feeOn_eq_schedule hbounded (by decide)]
    rfl
  · rw [show y.effectivePolicy Sample.smart = ⟨⟨0⟩, 0⟩ from hq]
    rfl

end Exchange
end BondingCurve
