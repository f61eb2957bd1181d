import BondingCurve.Proofs.Exchange.Charging

/-!
# At most half goes back

A market order is paid for as far as its output is whole. What the cut took from the output is given
back of the input and, to a buyer, of the fee. Both are unused shares of an output of one unit at
least, so at most half of each goes back (`halves_planBuy`, `halves_planSell`).
`rounding_is_bounded` has this together with the bounds of the rounding itself.
-/

namespace BondingCurve

open Outcome

/-- At most half of what was given, and of the fee that a policy takes, goes back. -/
structure Plan.Halves (p : Plan) (given : Amount) (policy : FeePolicy) (fee : Amount) : Prop where
  given_le : given ≤ 2 * p.pay.amount
  feeOn : policy.feeOn p.charged = .ok fee
  fee_le : fee ≤ 2 * p.fee.amount

namespace Exchange

variable {ρ : Type} [Reserve ρ] {x : Exchange ρ} {given wanted : Asset} {c : Connector}
  {supply amount : Amount} {direction : Direction} {p : Plan}

/-- A market outcome that delivers something shares by one half at least. -/
theorem chosen_sharing {curve chosen : Conversion} {overrideApplied : Bool}
    (h : (x.evaluate c direction .market supply amount).Returns (curve, chosen, overrideApplied))
    (hpos : 0 < chosen.amount) : chosen.Sharing ∧ 1 / 2 ≤ chosen.ratio.toRat := by
  obtain ⟨d, hd⟩ := chosen_ofResult h
  obtain ⟨hvalid, hhalf⟩ := Conversion.half_le_ratio hd hpos
  have houtcome := (returns_evaluate h).outcome
  exact ⟨⟨hvalid, houtcome.ratio_nonneg, houtcome.ratio_le_one⟩, hhalf⟩

theorem halves_planBuy (hin : Amount.InRange given.amount)
    (h : (x.planBuy c supply given).Returns p) :
    ∃ fee, p.Halves given.amount (x.effectivePolicy c.smart) fee := by
  obtain ⟨charged, curve, chosen, overrideApplied, unused, excess, hcharged, hnet, hevaluate,
    hchosen, hunused, hshare, rfl⟩ := returns_planBuy h
  obtain ⟨hfee, hrest⟩ := FeePolicy.charge_nonRequired hcharged
  have hfeeOn := FeePolicy.feeOn_of_charge hcharged
  obtain ⟨hsharing, hhalf⟩ := chosen_sharing hevaluate hchosen
  have hnetIn : Amount.InRange charged.net :=
    ⟨le_trans (by decide) hnet.le, le_trans (by linarith) hin.2⟩
  have hunusedHalf : 2 * unused ≤ charged.net := by
    have hle := Conversion.two_mul_unusedShare_le hsharing hhalf hnetIn hunused
    rwa [max_eq_left hnet.le] at hle
  have hexcessHalf : 2 * excess ≤ charged.fee := by
    rcases hshare with ⟨-, hexcess⟩ | ⟨-, rfl⟩
    · have hle := Conversion.two_mul_unusedShare_le hsharing hhalf
        (FeePolicy.feeOn_inRange hfeeOn) hexcess
      rwa [max_eq_left hfee] at hle
    · linarith
  refine ⟨charged.fee, ?_, ?_, ?_⟩
  · show given.amount ≤ 2 * (given.amount - (unused + excess))
    linarith
  · show (x.effectivePolicy c.smart).feeOn (given.amount - (unused + excess) + (unused + excess)) =
      .ok charged.fee
    rw [Int.sub_add_cancel, hfeeOn]
  · show charged.fee ≤ 2 * (charged.fee - excess)
    linarith

/-- A seller's fee is taken of what he is paid, so nothing of it goes back. -/
theorem halves_planSell (hgiven : 0 < given.amount) (hin : Amount.InRange given.amount)
    (h : (x.planSell c supply given wanted).Returns p) :
    ∃ fee, p.Halves given.amount (x.effectivePolicy c.smart) fee := by
  obtain ⟨charged, curve, chosen, overrideApplied, unused, hevaluate, hcharged, hnet, hunused,
    rfl⟩ := returns_planSell h
  obtain ⟨hfee, hrest⟩ := FeePolicy.charge_nonRequired hcharged
  have hsum : charged.net + charged.fee = chosen.amount := by
    rw [hrest, Int.sub_add_cancel]
  obtain ⟨hsharing, hhalf⟩ := chosen_sharing hevaluate (by linarith)
  have hunusedHalf : 2 * unused ≤ given.amount := by
    have hle := Conversion.two_mul_unusedShare_le hsharing hhalf hin hunused
    rwa [max_eq_left hgiven.le] at hle
  refine ⟨charged.fee, ?_, ?_, ?_⟩
  · show given.amount ≤ 2 * (given.amount - unused)
    linarith
  · show (x.effectivePolicy c.smart).feeOn (charged.net + charged.fee) = .ok charged.fee
    rw [hsum, FeePolicy.feeOn_of_charge hcharged]
  · show charged.fee ≤ 2 * charged.fee
    linarith

theorem halves_plan (hin : Amount.InRange given.amount) (h : (x.plan given wanted).Returns (p, c))
    (hmarket : p.mode = .market) :
    ∃ fee, p.Halves given.amount (x.effectivePolicy p.smart) fee := by
  obtain ⟨direction, mode, reg, hmode, -, -, hp⟩ := returns_planBy h
  obtain ⟨hsmart, hmode', -⟩ := planBy_eq hp
  have hfits := Mode.returns_ofRequest.1 hmode
  rw [hsmart]
  obtain rfl : mode = .market := hmode'.symm.trans hmarket
  cases direction with
  | buy => exact halves_planBuy hin hp
  | sell => exact halves_planSell hfits.1 hin hp

/-- A result is cut down or rounded up to whole units, a negative one as zero, and the realized
share lies between nothing and the whole. The unused share of every amount can be worked out, grows
with the amount and is part of it, and where a cut-down result delivers something it is at most
half. So in every market order that an exchange plans, whichever outcome it uses, at least half of
the input and of the fee is kept. -/
theorem rounding_is_bounded :
    (∀ t : Decimal, t.Valid →
      (∀ c, (Conversion.truncated t).Returns c →
        c.amount = ⌊max t.toRat 0⌋ ∧ 0 ≤ c.ratio.toRat ∧ c.ratio.toRat ≤ 1) ∧
      (∀ c, (Conversion.roundedUp t).Returns c →
        c.amount = ⌈max t.toRat 0⌉ ∧ 0 ≤ c.ratio.toRat ∧ c.ratio.toRat ≤ 1) ∧
      ∀ c, (Conversion.truncated t).Returns c ∨ (Conversion.roundedUp t).Returns c →
        ∀ n m, Amount.InRange n → Amount.InRange m → n ≤ m →
          ∃ u v, c.unusedShare n = .ok u ∧ c.unusedShare m = .ok v ∧ u ≤ v ∧
            0 ≤ u ∧ u ≤ max n 0 ∧
            ((Conversion.truncated t).Returns c → 1 ≤ c.amount → 2 * u ≤ max n 0)) ∧
    ∀ (x : Exchange ρ) (given wanted : Asset) (p : Plan) (c : Connector),
      Amount.InRange given.amount → (x.plan given wanted).Returns (p, c) → p.mode = .market →
        given.amount ≤ 2 * p.pay.amount ∧
        ∃ fee, (x.effectivePolicy p.smart).feeOn p.charged = .ok fee ∧ fee ≤ 2 * p.fee.amount := by
  refine ⟨fun t ht => ⟨fun c h => ?_, fun c h => ?_, fun c h n m hn hm hnm => ?_⟩,
    fun x given wanted p c hin h hmarket => ?_⟩
  · obtain ⟨htheoretical, houtcome⟩ := Conversion.truncated_isOutcome h
    refine ⟨?_, houtcome.ratio_nonneg, houtcome.ratio_le_one⟩
    rw [houtcome.amount_eq, htheoretical, Decimal.toRat_max, Decimal.toRat_zero]
    rfl
  · obtain ⟨htheoretical, houtcome⟩ := Conversion.roundedUp_isOutcome h
    refine ⟨?_, houtcome.ratio_nonneg, houtcome.ratio_le_one⟩
    rw [houtcome.amount_eq, htheoretical, Decimal.toRat_max, Decimal.toRat_zero]
    rfl
  · obtain ⟨mode, h⟩ : ∃ mode, (Curve.ofResult mode t).Returns c :=
      h.elim (fun h => ⟨.market, h⟩) (fun h => ⟨.exact, h⟩)
    have houtcome := (Conversion.ofResult_isOutcome h).2
    have hsharing := Conversion.ofResult_sharing ht h
    obtain ⟨u, hu⟩ := Conversion.exists_unusedShare hsharing hn
    obtain ⟨v, hv⟩ := Conversion.exists_unusedShare hsharing hm
    refine ⟨u, v, hu, hv, Conversion.unusedShare_mono hsharing hnm hn hm hu hv,
      Conversion.unusedShare_nonneg hu, Conversion.unusedShare_le_max houtcome hsharing hn hu,
      fun htruncated hamount => ?_⟩
    exact Conversion.two_mul_unusedShare_le hsharing
      (Conversion.half_le_ratio htruncated hamount).2 hn hu
  · obtain ⟨fee, hhalves⟩ := halves_plan hin h hmarket
    exact ⟨hhalves.given_le, fee, hhalves.feeOn, hhalves.fee_le⟩

/-- Ten and a half is cut down to ten, and four of a hundred are unused. A buyer gets back the one
unit of four that bought nothing, and a third of a fee of five hundred. -/
theorem third_goes_back :
    (∃ c, (Conversion.truncated ⟨105, 1, false⟩).Returns c ∧ c.amount = 10 ∧
      c.unusedShare 100 = .ok 4 ∧
      ∃ u v, c.unusedShare 83 = .ok u ∧ c.unusedShare 100 = .ok v ∧ u ≤ v ∧ 2 * u ≤ 83) ∧
    ∃ (x : Exchange Pool) (p : Plan) (c : Connector), x.Reachable ∧
      (x.plan ⟨504, Sample.connected⟩ ⟨0, Sample.smart⟩).Returns (p, c) ∧ p.mode = .market ∧
      p.refund.amount = 167 ∧ 504 ≤ 2 * p.pay.amount ∧
      ∃ fee, (x.effectivePolicy p.smart).feeOn p.charged = .ok fee ∧ fee ≤ 2 * p.fee.amount := by
  have hbounded := rounding_is_bounded (ρ := Pool)
  constructor
  · have hcut : (Conversion.truncated ⟨105, 1, false⟩).Returns
        ⟨10, ⟨105, 1, false⟩, ⟨9523809523809523809523809524, 28, false⟩⟩ := by
      show (Conversion.truncated _).run = _
      decide +kernel
    have hvalid : (⟨105, 1, false⟩ : Decimal).Valid := ⟨by decide, by decide, by decide⟩
    obtain ⟨u, v, hu, hv, huv, -, -, hhalf⟩ :=
      (hbounded.1 _ hvalid).2.2 _ (.inl hcut) 83 100 (by decide) (by decide) (by decide)
    exact ⟨_, hcut, rfl, by decide +kernel, u, v, hu, hv, huv, hhalf hcut (by decide)⟩
  · have hyields : Abort.Yields (inMemory.trace (Sample.market ++
        [.setCharge 0 [Sample.contract] 0 (some ⟨500, Sample.connected⟩) (some Sample.smart)]))
        fun r => Abort.Yields (r.2.plan ⟨504, Sample.connected⟩ ⟨0, Sample.smart⟩).run
          fun answer => Abort.Yields answer fun planned =>
            planned.1.mode = .market ∧ planned.1.refund.amount = 167 := by
      decide +kernel
    obtain ⟨r, hr, _, hplan, ⟨p, c⟩, rfl, hmarket, hrefund⟩ := hyields
    obtain ⟨hpay, hfee⟩ := hbounded.2 r.2 _ _ p c (by decide) hplan hmarket
    exact ⟨r.2, p, c, Sample.reachable_trace (by decide) hr, hplan, hmarket, hrefund, hpay, hfee⟩

end Exchange
end BondingCurve
