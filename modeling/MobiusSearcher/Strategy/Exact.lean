/-
# Where pricing is exact

The profit the tip policy is asked about, the floor under the final output and
the values of the inventory, each against its exact sum. The casts of amounts
to `i64` and the products on `i128` leave their range for amounts a `u64`
holds; `pricing_exact_iff` says for which amounts each result is the exact one,
clamped to its type.

Key definitions: `PassesProfit`, `ProfitFits`, `inventoryWorth`, `SumFits`,
`requiredWorth`, `RequiredFits`.
Key theorems: `profitBeforeTip_eq_clamp`, `sumToBase_eq_ok`,
`requiredFinalOut_eq_clamp`, `pricing_exact_iff`.
-/
import MobiusSearcher.Strategy.Pricing
import MobiusSearcher.Core.Cover
import Mathlib.Algebra.BigOperators.Group.Finset.Basic

namespace MobiusSearcher

open Machine

/-! ### The profit before the tip -/

/-- Where the profit before the tip, of amounts cast to `i64`, is the exact one clamped:
the casts take `2⁶⁴` off as often as they add it, and no difference leaves the range. -/
def ProfitFits (grossOutput input total : ℕ) : Prop :=
  (-2 ^ 63 ≤ (grossOutput : ℤ) - input - total ∧ total < 2 ^ 63 ∧
    (grossOutput < 2 ^ 63 ∧ input < 2 ^ 63 ∨ 2 ^ 63 ≤ grossOutput ∧ 2 ^ 63 ≤ input)) ∨
  (input + 2 ^ 63 ≤ grossOutput ∧ input < 2 ^ 63 ∧ 2 ^ 63 ≤ total)

instance (grossOutput input total : ℕ) : Decidable (ProfitFits grossOutput input total) :=
  inferInstanceAs (Decidable (_ ∨ _))

/-- A `u64` cast to `i64`: itself, or `2⁶⁴` less from `2⁶³` on. -/
theorem asI64_spec {x : ℕ} (hx : x < 2 ^ 64) :
    x < 2 ^ 63 ∧ asI64 x = x ∨ 2 ^ 63 ≤ x ∧ asI64 x = x - 18446744073709551616 := by
  have hcast : asI64 x = Int.bmod x (2 ^ 64) := rfl
  rw [hcast, Int.bmod_def]
  omega

theorem clampI64_spec (x : ℤ) : x < -2 ^ 63 ∧ clampI64 x = -2 ^ 63 ∨
    (-2 ^ 63 ≤ x ∧ x < 2 ^ 63) ∧ clampI64 x = x ∨ 2 ^ 63 ≤ x ∧ clampI64 x = 2 ^ 63 - 1 := by
  unfold clampI64 i64Min i64Max
  omega

theorem int64_eq_ok {x y : ℤ} : Checked.int 64 x = .ok y ↔ (-2 ^ 63 ≤ x ∧ x < 2 ^ 63) ∧ y = x := by
  have h := @Checked.int_eq_ok 64 x y
  rw [show 64 - 1 = 63 from rfl] at h
  exact h

theorem profitBeforeTip_eq_ok {grossOutput input total : ℕ} {d : ℤ} :
    profitBeforeTip grossOutput input total = .ok d ↔
      (-2 ^ 63 ≤ asI64 grossOutput - asI64 input ∧ asI64 grossOutput - asI64 input < 2 ^ 63) ∧
      (-2 ^ 63 ≤ asI64 grossOutput - asI64 input - asI64 total ∧
        asI64 grossOutput - asI64 input - asI64 total < 2 ^ 63) ∧
      d = asI64 grossOutput - asI64 input - asI64 total := by
  unfold profitBeforeTip
  rw [Checked.bind_eq_ok]
  constructor
  · rintro ⟨gross, hgross, hd⟩
    rw [int64_eq_ok] at hgross hd
    rw [hgross.2] at hd
    exact ⟨hgross.1, hd.1, hd.2⟩
  · rintro ⟨hgross, hd, heq⟩
    exact ⟨_, int64_eq_ok.mpr ⟨hgross, rfl⟩, int64_eq_ok.mpr ⟨hd, heq⟩⟩

/-- The exact profit, clamped, exactly where the amounts fit. -/
theorem profitBeforeTip_eq_clamp {grossOutput input total : ℕ} (ho : grossOutput < 2 ^ 64) (hi : input < 2 ^ 64)
    (ht : total < 2 ^ 64) :
    profitBeforeTip grossOutput input total = .ok (clampI64 (grossOutput - input - total)) ↔
      ProfitFits grossOutput input total := by
  have hout := asI64_spec ho
  have hinput := asI64_spec hi
  have htotal := asI64_spec ht
  have hclamp := clampI64_spec (grossOutput - input - total)
  rw [profitBeforeTip_eq_ok]
  unfold ProfitFits
  generalize asI64 grossOutput = out at hout ⊢
  generalize asI64 input = spent at hinput ⊢
  generalize asI64 total = cost at htotal ⊢
  generalize clampI64 (grossOutput - input - total) = exact at hclamp ⊢
  omega

theorem exists_ok_iff_forall {α : Type} {x : Checked α} {P : α → Prop} (h : ∃ a, x = .ok a) :
    (∃ a, x = .ok a ∧ P a) ↔ ∀ a, x = .ok a → P a := by
  obtain ⟨b, hb⟩ := h
  constructor
  · rintro ⟨a, ha, hp⟩ c hc
    rw [ha] at hc
    exact Except.ok.inj hc ▸ hp
  · intro hall
    exact ⟨b, hb, hall b hb⟩

/-- The tip policy is asked about the exact profit, clamped to an `i64`. -/
def PassesProfit (costs : Checked CostBreakdown) (grossOutput input : ℕ) (profit : Checked ℤ) : Prop :=
  ∃ preTip, costs = .ok preTip ∧ profit = .ok (clampI64 (grossOutput - input - preTip.total))

theorem total_lt (c : CostBreakdown) : c.total < 2 ^ 64 := by
  have hle : c.total ≤ u64Max := c.total_eq ▸ min_le_right _ _
  have hmax : u64Max < 2 ^ 64 := by decide
  exact lt_of_le_of_lt hle hmax

theorem passesProfit_iff {costs : Checked CostBreakdown} {grossOutput input : ℕ} (ho : grossOutput < 2 ^ 64)
    (hi : input < 2 ^ 64) :
    PassesProfit costs grossOutput input
        (costs >>= fun preTip => profitBeforeTip grossOutput input preTip.total) ↔
      ∃ preTip, costs = .ok preTip ∧ ProfitFits grossOutput input preTip.total := by
  unfold PassesProfit
  constructor
  · rintro ⟨preTip, hcosts, hprofit⟩
    rw [hcosts, Checked.ok_bind] at hprofit
    exact ⟨preTip, hcosts, (profitBeforeTip_eq_clamp ho hi (total_lt preTip)).mp hprofit⟩
  · rintro ⟨preTip, hcosts, hfits⟩
    refine ⟨preTip, hcosts, ?_⟩
    rw [hcosts, Checked.ok_bind]
    exact (profitBeforeTip_eq_clamp ho hi (total_lt preTip)).mpr hfits

theorem grossOutput_lt {legs : List Leg} (h : ∀ leg ∈ legs, leg.outAmount < 2 ^ 64) : grossOutput legs < 2 ^ 64 := by
  unfold grossOutput
  cases hlast : legs.getLast? with
  | none => exact Nat.two_pow_pos 64
  | some last => exact h last (List.mem_of_getLast? hlast)

theorem costsFor_eq_ok {legs : List Leg} {input tip atas : ℕ} {shape : TxShape} {cuUsed : Option (List ℕ)}
    {p : CostParams} {c : CostBreakdown} :
    costsFor legs input shape cuUsed tip atas p = .ok c ↔
      computeCosts ⟨legs, input, shape, cuUsed, (legs.filterMap Leg.cuPriceMicro).max?.getD 0, tip, atas, 0⟩ p =
        some c :=
  Checked.orPanic_eq_ok

/-- What a priced opportunity tips is the policy's answer for that profit. -/
theorem price_eq_ok {inp : PricingInput} {env : PricingEnv} {opp : Opportunity} (h : price inp env = .ok opp) :
    ∃ profit, priceProfit inp env = .ok profit ∧ opp.costs.jitoTip = (env.tip profit).lamports := by
  unfold price at h
  obtain ⟨profit, hprofit, h⟩ := Checked.bind_eq_ok.mp h
  obtain ⟨costs, hcosts, h⟩ := Checked.bind_eq_ok.mp h
  refine ⟨profit, hprofit, ?_⟩
  cases h
  exact computeCosts_jitoTip (costsFor_eq_ok.mp hcosts)

/-- So is the tip of one that is priced again. -/
theorem reprice_eq_ok {opp priced : Opportunity} {shape : TxShape} {cuUsed : List ℕ} {delta : Option ℤ}
    {deposits : Option ℕ} {atas baseDecimals : ℕ} {env : PricingEnv} {now : Ts}
    (h : repriceAfterSimulation opp shape cuUsed delta deposits atas env baseDecimals now = .ok priced) :
    ∃ profit, repriceProfit opp shape cuUsed atas env = .ok profit ∧ priced.costs.jitoTip = (env.tip profit).lamports := by
  unfold repriceAfterSimulation at h
  obtain ⟨profit, hprofit, h⟩ := Checked.bind_eq_ok.mp h
  obtain ⟨costs, hcosts, h⟩ := Checked.bind_eq_ok.mp h
  obtain ⟨net, -, h⟩ := Checked.bind_eq_ok.mp h
  refine ⟨profit, hprofit, ?_⟩
  cases h
  exact computeCosts_jitoTip (costsFor_eq_ok.mp hcosts)

/-- There are costs unless a transaction used more units than the network allows. -/
theorem costsFor_exists {legs : List Leg} {input tip atas : ℕ} {shape : TxShape} {cuUsed : Option (List ℕ)}
    {p : CostParams} :
    (∃ c, costsFor legs input shape cuUsed tip atas p = .ok c) ↔
      ∀ used, cuUsed = some used → ∀ u ∈ used, u ≤ maxComputeUnitsPerTx := by
  simp only [costsFor_eq_ok]
  rw [← Option.ne_none_iff_exists', Ne, computeCosts_eq_none, ← Ne, cuLimits_ne_none]

/-! ### Values of the inventory -/

/-- It is in the range of an `i128`. -/
def FitsI128 (x : ℤ) : Prop := -2 ^ 127 ≤ x ∧ x < 2 ^ 127

instance (x : ℤ) : Decidable (FitsI128 x) := inferInstanceAs (Decidable (_ ∧ _))

theorem int128_eq_ok {x y : ℤ} : Checked.int 128 x = .ok y ↔ FitsI128 x ∧ y = x := by
  have h := @Checked.int_eq_ok 128 x y
  rw [show 128 - 1 = 127 from rfl] at h
  exact h

/-- The exact value in base units of an amount after leg `i`, truncated. -/
def legWorth (legs : List Leg) (i : ℕ) (amount : ℤ) : ℤ :=
  match legs[i + 1]?, legs.getLast? with
  | some next, some last => (amount * last.outAmount).tdiv next.inAmount
  | _, _ => 0

/-- The product the value is a quotient of fits, unless the leg spends nothing. -/
def ProductFits (legs : List Leg) (i : ℕ) (amount : ℤ) : Prop :=
  match legs[i + 1]?, legs.getLast? with
  | some next, some last => next.inAmount = 0 ∨ FitsI128 (amount * last.outAmount)
  | _, _ => True

theorem toBase_eq_ok {legs : List Leg} {i : ℕ} {amount v : ℤ} :
    toBase legs i amount = .ok v ↔ ProductFits legs i amount ∧ v = legWorth legs i amount := by
  unfold toBase ProductFits legWorth
  cases legs[i + 1]? with
  | none => exact ⟨fun h => ⟨trivial, (Except.ok.inj h).symm⟩, fun h => congrArg _ h.2.symm⟩
  | some next =>
    cases legs.getLast? with
    | none => exact ⟨fun h => ⟨trivial, (Except.ok.inj h).symm⟩, fun h => congrArg _ h.2.symm⟩
    | some last =>
      show (if next.inAmount = 0 then _ else _) = _ ↔ (next.inAmount = 0 ∨ FitsI128 (amount * last.outAmount)) ∧
        v = (amount * last.outAmount).tdiv next.inAmount
      by_cases hzero : next.inAmount = 0
      · rw [if_pos hzero, hzero, Nat.cast_zero, Int.tdiv_zero]
        exact ⟨fun h => ⟨.inl rfl, (Except.ok.inj h).symm⟩, fun h => congrArg _ h.2.symm⟩
      · rw [if_neg hzero, Checked.bind_eq_ok]
        constructor
        · rintro ⟨scaled, hscaled, hv⟩
          rw [int128_eq_ok] at hscaled
          rw [hscaled.2] at hv
          exact ⟨.inr hscaled.1, (Except.ok.inj hv).symm⟩
        · rintro ⟨hfits, hv⟩
          exact ⟨_, int128_eq_ok.mpr ⟨hfits.resolve_left hzero, rfl⟩, congrArg _ hv.symm⟩

/-- The exact value of the amounts after the first `n` legs. -/
def inventoryWorth (legs : List Leg) (amount : ℕ → ℤ) (n : ℕ) : ℤ :=
  ∑ i ∈ Finset.range n, legWorth legs i (amount i)

/-- Every product and every partial sum of the first `n` values is in the range of an `i128`. -/
def SumFits (legs : List Leg) (amount : ℕ → ℤ) (n : ℕ) : Prop :=
  ∀ i < n, ProductFits legs i (amount i) ∧ FitsI128 (inventoryWorth legs amount (i + 1))

theorem sumFits_succ {legs : List Leg} {amount : ℕ → ℤ} {n : ℕ} : SumFits legs amount (n + 1) ↔
    SumFits legs amount n ∧ ProductFits legs n (amount n) ∧ FitsI128 (inventoryWorth legs amount (n + 1)) := by
  constructor
  · intro h
    exact ⟨fun i hi => h i (Nat.lt_succ_of_lt hi), h n (Nat.lt_succ_self n)⟩
  · rintro ⟨h, hlast⟩ i hi
    rcases Nat.lt_succ_iff_lt_or_eq.mp hi with hlt | rfl
    · exact h i hlt
    · exact hlast

theorem sumRange_eq_ok {legs : List Leg} {amount : ℕ → ℤ} : ∀ {n : ℕ} {v : ℤ},
    ((List.range n).foldlM (fun sum i => do
      let v ← toBase legs i (amount i)
      Checked.int 128 (sum + v)) 0 : Checked ℤ) = .ok v ↔
      SumFits legs amount n ∧ v = inventoryWorth legs amount n
  | 0, v => ⟨fun h => ⟨fun i hi => absurd hi (Nat.not_lt_zero i), (Except.ok.inj h).symm⟩,
      fun h => congrArg _ h.2.symm⟩
  | n + 1, v => by
    have hsum : inventoryWorth legs amount (n + 1) = inventoryWorth legs amount n + legWorth legs n (amount n) :=
      Finset.sum_range_succ _ n
    rw [List.range_succ, List.foldlM_append, Checked.bind_eq_ok, sumFits_succ, hsum]
    constructor
    · rintro ⟨s, hs, hv⟩
      obtain ⟨hfits, rfl⟩ := sumRange_eq_ok.mp hs
      rw [List.foldlM_cons, Checked.bind_eq_ok] at hv
      obtain ⟨s', hs', hv⟩ := hv
      obtain ⟨w, hw, hs'⟩ := Checked.bind_eq_ok.mp hs'
      obtain ⟨hproduct, rfl⟩ := toBase_eq_ok.mp hw
      rw [int128_eq_ok] at hs'
      cases hv
      exact ⟨⟨hfits, hproduct, hs'.1⟩, hs'.2⟩
    · rintro ⟨⟨hfits, hproduct, hrange⟩, hv⟩
      refine ⟨_, sumRange_eq_ok.mpr ⟨hfits, rfl⟩, ?_⟩
      rw [List.foldlM_cons, Checked.bind_eq_ok]
      refine ⟨v, Checked.bind_eq_ok.mpr ⟨_, toBase_eq_ok.mpr ⟨hproduct, rfl⟩, ?_⟩, rfl⟩
      exact int128_eq_ok.mpr ⟨hrange, hv⟩

theorem sumToBase_eq_ok {legs : List Leg} {amount : ℕ → ℤ} {v : ℤ} : sumToBase legs amount = .ok v ↔
    SumFits legs amount (legs.length - 1) ∧ v = inventoryWorth legs amount (legs.length - 1) :=
  sumRange_eq_ok

/-- What leg `i` can deliver less than quoted. -/
def shortOf (legs : List Leg) (i : ℕ) : ℤ :=
  ((outAmountAt legs i - (legs[i]?.map Leg.minOut).getD 0 : ℕ) : ℤ)

/-- What leg `i` delivered more than the next one spends. -/
def surplusOf (legs : List Leg) (executed : List ℕ) (i : ℕ) : ℤ :=
  (executed[i]?.getD 0 : ℤ) - (legs[i + 1]?.map Leg.inAmount).getD 0

theorem inventoryWorth_nonneg {legs : List Leg} {amount : ℕ → ℤ} (h : ∀ i, 0 ≤ amount i) (n : ℕ) :
    0 ≤ inventoryWorth legs amount n := by
  apply Finset.sum_nonneg
  intro i _
  unfold legWorth
  cases legs[i + 1]? with
  | none => exact le_rfl
  | some next =>
    cases legs.getLast? with
    | none => exact le_rfl
    | some last => exact Int.tdiv_nonneg (mul_nonneg (h i) (Int.natCast_nonneg _)) (Int.natCast_nonneg _)

/-- The exact worst case of the intermediate legs. -/
def shortfallWorth (legs : List Leg) : ℤ := inventoryWorth legs (shortOf legs) (legs.length - 1)

theorem shortfallWorth_nonneg (legs : List Leg) : 0 ≤ shortfallWorth legs :=
  inventoryWorth_nonneg (fun _ => Int.natCast_nonneg _) _

/-- The nearest `u64`. -/
def clampU64 (x : ℤ) : ℕ := (min (max x 0) u64Max).toNat

theorem intermediateShortfallValue_eq_ok {legs : List Leg} {v : ℕ} : intermediateShortfallValue legs = .ok v ↔
    SumFits legs (shortOf legs) (legs.length - 1) ∧ v = clampU64 (shortfallWorth legs) := by
  unfold intermediateShortfallValue
  rw [Checked.bind_eq_ok]
  constructor
  · rintro ⟨w, hw, hv⟩
    obtain ⟨hfits, rfl⟩ := sumToBase_eq_ok.mp hw
    exact ⟨hfits, (Except.ok.inj hv).symm⟩
  · rintro ⟨hfits, rfl⟩
    exact ⟨_, sumToBase_eq_ok.mpr ⟨hfits, rfl⟩, rfl⟩

/-- With an executed output for every intermediate leg. -/
theorem intermediateDriftValue_eq_ok {legs : List Leg} {executed : List ℕ} {v : Option ℤ}
    (h : legs.length - 1 ≤ executed.length) : intermediateDriftValue legs executed = .ok v ↔
    SumFits legs (surplusOf legs executed) (legs.length - 1) ∧
      v = some (clampI64 (inventoryWorth legs (surplusOf legs executed) (legs.length - 1))) := by
  unfold intermediateDriftValue
  by_cases hshort : legs.length < 2
  · have hn : legs.length - 1 = 0 := by omega
    rw [if_pos hshort, hn]
    have hzero : clampI64 (inventoryWorth legs (surplusOf legs executed) 0) = 0 := by
      rw [inventoryWorth, Finset.sum_range_zero]
      decide
    rw [hzero]
    exact ⟨fun hv => ⟨fun i hi => absurd hi (Nat.not_lt_zero i), (Except.ok.inj hv).symm⟩,
      fun hv => congrArg _ hv.2.symm⟩
  · rw [if_neg hshort, if_neg (Nat.not_lt.mpr h), Checked.bind_eq_ok]
    constructor
    · rintro ⟨w, hw, hv⟩
      obtain ⟨hfits, rfl⟩ := sumToBase_eq_ok.mp hw
      exact ⟨hfits, (Except.ok.inj hv).symm⟩
    · rintro ⟨hfits, rfl⟩
      exact ⟨_, sumToBase_eq_ok.mpr ⟨hfits, rfl⟩, rfl⟩

/-! ### The floor under the final output -/

/-- The parts of the total, added up without a limit. -/
def CostBreakdown.parts (c : CostBreakdown) : ℕ :=
  c.baseFee + c.priorityFee + c.jitoTip + c.expectedSlippage + c.safetyBuffer + c.platformFee

/-- The exact sum of what the final output has to make up for. -/
def requiredWorth (opp : Opportunity) (guards : ProfitGuards) : ℤ :=
  opp.input + (opp.costs.parts - opp.costs.expectedSlippage) + shortfallWorth opp.legs + guards.minProfitLamports

/-- No part of the floor saturates before the sum is made, or the sum is past an end of the
range even so. -/
def RequiredFits (opp : Opportunity) (guards : ProfitGuards) : Prop :=
  (opp.costs.parts ≤ u64Max ∧ shortfallWorth opp.legs ≤ u64Max) ∨
  (u64Max : ℤ) ≤ opp.input + (min (opp.costs.parts : ℤ) u64Max - opp.costs.expectedSlippage) +
    min (shortfallWorth opp.legs) u64Max + guards.minProfitLamports ∨
  requiredWorth opp guards ≤ 0

/-- What the code adds up. -/
def requiredSum (opp : Opportunity) (guards : ProfitGuards) (shortfall : ℕ) : ℤ :=
  opp.input + (opp.costs.total - opp.costs.expectedSlippage : ℕ) + shortfall + guards.minProfitLamports

theorem requiredFinalOut_eq_ok {opp : Opportunity} {guards : ProfitGuards} {v : ℕ} (hin : opp.input < 2 ^ 64)
    (hmin : -2 ^ 63 ≤ guards.minProfitLamports ∧ guards.minProfitLamports < 2 ^ 63) :
    requiredFinalOut opp guards = .ok v ↔ SumFits opp.legs (shortOf opp.legs) (opp.legs.length - 1) ∧
      v = clampU64 (requiredSum opp guards (clampU64 (shortfallWorth opp.legs))) := by
  have htotal : opp.costs.total < 2 ^ 64 := total_lt opp.costs
  have hshort : ∀ x : ℤ, clampU64 x < 2 ^ 64 := by
    intro x
    unfold clampU64 u64Max
    omega
  have hfits : ∀ s : ℕ, s < 2 ^ 64 →
      FitsI128 (opp.input + (opp.costs.total - opp.costs.expectedSlippage : ℕ)) ∧
      FitsI128 (opp.input + (opp.costs.total - opp.costs.expectedSlippage : ℕ) + s) ∧
      FitsI128 (requiredSum opp guards s) := by
    intro s hs
    unfold FitsI128 requiredSum
    omega
  unfold requiredFinalOut
  rw [Checked.bind_eq_ok]
  constructor
  · rintro ⟨shortfall, hshortfall, h⟩
    obtain ⟨hsum, rfl⟩ := intermediateShortfallValue_eq_ok.mp hshortfall
    obtain ⟨a, ha, h⟩ := Checked.bind_eq_ok.mp h
    obtain ⟨b, hb, h⟩ := Checked.bind_eq_ok.mp h
    obtain ⟨c, hc, h⟩ := Checked.bind_eq_ok.mp h
    rw [int128_eq_ok] at ha hb hc
    rw [ha.2] at hb
    rw [hb.2] at hc
    rw [hc.2] at h
    exact ⟨hsum, (Except.ok.inj h).symm⟩
  · rintro ⟨hsum, rfl⟩
    obtain ⟨ha, hb, hc⟩ := hfits _ (hshort (shortfallWorth opp.legs))
    refine ⟨_, intermediateShortfallValue_eq_ok.mpr ⟨hsum, rfl⟩, ?_⟩
    refine Checked.bind_eq_ok.mpr ⟨_, int128_eq_ok.mpr ⟨ha, rfl⟩, ?_⟩
    refine Checked.bind_eq_ok.mpr ⟨_, int128_eq_ok.mpr ⟨hb, rfl⟩, ?_⟩
    exact Checked.bind_eq_ok.mpr ⟨_, int128_eq_ok.mpr ⟨hc, rfl⟩, rfl⟩

/-- The exact floor, clamped, exactly where its parts fit. -/
theorem requiredFinalOut_eq_clamp {opp : Opportunity} {guards : ProfitGuards} (hin : opp.input < 2 ^ 64)
    (hslip : opp.costs.expectedSlippage < 2 ^ 64)
    (hmin : -2 ^ 63 ≤ guards.minProfitLamports ∧ guards.minProfitLamports < 2 ^ 63) :
    requiredFinalOut opp guards = .ok (clampU64 (requiredWorth opp guards)) ↔
      SumFits opp.legs (shortOf opp.legs) (opp.legs.length - 1) ∧ RequiredFits opp guards := by
  rw [requiredFinalOut_eq_ok hin hmin]
  apply and_congr_right
  intro _
  have htotal : opp.costs.total = min opp.costs.parts u64Max := opp.costs.total_eq
  have hpart : opp.costs.expectedSlippage ≤ opp.costs.parts := by
    unfold CostBreakdown.parts
    omega
  have hnonneg : 0 ≤ shortfallWorth opp.legs := shortfallWorth_nonneg opp.legs
  unfold RequiredFits requiredSum requiredWorth clampU64
  rw [htotal]
  have hmax : (u64Max : ℤ) = 18446744073709551615 := by decide
  generalize shortfallWorth opp.legs = worth at *
  generalize opp.costs.parts = parts at *
  omega

/-! ### All of pricing -/

/-- **Where pricing is exact.** The tip of what `price` and `repriceAfterSimulation` return is
the policy's answer for a profit, and that is the exact one, clamped, exactly where the gross
output, the input and the pre-tip total fit (and the simulated units are in the network's
range); the floor, the
shortfall and the drift are their exact sums, clamped, exactly where the products and the
partial sums fit and, for the floor, no part saturates to an effect. -/
theorem pricing_exact_iff {inp : PricingInput} {env : PricingEnv} {opp : Opportunity} {shape : TxShape}
    {cuUsed executed : List ℕ} {atas : ℕ} (hamount : inp.plan.amount < 2 ^ 64)
    (hlegs : ∀ leg ∈ inp.legs, leg.outAmount < 2 ^ 64) (hin : opp.input < 2 ^ 64) (hout : opp.grossOutput < 2 ^ 64)
    (hslip : opp.costs.expectedSlippage < 2 ^ 64)
    (hmin : -2 ^ 63 ≤ env.guards.minProfitLamports ∧ env.guards.minProfitLamports < 2 ^ 63) :
    ((∀ priced, price inp env = .ok priced →
        ∃ profit, priceProfit inp env = .ok profit ∧ priced.costs.jitoTip = (env.tip profit).lamports) ∧
      ∀ delta deposits baseDecimals now priced,
        repriceAfterSimulation opp shape cuUsed delta deposits atas env baseDecimals now = .ok priced →
        ∃ profit, repriceProfit opp shape cuUsed atas env = .ok profit ∧
          priced.costs.jitoTip = (env.tip profit).lamports) ∧
    (PassesProfit (costsFor inp.legs inp.plan.amount inp.shape none 0 inp.atasToCreate env.costParams)
        (grossOutput inp.legs) inp.plan.amount (priceProfit inp env) ↔
      ∀ preTip, costsFor inp.legs inp.plan.amount inp.shape none 0 inp.atasToCreate env.costParams = .ok preTip →
        ProfitFits (grossOutput inp.legs) inp.plan.amount preTip.total) ∧
    (PassesProfit (costsFor opp.legs opp.input shape (some cuUsed) 0 atas env.costParams) opp.grossOutput opp.input
        (repriceProfit opp shape cuUsed atas env) ↔
      (∀ u ∈ cuUsed, u ≤ maxComputeUnitsPerTx) ∧
      ∀ preTip, costsFor opp.legs opp.input shape (some cuUsed) 0 atas env.costParams = .ok preTip →
        ProfitFits opp.grossOutput opp.input preTip.total) ∧
    (requiredFinalOut opp env.guards = .ok (clampU64 (requiredWorth opp env.guards)) ↔
      SumFits opp.legs (shortOf opp.legs) (opp.legs.length - 1) ∧ RequiredFits opp env.guards) ∧
    (intermediateShortfallValue opp.legs = .ok (clampU64 (shortfallWorth opp.legs)) ↔
      SumFits opp.legs (shortOf opp.legs) (opp.legs.length - 1)) ∧
    (opp.legs.length - 1 ≤ executed.length →
      (intermediateDriftValue opp.legs executed =
          .ok (some (clampI64 (inventoryWorth opp.legs (surplusOf opp.legs executed) (opp.legs.length - 1)))) ↔
        SumFits opp.legs (surplusOf opp.legs executed) (opp.legs.length - 1))) := by
  refine ⟨⟨fun _ => price_eq_ok, fun _ _ _ _ _ => reprice_eq_ok⟩, ?_, ?_, ?_, ?_, ?_⟩
  · unfold priceProfit
    rw [passesProfit_iff (grossOutput_lt hlegs) hamount]
    have hexists : ∃ c, costsFor inp.legs inp.plan.amount inp.shape none 0 inp.atasToCreate env.costParams = .ok c :=
      costsFor_exists.mpr fun _ h => nomatch h
    exact exists_ok_iff_forall hexists
  · unfold repriceProfit
    rw [passesProfit_iff hout hin]
    by_cases hmax : ∀ u ∈ cuUsed, u ≤ maxComputeUnitsPerTx
    · have hexists : ∃ c, costsFor opp.legs opp.input shape (some cuUsed) 0 atas env.costParams = .ok c :=
        costsFor_exists.mpr fun used h => Option.some.inj h ▸ hmax
      rw [exists_ok_iff_forall hexists]
      exact ⟨fun h => ⟨hmax, h⟩, fun h => h.2⟩
    · constructor
      · rintro ⟨c, hc, -⟩
        exact absurd (costsFor_exists.mp ⟨c, hc⟩ cuUsed rfl) hmax
      · exact fun h => absurd h.1 hmax
  · exact requiredFinalOut_eq_clamp hin hslip hmin
  · rw [intermediateShortfallValue_eq_ok]
    exact ⟨fun h => h.1, fun h => ⟨h, rfl⟩⟩
  · intro hlen
    rw [intermediateDriftValue_eq_ok hlen]
    exact ⟨fun h => h.1, fun h => ⟨h, rfl⟩⟩

namespace Example

/-- A leg of `spent` of the first mint for `got` of the second, `least` at the worst. -/
def legOf (spent got least : ℕ) : Leg := ⟨⟨1⟩, ⟨2⟩, spent, got, least, 10, ⟨0⟩, none⟩

def tenthTip : PricingEnv := ⟨.default, .default, fun profit => ⟨(profit / 10).toNat, false⟩⟩

/-- A cycle of one leg that pays out `got`. -/
def cycleOf (spent got : ℕ) : PricingInput where
  id := ⟨1⟩
  plan := ⟨spent, [(⟨1⟩, ⟨2⟩)], ⟨2⟩⟩
  legs := [legOf spent got got]
  now := ⟨0⟩
  solPrice := none
  baseDecimals := 9
  shape := .single
  atasToCreate := 0

/-- Two legs, the first of which can deliver nothing. -/
def oppOf (amount : ℕ) : Opportunity where
  id := ⟨1⟩
  input := amount
  grossOutput := amount
  legs := [legOf amount amount 0, legOf amount amount amount]
  costs := ⟨.quote, 1, 1, 5000, 600000, none, 0, 0, 0, 0, 0, 0, 5000, 0⟩
  eval := ⟨0, 0, .zero, .zero, none, none, none⟩
  status := .quoted
  updatedAt := ⟨0⟩
  solPrice := none
  simulation := none
  risk := none
  guard := none

def swapIn : PricingInput := cycleOf 1000000000 1000100000

def swapOpp : Opportunity := oppOf 1000

/-- A payout over `2⁶³`. -/
def dearIn : PricingInput := cycleOf 1000000000 (2 ^ 63 + 2000000000)

/-- Amounts near `2⁶⁴`. -/
def dearOpp : Opportunity := oppOf (2 ^ 64 - 1)

end Example

open Example in
theorem pricing_exact_swap :
    ((∀ priced, price swapIn tenthTip = .ok priced →
        ∃ profit, priceProfit swapIn tenthTip = .ok profit ∧ priced.costs.jitoTip = (tenthTip.tip profit).lamports) ∧
      ∀ delta deposits baseDecimals now priced,
        repriceAfterSimulation swapOpp .single [100000] delta deposits 0 tenthTip baseDecimals now = .ok priced →
        ∃ profit, repriceProfit swapOpp .single [100000] 0 tenthTip = .ok profit ∧
          priced.costs.jitoTip = (tenthTip.tip profit).lamports) ∧
    (PassesProfit (costsFor swapIn.legs swapIn.plan.amount swapIn.shape none 0 swapIn.atasToCreate tenthTip.costParams)
        (grossOutput swapIn.legs) swapIn.plan.amount (priceProfit swapIn tenthTip) ↔
      ∀ preTip, costsFor swapIn.legs swapIn.plan.amount swapIn.shape none 0 swapIn.atasToCreate tenthTip.costParams =
          .ok preTip →
        ProfitFits (grossOutput swapIn.legs) swapIn.plan.amount preTip.total) ∧
    (PassesProfit (costsFor swapOpp.legs swapOpp.input .single (some [100000]) 0 0 tenthTip.costParams)
        swapOpp.grossOutput swapOpp.input (repriceProfit swapOpp .single [100000] 0 tenthTip) ↔
      (∀ u ∈ [100000], u ≤ maxComputeUnitsPerTx) ∧
      ∀ preTip, costsFor swapOpp.legs swapOpp.input .single (some [100000]) 0 0 tenthTip.costParams = .ok preTip →
        ProfitFits swapOpp.grossOutput swapOpp.input preTip.total) ∧
    (requiredFinalOut swapOpp tenthTip.guards = .ok (clampU64 (requiredWorth swapOpp tenthTip.guards)) ↔
      SumFits swapOpp.legs (shortOf swapOpp.legs) (swapOpp.legs.length - 1) ∧ RequiredFits swapOpp tenthTip.guards) ∧
    (intermediateShortfallValue swapOpp.legs = .ok (clampU64 (shortfallWorth swapOpp.legs)) ↔
      SumFits swapOpp.legs (shortOf swapOpp.legs) (swapOpp.legs.length - 1)) ∧
    (swapOpp.legs.length - 1 ≤ [990].length →
      (intermediateDriftValue swapOpp.legs [990] =
          .ok (some (clampI64 (inventoryWorth swapOpp.legs (surplusOf swapOpp.legs [990]) (swapOpp.legs.length - 1)))) ↔
        SumFits swapOpp.legs (surplusOf swapOpp.legs [990]) (swapOpp.legs.length - 1))) :=
  pricing_exact_iff (by decide) (by decide) (by decide) (by decide) (by decide) (by decide)

open Example in
/-- A payout from `2⁶³` on is negative as an `i64`: the policy is asked about a loss. Two
amounts near `2⁶⁴` have a product that no `i128` holds. -/
theorem pricing_wraps :
    priceProfit dearIn tenthTip = .ok (-9223372035854885808) ∧
    (∃ preTip, costsFor dearIn.legs dearIn.plan.amount dearIn.shape none 0 dearIn.atasToCreate tenthTip.costParams =
        .ok preTip ∧
      clampI64 (grossOutput dearIn.legs - dearIn.plan.amount - preTip.total) = 9223372036854775807) ∧
    intermediateShortfallValue dearOpp.legs = Checked.panic ∧
    clampU64 (shortfallWorth dearOpp.legs) = 2 ^ 64 - 1 := by
  refine ⟨by decide +kernel, ⟨?_, ?_, ?_⟩, by decide +kernel, by decide +kernel⟩
  · exact ⟨.quote, 1, 1, 5000, 300000, none, 0, 0, 0, 0, 0, 0, 105000, 0⟩
  · decide +kernel
  · decide +kernel

end MobiusSearcher
