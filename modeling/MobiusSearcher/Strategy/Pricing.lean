/-
# Pricing

`crates/strategy/src/pricing.rs`: a cycle's quoted legs become a fully costed
opportunity (`price`), an opportunity is priced again with what its simulation
used (`repriceAfterSimulation`), the floor under its last leg
(`requiredFinalOut`) becomes a slippage tolerance (`protectiveSlippageBps`), and
the intermediate legs' inventory is valued in base units. The tip policy is a
function of the profit before the tip.

An operation of the source on signed integers is `Checked`: it fails out of its
type's range. What an opportunity only shows (labels, slots, keys) is left out.

Key definitions: `price`, `repriceAfterSimulation`, `profitBeforeTip`,
`requiredFinalOut`, `intermediateShortfallValue`, `intermediateDriftValue`,
`protectiveSlippageBps`.
Key theorems: `protectiveSlippageBps_eq_some`, `protective_is_largest`.
-/
import MobiusSearcher.Core.Model
import MobiusSearcher.Lib.Checked

namespace MobiusSearcher

open Machine

/-- `as i64`. -/
def asI64 (x : ℕ) : ℤ := wrapI64 x

/-! ### What the inventory is left with -/

/-- Value in base units of an intermediate amount after leg `i`: the rest of the
cycle's quoted rate. -/
def toBase (legs : List Leg) (i : ℕ) (amount : ℤ) : Checked ℤ :=
  match legs[i + 1]?, legs.getLast? with
  | some next, some last =>
    if next.inAmount = 0 then pure 0
    else do
      let scaled ← Checked.int 128 (amount * last.outAmount)
      pure (scaled.tdiv next.inAmount)
  | _, _ => pure 0

/-- The values after the legs but the last, added up. -/
def sumToBase (legs : List Leg) (amount : ℕ → ℤ) : Checked ℤ :=
  (List.range (legs.length - 1)).foldlM (fun sum i => do
    let v ← toBase legs i (amount i)
    Checked.int 128 (sum + v)) 0

def outAmountAt (legs : List Leg) (i : ℕ) : ℕ := (legs[i]?.map Leg.outAmount).getD 0

/-- Worst case the intermediate legs can cost the inventory. -/
def intermediateShortfallValue (legs : List Leg) : Checked ℕ := do
  let v ← sumToBase legs fun i =>
    ((outAmountAt legs i - (legs[i]?.map Leg.minOut).getD 0 : ℕ) : ℤ)
  pure (min (max v 0) u64Max).toNat

/-- What the intermediate legs left in or took from the inventory: none without an
executed output for each of them. -/
def intermediateDriftValue (legs : List Leg) (executed : List ℕ) : Checked (Option ℤ) :=
  if legs.length < 2 then pure (some 0)
  else if executed.length < legs.length - 1 then pure none
  else do
    let v ← sumToBase legs fun i => (executed[i]?.getD 0 : ℤ) - (legs[i + 1]?.map Leg.inAmount).getD 0
    pure (some (clampI64 v))

/-! ### The slippage of the last leg -/

/-- Minimum final output that still meets the lamport guard after all costs but
the slippage modelled, which is what the tolerance absorbs. -/
def requiredFinalOut (opp : Opportunity) (guards : ProfitGuards) : Checked ℕ := do
  let nonSlippage := opp.costs.total - opp.costs.expectedSlippage
  let shortfall ← intermediateShortfallValue opp.legs
  -- a negative minimum profit lowers the floor
  let a ← Checked.int 128 (opp.input + nonSlippage)
  let b ← Checked.int 128 (a + shortfall)
  let c ← Checked.int 128 (b + guards.minProfitLamports)
  pure (min (max c 0) u64Max).toNat

/-- The tolerance whose minimum output is at least `required`; none when the quote
cannot meet it at all. -/
def protectiveSlippageBps (finalOut required : ℕ) : Option ℕ :=
  if finalOut = 0 ∨ finalOut < required then none
  else some (min ((finalOut - required) * 10000 / finalOut) 10000)

/-! ### Pricing -/

structure TipInfo where
  lamports : ℕ
  /-- The tip policy wanted more than its cap. -/
  capped : Bool
  deriving DecidableEq, Repr

structure PricingEnv where
  costParams : CostParams
  guards : ProfitGuards
  /-- Tip for an expected profit before the tip. -/
  tip : ℤ → TipInfo

/-- What pricing reads of a plan: what it spends, the mints of its legs, and the
mint it closes on. -/
structure PricedPlan where
  amount : ℕ
  legs : List (Address × Address)
  baseMint : Address
  deriving DecidableEq, Repr

structure PricingInput where
  id : OpportunityId
  plan : PricedPlan
  legs : List Leg
  now : Ts
  solPrice : Option UsdPrice
  baseDecimals : ℕ
  shape : TxShape
  atasToCreate : ℕ

/-- The legs form the planned closed cycle, each spending what the one before gave. -/
def validateChain (plan : PricedPlan) (legs : List Leg) : Bool :=
  legs.length = plan.legs.length ∧ legs ≠ [] ∧
    legs.head?.map Leg.inAmount = some plan.amount ∧
    (legs.zip plan.legs).all (fun (l, s) => l.inputMint = s.1 ∧ l.outputMint = s.2) ∧
    (legs.zip legs.tail).all (fun (l, next) => next.inAmount = l.outAmount) ∧
    legs.getLast?.map Leg.outputMint = some plan.baseMint

def guardSkip : GuardFailure → SkipReason
  | .priceUnavailable => .priceUnavailable
  | _ => .edgeTooSmall

/-- The costs of a cycle at the largest price a leg suggests. -/
def costsFor (legs : List Leg) (input : ℕ) (shape : TxShape) (cuUsed : Option (List ℕ)) (tip atas : ℕ)
    (p : CostParams) : Checked CostBreakdown :=
  let cuPrice := (legs.filterMap Leg.cuPriceMicro).max?.getD 0
  Checked.orPanic (computeCosts ⟨legs, input, shape, cuUsed, cuPrice, tip, atas, 0⟩ p)

/-- What the cycle pays out as quoted. -/
def grossOutput (legs : List Leg) : ℕ := (legs.getLast?.map Leg.outAmount).getD 0

/-- The profit the tip policy is asked about: each amount as an `i64`. -/
def profitBeforeTip (grossOutput input total : ℕ) : Checked ℤ := do
  let gross ← Checked.int 64 (asI64 grossOutput - asI64 input)
  Checked.int 64 (gross - asI64 total)

/-- What `price` asks the tip policy about. -/
def priceProfit (inp : PricingInput) (env : PricingEnv) : Checked ℤ := do
  let preTip ← costsFor inp.legs inp.plan.amount inp.shape none 0 inp.atasToCreate env.costParams
  profitBeforeTip (grossOutput inp.legs) inp.plan.amount preTip.total

/-- Pricing of a quote, its compute units estimated. An opportunity always results,
with the reason it would be skipped. -/
def price (inp : PricingInput) (env : PricingEnv) : Checked Opportunity := do
  let profit ← priceProfit inp env
  let tip := env.tip profit
  let costs ← costsFor inp.legs inp.plan.amount inp.shape none tip.lamports inp.atasToCreate env.costParams
  let eval := evaluate inp.plan.amount (grossOutput inp.legs) costs inp.baseDecimals inp.solPrice
  let guard := checkGuards eval inp.plan.amount env.guards
  let status := if ¬validateChain inp.plan inp.legs then .skipped .buildFailed
    else if env.costParams.maxNewDeposit < costs.ataRent then .skipped .deposit
    else match guard with
      | some g => .skipped (guardSkip g)
      | none => if tip.capped then .skipped .tipTooHigh else .quoted
  pure { id := inp.id, input := inp.plan.amount, grossOutput := grossOutput inp.legs, legs := inp.legs, costs, eval,
         status, updatedAt := inp.now, solPrice := inp.solPrice, simulation := none, risk := none, guard }

/-- What `repriceAfterSimulation` asks the tip policy about. -/
def repriceProfit (opp : Opportunity) (shape : TxShape) (cuUsed : List ℕ) (atasToCreate : ℕ) (env : PricingEnv) :
    Checked ℤ := do
  let preTip ← costsFor opp.legs opp.input shape (some cuUsed) 0 atasToCreate env.costParams
  profitBeforeTip opp.grossOutput opp.input preTip.total

/-- The simulated change less what the simulation, run at the quoted state, cannot see. -/
def simulatedNetOf (costs : CostBreakdown) : Option ℤ → Checked (Option ℤ)
  | none => pure none
  | some d => do
    let d ← Checked.int 64 (d - asI64 costs.expectedSlippage)
    let d ← Checked.int 64 (d - asI64 costs.safetyBuffer)
    pure (some d)

/-- Pricing again, with the simulated compute units and the shape sent. -/
def repriceAfterSimulation (opp : Opportunity) (shape : TxShape) (cuUsed : List ℕ) (simulatedDelta : Option ℤ)
    (deposits : Option ℕ) (atasToCreate : ℕ) (env : PricingEnv) (baseDecimals : ℕ) (now : Ts) :
    Checked Opportunity := do
  let profit ← repriceProfit opp shape cuUsed atasToCreate env
  let tip := env.tip profit
  let costs ← costsFor opp.legs opp.input shape (some cuUsed) tip.lamports atasToCreate env.costParams
  let costs := { costs with ataRent := deposits.getD costs.ataRent }
  let simulatedNet ← simulatedNetOf costs simulatedDelta
  let eval := { evaluate opp.input opp.grossOutput costs baseDecimals opp.solPrice with simulatedNet }
  let guard := checkGuards eval opp.input env.guards
  let status := if env.costParams.maxNewDeposit < costs.ataRent then .skipped .deposit
    else match guard with
      | some g => .skipped (guardSkip g)
      | none => if tip.capped then .skipped .tipTooHigh else .quoted
  pure { opp with costs, eval, updatedAt := now, guard, status }

/-! ### The protective slippage -/

theorem protectiveSlippageBps_eq_some {finalOut required b : ℕ} :
    protectiveSlippageBps finalOut required = some b ↔
      0 < finalOut ∧ required ≤ finalOut ∧ b = (finalOut - required) * 10000 / finalOut := by
  unfold protectiveSlippageBps
  by_cases h : finalOut = 0 ∨ finalOut < required
  · rw [if_pos h]
    refine ⟨nofun, fun hb => ?_⟩
    omega
  · have hpos : 0 < finalOut := by omega
    have hle : (finalOut - required) * 10000 / finalOut ≤ 10000 := by
      apply Nat.div_le_of_le_mul
      exact Nat.mul_le_mul_right _ (Nat.sub_le finalOut required)
    rw [if_neg h, min_eq_left hle]
    constructor
    · intro hb
      exact ⟨hpos, by omega, (Option.some.inj hb).symm⟩
    · rintro ⟨-, -, rfl⟩
      rfl

/-- The minimum of a tolerance is at least `required` exactly up to the protective one. -/
theorem le_protective_iff {finalOut required b : ℕ} (hpos : 0 < finalOut) (hle : required ≤ finalOut) (hb : b ≤ 10000) :
    b ≤ (finalOut - required) * 10000 / finalOut ↔ required * 10000 ≤ finalOut * (10000 - b) := by
  rw [Nat.le_div_iff_mul_le hpos]
  have hsplit : finalOut * (10000 - b) + b * finalOut = finalOut * 10000 := by
    rw [Nat.mul_comm b, ← Nat.mul_add, Nat.sub_add_cancel hb]
  have hreq : (finalOut - required) * 10000 + required * 10000 = finalOut * 10000 := by
    rw [← Nat.add_mul, Nat.sub_add_cancel hle]
  omega

/-- **The protective slippage is the largest safe one.** There is one exactly when the
quote meets the floor; its minimum output, rounded down, is at least the floor, and the
exact minimum of any larger tolerance is below it. -/
theorem protective_is_largest (finalOut required : ℕ) :
    ((∃ b, protectiveSlippageBps finalOut required = some b) ↔ 0 < finalOut ∧ required ≤ finalOut) ∧
    ∀ b, protectiveSlippageBps finalOut required = some b →
      required ≤ finalOut * (10000 - b) / 10000 ∧ b ≤ 10000 ∧
      ∀ b', b < b' → b' ≤ 10000 → (finalOut * (10000 - b') : ℚ) / 10000 < required := by
  refine ⟨⟨?_, ?_⟩, ?_⟩
  · rintro ⟨b, hb⟩
    obtain ⟨hpos, hle, -⟩ := protectiveSlippageBps_eq_some.mp hb
    exact ⟨hpos, hle⟩
  · rintro ⟨hpos, hle⟩
    exact ⟨_, protectiveSlippageBps_eq_some.mpr ⟨hpos, hle, rfl⟩⟩
  · intro b hb
    obtain ⟨hpos, hle, rfl⟩ := protectiveSlippageBps_eq_some.mp hb
    have hmax : (finalOut - required) * 10000 / finalOut ≤ 10000 := by
      apply Nat.div_le_of_le_mul
      exact Nat.mul_le_mul_right _ (Nat.sub_le finalOut required)
    refine ⟨?_, hmax, ?_⟩
    · rw [Nat.le_div_iff_mul_le (by norm_num)]
      exact (le_protective_iff hpos hle hmax).mp le_rfl
    · intro b' hlt hb'
      have hless : finalOut * (10000 - b') < required * 10000 := by
        rw [← not_le, ← le_protective_iff hpos hle hb', not_le]
        exact hlt
      rw [div_lt_iff₀ (by norm_num)]
      have hcast : ((finalOut * (10000 - b') : ℕ) : ℚ) = finalOut * (10000 - b') := by
        rw [Nat.cast_mul, Nat.cast_sub hb', Nat.cast_ofNat]
      rw [← hcast]
      exact_mod_cast hless

end MobiusSearcher
