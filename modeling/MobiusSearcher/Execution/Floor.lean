/-
# The floor under an executed trade

`protect` gives a candidate a floor: the last leg's minimum is at least what the
quote's costs, the worst case of the legs before and the profit asked for take
it to. The costs are not final then. Priced again with its transactions and the
units they used, a trade may pay another fee for its priority and another tip,
and the minimum stays. It is at least the floor of the final pricing exactly
where what it has to make up for rose by no more than the minimum exceeds the
first floor (`floor_holds_iff`).

Key definitions: `tippedCosts`, `charge`, `lastMinOut`.
Key theorems: `protect_spec`, `finish_spec`, `simulateJob_spec`, `floor_holds_iff`.
-/
import MobiusSearcher.Execution.Pipeline
import MobiusSearcher.Strategy.Exact
import MobiusSearcher.Risk.Runs

namespace MobiusSearcher
namespace Pipeline

open Machine Assemble

/-! ### What a pricing charges -/

/-- The costs a pricing ends with, but for the rent: those with the tip that the policy
answers for the profit without one. -/
def tippedCosts (legs : List Leg) (input : ℕ) (shape : TxShape) (cuUsed : Option (List ℕ)) (atas : ℕ)
    (env : PricingEnv) : Checked CostBreakdown := do
  let preTip ← costsFor legs input shape cuUsed 0 atas env.costParams
  let profit ← profitBeforeTip (grossOutput legs) input preTip.total
  costsFor legs input shape cuUsed (env.tip profit).lamports atas env.costParams

/-- What the final output has to make up for beyond the input: the costs but the slippage, the
worst case of the legs before the last, and the profit asked for. -/
def charge (legs : List Leg) (c : CostBreakdown) (guards : ProfitGuards) : ℤ :=
  (c.total - c.expectedSlippage : ℕ) + clampU64 (shortfallWorth legs) + guards.minProfitLamports

def lastMinOut (legs : List Leg) : ℕ := (legs.getLast?.map Leg.minOut).getD 0

/-- An opportunity of these legs and this input, as quoted. -/
structure Shows (o : Opportunity) (legs : List Leg) (input : ℕ) : Prop where
  route : o.legs = legs
  spends : o.input = input
  gross : o.grossOutput = grossOutput legs

/-- Its costs, but for the rent, are `c`. -/
structure Charged (o : Opportunity) (c : CostBreakdown) : Prop where
  total : o.costs.total = c.total
  slippage : o.costs.expectedSlippage = c.expectedSlippage

theorem Shows.withStatus {o : Opportunity} {legs : List Leg} {input : ℕ} (h : Shows o legs input) (st : OppStatus) :
    Shows { o with status := st } legs input := ⟨h.route, h.spends, h.gross⟩

theorem price_shows {inp : PricingInput} {env : PricingEnv} {o : Opportunity} (h : price inp env = .ok o) :
    Shows o inp.legs inp.plan.amount ∧ (o.status = .quoted → inp.legs ≠ []) ∧
      ∃ c, tippedCosts inp.legs inp.plan.amount inp.shape none inp.atasToCreate env = .ok c ∧ Charged o c := by
  unfold price priceProfit at h
  obtain ⟨profit, hprofit, h⟩ := Checked.bind_eq_ok.mp h
  obtain ⟨preTip, hpre, hprofit⟩ := Checked.bind_eq_ok.mp hprofit
  obtain ⟨costs, hcosts, h⟩ := Checked.bind_eq_ok.mp h
  obtain rfl := Except.ok.inj h
  refine ⟨⟨rfl, rfl, rfl⟩, fun hquoted hnil => ?_, costs, ?_, ⟨rfl, rfl⟩⟩
  · have hchain : validateChain inp.plan inp.legs = false := by
      unfold validateChain
      simp [hnil]
    simp [hchain] at hquoted
  · unfold tippedCosts
    rw [hpre, Checked.ok_bind, hprofit, Checked.ok_bind]
    exact hcosts

theorem priceLegs_shows {cfg : PipelineConfig} {v : View} {id : OpportunityId} {plan : PricedPlan} {legs : List Leg}
    {shape : TxShape} {atas : ℕ} {o : Opportunity} (h : priceLegs cfg v id plan legs shape atas = .ok o) :
    Shows o legs plan.amount ∧ (o.status = .quoted → legs ≠ []) ∧
      ∃ c, tippedCosts legs plan.amount shape none atas (pricingEnv cfg v) = .ok c ∧ Charged o c :=
  price_shows h

theorem reprice_shows {cfg : PipelineConfig} {v : View} {job : Job} {o o' : Opportunity} {cuUsed : List ℕ}
    {delta : Option ℤ} {deposits : Option ℕ} {now : Ts} {legs : List Leg} {input : ℕ} (ho : Shows o legs input)
    (h : reprice cfg v job o cuUsed delta deposits now = .ok o') :
    Shows o' legs input ∧
      ∃ c, tippedCosts legs input (shapeOf job.plan job.txs) (some cuUsed) job.atasToCreate (pricingEnv cfg v) = .ok c ∧
        Charged o' c := by
  obtain ⟨rfl, rfl, hgross⟩ := ho
  unfold reprice repriceAfterSimulation repriceProfit at h
  obtain ⟨profit, hprofit, h⟩ := Checked.bind_eq_ok.mp h
  obtain ⟨preTip, hpre, hprofit⟩ := Checked.bind_eq_ok.mp hprofit
  obtain ⟨costs, hcosts, h⟩ := Checked.bind_eq_ok.mp h
  obtain ⟨net, -, h⟩ := Checked.bind_eq_ok.mp h
  obtain rfl := Except.ok.inj h
  refine ⟨⟨rfl, rfl, hgross⟩, costs, ?_, ⟨rfl, rfl⟩⟩
  unfold tippedCosts
  rw [hpre, Checked.ok_bind, ← hgross, hprofit, Checked.ok_bind]
  exact hcosts

/-- The floor of a priced opportunity is its input and what it is charged. -/
theorem required_eq {o : Opportunity} {legs : List Leg} {input : ℕ} {c : CostBreakdown} {guards : ProfitGuards} {r : ℕ}
    (ho : Shows o legs input) (hc : Charged o c) (hin : input < 2 ^ 64)
    (hmin : -2 ^ 63 ≤ guards.minProfitLamports ∧ guards.minProfitLamports < 2 ^ 63)
    (h : requiredFinalOut o guards = .ok r) : r = clampU64 (input + charge legs c guards) := by
  obtain ⟨rfl, rfl, -⟩ := ho
  obtain ⟨-, hr⟩ := (requiredFinalOut_eq_ok hin hmin).mp h
  rw [hr]
  unfold requiredSum charge
  rw [hc.total, hc.slippage]
  congr 1
  ring

/-! ### The floor of the quote -/

/-- The provider's minimum of a leg is that of its tolerance, at least. -/
def KeepsTolerance (l : Leg) : Prop := l.outAmount * (10000 - l.slippageBps) / 10000 ≤ l.minOut

instance (l : Leg) : Decidable (KeepsTolerance l) := inferInstanceAs (Decidable (_ ≤ _))

/-- A candidate that is protected and stays one has a last leg whose minimum holds the floor. -/
theorem protect_spec {cfg : PipelineConfig} {a : Answers} {plan : PricedPlan} {opp opp' : Opportunity}
    {built built' : List BuiltLeg} (hopp : Shows opp (built.map BuiltLeg.leg) plan.amount) (hne : built ≠ [])
    (hkeeps : ∀ b ∈ built, KeepsTolerance b.leg) (h : protect cfg a plan opp built = .ok (opp', built')) :
    Shows opp' (built'.map BuiltLeg.leg) plan.amount ∧
      (opp'.status = .quoted → ∃ required, requiredFinalOut opp a.floored.thresholds.guards = .ok required ∧
        required ≤ lastMinOut opp'.legs) := by
  obtain ⟨init, last, rfl⟩ := List.eq_nil_or_concat' built |>.resolve_left hne
  unfold protect at h
  rw [List.getLast?_concat] at h
  simp only at h
  obtain ⟨required, hrequired, h⟩ := Checked.bind_eq_ok.mp h
  cases hbps : protectiveSlippageBps last.leg.outAmount required with
  | none =>
    rw [hbps] at h
    obtain ⟨rfl, rfl⟩ := Prod.mk.inj (Except.ok.inj h)
    exact ⟨hopp.withStatus _, nofun⟩
  | some bps =>
    rw [hbps] at h
    simp only at h
    obtain ⟨hpos, hle, hbps⟩ := protectiveSlippageBps_eq_some.mp hbps
    by_cases htight : last.leg.slippageBps ≤ bps
    · -- the tolerance it was quoted with is small enough
      rw [if_pos htight] at h
      obtain ⟨rfl, rfl⟩ := Prod.mk.inj (Except.ok.inj h)
      refine ⟨hopp, fun _ => ⟨required, hrequired, ?_⟩⟩
      have hlast : lastMinOut opp.legs = last.leg.minOut := by
        unfold lastMinOut
        rw [hopp.route, List.map_append, List.map_singleton, List.getLast?_concat]
        rfl
      have hmost : bps ≤ 10000 := by
        rw [hbps]
        apply Nat.div_le_of_le_mul
        exact Nat.mul_le_mul_right _ (Nat.sub_le _ _)
      have hkept : KeepsTolerance last.leg := hkeeps last (List.mem_append_right _ (List.mem_singleton_self last))
      rw [hlast]
      refine le_trans ?_ hkept
      rw [Nat.le_div_iff_mul_le (by norm_num)]
      exact (le_protective_iff hpos hle (le_trans htight hmost)).mp (hbps ▸ htight)
    · rw [if_neg htight] at h
      cases hbuild : a.build (.fixed bps) with
      | error e =>
        rw [hbuild] at h
        cases e with
        | rateLimited =>
          obtain ⟨rfl, rfl⟩ := Prod.mk.inj (Except.ok.inj h)
          exact ⟨hopp.withStatus _, nofun⟩
        | failed =>
          obtain ⟨rfl, rfl⟩ := Prod.mk.inj (Except.ok.inj h)
          exact ⟨hopp.withStatus _, nofun⟩
      | ok b =>
        rw [hbuild] at h
        simp only at h
        by_cases hmeets : required ≤ b.leg.minOut
        · -- quoted again
          rw [if_pos hmeets, List.dropLast_concat] at h
          obtain ⟨priced, hpriced, h⟩ := Checked.bind_eq_ok.mp h
          obtain ⟨rfl, rfl⟩ := Prod.mk.inj (Except.ok.inj h)
          obtain ⟨hshows, -, -⟩ := priceLegs_shows hpriced
          refine ⟨hshows, fun _ => ⟨required, hrequired, ?_⟩⟩
          have hlast : lastMinOut priced.legs = b.leg.minOut := by
            unfold lastMinOut
            rw [hshows.route, List.map_append, List.map_singleton, List.getLast?_concat]
            rfl
          rw [hlast]
          exact hmeets
        · rw [if_neg hmeets] at h
          obtain ⟨rfl, rfl⟩ := Prod.mk.inj (Except.ok.inj h)
          exact ⟨hopp.withStatus _, nofun⟩

theorem reshape_spec {cfg : PipelineConfig} {a : Answers} {plan : PricedPlan} {opp o : Opportunity} {kind : PlanKind}
    {txs : List AssembledTx} {legs : List Leg} (hopp : Shows opp legs plan.amount)
    (h : reshape cfg a plan opp kind txs = .ok o) :
    Shows o legs plan.amount ∧ (o.status = .quoted → opp.status = .quoted) := by
  unfold reshape at h
  by_cases hshape : kind = .bundle ∨ 0 < Assemble.atasToCreate txs
  · rw [if_pos hshape] at h
    obtain ⟨priced, hpriced, h⟩ := Checked.bind_eq_ok.mp h
    obtain ⟨hshows, -, -⟩ := priceLegs_shows hpriced
    rw [hopp.route] at hshows
    by_cases hrevived : opp.status ≠ .quoted ∧ priced.status = .quoted
    · rw [if_pos hrevived] at h
      obtain rfl := Except.ok.inj h
      exact ⟨hshows.withStatus _, id⟩
    · rw [if_neg hrevived] at h
      obtain rfl := Except.ok.inj h
      refine ⟨hshows, fun hquoted => ?_⟩
      by_contra hskipped
      exact hrevived ⟨hskipped, hquoted⟩
  · rw [if_neg hshape] at h
    obtain rfl := Except.ok.inj h
    exact ⟨hopp, id⟩

/-- A job that is a candidate is of a quote whose floor its last leg holds. -/
theorem finish_spec {cfg : PipelineConfig} {a : Answers} {id : OpportunityId} {plan : PricedPlan}
    {built : List BuiltLeg} {job : Job} (hkeeps : ∀ b ∈ built, KeepsTolerance b.leg)
    (hon : a.checked.thresholds.protectMinOut = true) (h : finish cfg a id plan built = .ok (some job))
    (hquoted : job.opp.status = .quoted) :
    Shows job.opp job.opp.legs plan.amount ∧
      ∃ opp required, priceLegs cfg a.quoted id plan (built.map BuiltLeg.leg) .single 0 = .ok opp ∧
        requiredFinalOut opp a.floored.thresholds.guards = .ok required ∧ required ≤ lastMinOut job.opp.legs := by
  unfold finish at h
  obtain ⟨opp, hopp, h⟩ := Checked.bind_eq_ok.mp h
  obtain ⟨hshows, hne, -⟩ := priceLegs_shows hopp
  unfold prepare at h
  obtain ⟨⟨opp', built'⟩, hprotect, h⟩ := Checked.bind_eq_ok.mp h
  simp only at h
  split at h
  · exact absurd (Except.ok.inj h) nofun
  obtain ⟨priced, hpriced, h⟩ := Checked.bind_eq_ok.mp h
  obtain rfl := Option.some.inj (Except.ok.inj h)
  unfold protectCandidate at hprotect
  by_cases hcandidate : opp.status = .quoted
  · rw [if_pos ⟨hcandidate, hon⟩] at hprotect
    have hbuilt : built ≠ [] := fun hnil => hne hcandidate (by rw [hnil]; rfl)
    obtain ⟨hshows', hfloor⟩ := protect_spec hshows hbuilt hkeeps hprotect
    obtain ⟨hfinal, hstill⟩ := reshape_spec hshows' hpriced
    obtain ⟨required, hrequired, hle⟩ := hfloor (hstill hquoted)
    refine ⟨?_, opp, required, hopp, hrequired, ?_⟩
    · exact ⟨rfl, hfinal.spends, by rw [hfinal.gross, hfinal.route]⟩
    · show required ≤ lastMinOut priced.legs
      rw [hfinal.route, ← hshows'.route]
      exact hle
  · rw [if_neg fun hboth => hcandidate hboth.1] at hprotect
    obtain ⟨rfl, rfl⟩ := Prod.mk.inj (Except.ok.inj hprotect)
    exact absurd ((reshape_spec hshows hpriced).2 hquoted) hcandidate

/-! ### The final pricing -/

/-- What is handed to the risk engine was a candidate, and is priced with the units used. -/
theorem simulateJob_spec {cfg : PipelineConfig} {a : Answers} {job job' : Job}
    (h : simulateJob cfg a job = .ok (some job')) :
    job.opp.status = .quoted ∧ ∀ {input : ℕ}, Shows job.opp job.opp.legs input →
      Shows job'.opp job.opp.legs input ∧ ∃ sim balances c,
        simulateTxs job.toSimJob a.simulating.thresholds.costParams.cuMargin a.rpc a.simulatedAt a.contextSlot =
          .ok (sim, balances) ∧
        tippedCosts job.opp.legs input (shapeOf job.plan job.txs) (some (sim.txs.map TxSim.unitsConsumed))
          job.atasToCreate (pricingEnv cfg a.lastView) = .ok c ∧ Charged job'.opp c := by
  unfold simulateJob at h
  by_cases hstale : cfg.maxQuoteAgeMs < job.opp.quoteAgeMs a.simulating.now ∨ cfg.taker = none
  · rw [if_pos hstale] at h
    exact absurd (Except.ok.inj h) nofun
  rw [if_neg hstale] at h
  obtain ⟨⟨sim, balances⟩, hsim, h⟩ := Checked.bind_eq_ok.mp h
  simp only at h
  by_cases hok : sim.ok = true
  · rw [if_pos hok] at h
    obtain ⟨first, hfirst, h⟩ := Checked.bind_eq_ok.mp h
    obtain ⟨deposits, -, h⟩ := Checked.bind_eq_ok.mp h
    obtain ⟨delta, -, h⟩ := Checked.bind_eq_ok.mp h
    obtain ⟨last, hlast, h⟩ := Checked.bind_eq_ok.mp h
    have hboth := Except.ok.inj h
    rw [Option.ite_none_right_eq_some] at hboth
    obtain ⟨⟨hcandidate, -⟩, hjob⟩ := hboth
    obtain rfl := Option.some.inj hjob
    refine ⟨hcandidate, fun hopp => ?_⟩
    obtain ⟨hshows, -⟩ := reprice_shows hopp hfirst
    obtain ⟨hshows, c, hc, hcharged⟩ := reprice_shows hshows hlast
    exact ⟨⟨hshows.route, hshows.spends, hshows.gross⟩, sim, balances, c, hsim, hc, hcharged.total, hcharged.slippage⟩
  · rw [if_neg hok] at h
    exact absurd (Except.ok.inj h) nofun

theorem execute_spec {cfg : PipelineConfig} {a : Answers} {id : OpportunityId} {plan : PricedPlan}
    {built : List BuiltLeg} {job : Job} (h : execute cfg a id plan built = .ok (some job)) :
    ∃ candidate simulated, finish cfg a id plan built = .ok (some candidate) ∧
      simulateJob cfg a candidate = .ok (some simulated) ∧ job.opp.legs = simulated.opp.legs ∧
      ∀ guards, requiredFinalOut job.opp guards = requiredFinalOut simulated.opp guards := by
  unfold execute at h
  obtain ⟨finished, hfinish, h⟩ := Checked.bind_eq_ok.mp h
  cases finished with
  | none => exact absurd (Except.ok.inj h) nofun
  | some candidate =>
    obtain ⟨simulated, hsimulated, h⟩ := Checked.bind_eq_ok.mp h
    cases simulated with
    | none => exact absurd (Except.ok.inj h) nofun
    | some simulated =>
      have hdecide := Except.ok.inj h
      unfold decide at hdecide
      rw [Option.ite_none_right_eq_some] at hdecide
      obtain rfl := Option.some.inj hdecide.2
      exact ⟨candidate, simulated, hfinish, hsimulated, rfl, fun _ => rfl⟩

theorem clampU64_le_iff {x : ℤ} {m : ℕ} : clampU64 x ≤ m ↔ u64Max ≤ m ∨ x ≤ m := by
  unfold clampU64
  omega

/-- **The last leg holds the floor of the final pricing exactly where its charge rose by no more
than the minimum exceeds the quote's.** The minimum of an executed trade is at least the floor
that `protect` asked for, of the quote's costs; at least that of the final pricing exactly where
the fees, the tip and the buffer, the worst case of the other legs and the profit asked for have
together risen from the quote to the final pricing by no more than what it exceeds that floor by
(or no `u64` is larger). -/
theorem floor_holds_iff {cfg : PipelineConfig} {a : Answers} {id : OpportunityId} {plan : PricedPlan}
    {built : List BuiltLeg} {job : Job} {required : ℕ} (hamount : plan.amount < 2 ^ 64)
    (hquote : -2 ^ 63 ≤ a.floored.thresholds.guards.minProfitLamports ∧
      a.floored.thresholds.guards.minProfitLamports < 2 ^ 63)
    (hfinal : -2 ^ 63 ≤ a.lastView.thresholds.guards.minProfitLamports ∧
      a.lastView.thresholds.guards.minProfitLamports < 2 ^ 63)
    (hkeeps : ∀ b ∈ built, KeepsTolerance b.leg) (hon : a.checked.thresholds.protectMinOut = true)
    (hjob : execute cfg a id plan built = .ok (some job))
    (hrequired : requiredFinalOut job.opp a.lastView.thresholds.guards = .ok required) :
    ∃ candidate sim balances quoted final, finish cfg a id plan built = .ok (some candidate) ∧
      simulateTxs candidate.toSimJob a.simulating.thresholds.costParams.cuMargin a.rpc a.simulatedAt a.contextSlot =
        .ok (sim, balances) ∧
      tippedCosts (built.map BuiltLeg.leg) plan.amount .single none 0 (pricingEnv cfg a.quoted) = .ok quoted ∧
      tippedCosts candidate.opp.legs plan.amount (shapeOf candidate.plan candidate.txs)
        (some (sim.txs.map TxSim.unitsConsumed)) candidate.atasToCreate (pricingEnv cfg a.lastView) = .ok final ∧
      let minOut := lastMinOut candidate.opp.legs
      let before := charge (built.map BuiltLeg.leg) quoted a.floored.thresholds.guards
      let after := charge candidate.opp.legs final a.lastView.thresholds.guards
      (u64Max ≤ minOut ∨ plan.amount + before ≤ minOut) ∧
      (required ≤ lastMinOut job.opp.legs ↔ u64Max ≤ minOut ∨ after - before ≤ minOut - (plan.amount + before)) := by
  obtain ⟨candidate, simulated, hfinish, hsimulate, hlegs, hsame⟩ := execute_spec hjob
  obtain ⟨hcandidate, -⟩ := simulateJob_spec hsimulate
  obtain ⟨hshows, opp, floor, hopp, hfloor, hheld⟩ := finish_spec hkeeps hon hfinish hcandidate
  obtain ⟨-, hsim⟩ := simulateJob_spec hsimulate
  obtain ⟨hpriced, sim, balances, final, hsim, hcosts, hcharged⟩ := hsim hshows
  obtain ⟨hquoted, -, quoted, hquote₀, hcharged₀⟩ := priceLegs_shows hopp
  refine ⟨candidate, sim, balances, quoted, final, hfinish, hsim, hquote₀, hcosts, ?_, ?_⟩
  · rw [← clampU64_le_iff, ← required_eq hquoted hcharged₀ hamount hquote hfloor]
    exact hheld
  · rw [hsame] at hrequired
    rw [required_eq hpriced hcharged hamount hfinal hrequired, hlegs, hpriced.route, clampU64_le_iff]
    refine or_congr_right ?_
    constructor
    · intro h
      linarith
    · intro h
      linarith

/-! ### A simulation that uses more than was estimated -/

namespace Rise

def now : Ts := .ofSecs 1700000000

/-- Sell wrapped SOL and buy it back. -/
def plan : PricedPlan where
  amount := 100000000
  legs := [(wsolMint, RoundTrip.usdcMint), (RoundTrip.usdcMint, wsolMint)]
  baseMint := wsolMint

def sale : Leg := ⟨wsolMint, RoundTrip.usdcMint, 100000000, 10500000, 10489500, 10, now, some 100000⟩

/-- The way back at a tolerance. -/
def back (bps : ℕ) : Leg :=
  ⟨RoundTrip.usdcMint, wsolMint, 10500000, 101000000, 101000000 * (10000 - bps) / 10000, bps, now, some 100000⟩

def instructions (i : ℕ) : LegInstructions := RoundTrip.legs[i]?.getD ⟨[], RoundTrip.swap, none, [], []⟩

def built : List BuiltLeg := [⟨sale, instructions 0⟩, ⟨back 100, instructions 1⟩]

def config : PipelineConfig where
  taker := some RoundTrip.payer
  preferSingleTx := true
  maxQuoteAgeMs := 4000
  dontFront := none
  tipPolicy := ⟨.fixed, 10000, "p50", 5000, 1000, 200000⟩
  baseDecimals := 9

def view : View := ⟨⟨.default, .default, true⟩, none, some ⟨100000000⟩, now⟩

/-- The node's answer: the payer gains what the trade makes. -/
def outcome (units : ℕ) (tx : AssembledTx) : SimulateOutcome where
  err := none
  unitsConsumed := some units
  preBalances := some (tx.message.accountKeys.map fun a => if a = RoundTrip.payer then 1000000000 else 1)
  postBalances := some (tx.message.accountKeys.map fun a => if a = RoundTrip.payer then 1000845000 else 1)
  outputs := [10500000, 101000000]

def answers (units : ℕ) : Answers where
  quoted := view
  checked := view
  floored := view
  build := fun
    | .fixed bps => .ok ⟨back bps, instructions 1⟩
    | .rtse => .error .failed
  requoted := view
  codec := plainCodec
  existingAtas := {RoundTrip.wsolAta, RoundTrip.usdcAta}
  tipAccount := some ⟨16⟩
  blockhash := 0
  shaped := view
  simulating := view
  rpc tx := .ok (outcome units tx)
  simulatedAt := now
  contextSlot := some 100
  repriced := view
  lastTipFloor := none
  updatedAt := now
  engine := .new RiskEngine.defaultLimits
  risk := RiskEngine.paperContext now 0

/-- The floor of the final pricing and the minimum of the last leg, where the trade is executed. -/
def floors (units : ℕ) : Checked (ℕ × ℕ) := do
  match ← execute config (answers units) ⟨1⟩ plan built with
  | none => Checked.none
  | some job =>
    let required ← requiredFinalOut job.opp view.thresholds.guards
    pure (required, lastMinOut job.opp.legs)

theorem floors_eq_ok {units required minOut : ℕ} (h : floors units = .ok (required, minOut)) :
    ∃ job, execute config (answers units) ⟨1⟩ plan built = .ok (some job) ∧
      requiredFinalOut job.opp view.thresholds.guards = .ok required ∧ lastMinOut job.opp.legs = minOut := by
  unfold floors at h
  obtain ⟨job, hjob, h⟩ := Checked.bind_eq_ok.mp h
  cases job with
  | none => exact absurd h Checked.none_ne_ok
  | some job =>
    obtain ⟨r, hrequired, h⟩ := Checked.bind_eq_ok.mp h
    obtain ⟨rfl, rfl⟩ := Prod.mk.inj (Except.ok.inj h)
    exact ⟨job, hjob, hrequired, rfl⟩

end Rise

/-- Estimated at 600,000 units and simulated with 700,000, a trade is executed whose last leg may
return 22,900 lamports less than the floor of its final pricing. -/
theorem floor_outgrown : Rise.view.thresholds.protectMinOut = true ∧ (∀ b ∈ Rise.built, KeepsTolerance b.leg) ∧
    (∀ spec b, (Rise.answers 700000).build spec = .ok b → KeepsTolerance b.leg) ∧
    ∃ job, execute Rise.config (Rise.answers 700000) ⟨1⟩ Rise.plan Rise.built = .ok (some job) ∧
      requiredFinalOut job.opp Rise.view.thresholds.guards = .ok 100225000 ∧ lastMinOut job.opp.legs = 100202100 := by
  refine ⟨rfl, by decide, ?_, Rise.floors_eq_ok (by decide +kernel)⟩
  intro spec b hbuild
  cases spec with
  | rtse => exact absurd hbuild (by simp [Rise.answers])
  | fixed bps =>
    obtain rfl := Except.ok.inj hbuild
    exact le_rfl

/-- Simulated with 300,000, the trade pays 24,000 lamports less than estimated: the floor holds. -/
theorem floor_holds_iff_estimated : ∃ job,
    execute Rise.config (Rise.answers 300000) ⟨1⟩ Rise.plan Rise.built = .ok (some job) ∧
    100177000 ≤ lastMinOut job.opp.legs ∧ ∃ candidate quoted final,
      finish Rise.config (Rise.answers 300000) ⟨1⟩ Rise.plan Rise.built = .ok (some candidate) ∧
      (u64Max ≤ lastMinOut candidate.opp.legs ∨
        charge candidate.opp.legs final .default - charge (Rise.built.map BuiltLeg.leg) quoted .default ≤
          lastMinOut candidate.opp.legs -
            (Rise.plan.amount + charge (Rise.built.map BuiltLeg.leg) quoted .default)) := by
  have hfloors : Rise.floors 300000 = .ok (100177000, 100202100) := by decide +kernel
  obtain ⟨job, hjob, hrequired, hmin⟩ := Rise.floors_eq_ok hfloors
  have hheld : 100177000 ≤ lastMinOut job.opp.legs := by omega
  obtain ⟨candidate, _, _, quoted, final, hfinish, -, -, -, -, hiff⟩ := floor_holds_iff (by decide) (by decide)
    (by decide) (by decide) rfl hjob hrequired
  exact ⟨job, hjob, hheld, candidate, quoted, final, hfinish, hiff.mp hheld⟩

end Pipeline
end MobiusSearcher
