/-
# From a quote to an execution

`crates/execution/src/pipeline.rs` from `finish` to `decide`, and the tip policy
of `crates/jito/src/tip_policy.rs`. A quoted route is priced; a candidate is
given a floor under its last leg (`protect`), which may be quoted again for it;
its transactions are composed, simulated, and the trade is priced again with
their shape and the units they used, twice. What the risk engine approves is
executed.

Between the stages time passes: each reads the thresholds, the tip floor and the
price of SOL as they are then (`View`). What the provider, the chain and the node
answer is given (`Answers`). What is only emitted is left out, and so is a job
that goes no further: there is none then.

Key definitions: `TipPolicyConfig.quote`, `protect`, `prepare`, `simulateJob`,
`execute`.
-/
import MobiusSearcher.Execution.Delta
import MobiusSearcher.Execution.Rent
import MobiusSearcher.Risk.Engine

namespace MobiusSearcher
namespace Pipeline

open Machine Assemble

/-! ### Tips -/

inductive TipPolicyKind
  | fixed
  | percentile
  | profitShare
  deriving DecidableEq, Repr

structure TipPolicyConfig where
  kind : TipPolicyKind
  fixedLamports : ℕ
  /-- `p25` | `p50` | `p75` | `p95` | `p99` | `ema50` of landed tips. -/
  percentile : String
  /-- Share of expected (pre-tip) net profit offered as tip, bps. -/
  profitShareBps : ℕ
  minLamports : ℕ
  maxLamports : ℕ
  deriving DecidableEq, Repr

/-- Landed tips, by percentile. -/
structure TipFloor where
  p25 : ℕ
  p50 : ℕ
  p75 : ℕ
  p95 : ℕ
  p99 : ℕ
  emaP50 : ℕ
  deriving DecidableEq, Repr

def pick (floor : TipFloor) (which : String) : ℕ :=
  if which = "p25" then floor.p25
  else if which = "p75" then floor.p75
  else if which = "p95" then floor.p95
  else if which = "p99" then floor.p99
  else if which = "ema50" then floor.emaP50
  else floor.p50

/-- `profitBeforeTip`: expected net PnL excluding the tip. -/
def TipPolicyConfig.quote (c : TipPolicyConfig) (floor : Option TipFloor) (profitBeforeTip : ℤ) : TipInfo :=
  let raw := match c.kind with
    | .fixed => c.fixedLamports
    | .percentile => match floor with
      | some f => pick f c.percentile
      | none => c.fixedLamports
    | .profitShare => wrapU64 (profitBeforeTip.toNat * c.profitShareBps / 10000)
  let floorMin := max c.minLamports jitoMinTipLamports
  { lamports := max floorMin (min raw (max c.maxLamports floorMin)), capped := c.maxLamports < raw }

/-! ### What the stages read -/

/-- The operator-adjustable part of the pipeline configuration. -/
structure Thresholds where
  guards : ProfitGuards
  costParams : CostParams
  protectMinOut : Bool

structure PipelineConfig where
  /-- Taker for the quotes and the simulation. -/
  taker : Option Address
  preferSingleTx : Bool
  maxQuoteAgeMs : ℕ
  dontFront : Option Address
  tipPolicy : TipPolicyConfig
  baseDecimals : ℕ

/-- What there is to read at one moment. -/
structure View where
  thresholds : Thresholds
  tipFloor : Option TipFloor
  solPrice : Option UsdPrice
  now : Ts

/-- A quoted leg with its instructions. -/
structure BuiltLeg where
  leg : Leg
  instructions : LegInstructions

/-- Why a leg was not built. -/
inductive BuildError
  | rateLimited
  | failed
  deriving DecidableEq, Repr

/-- A candidate handed from the scanner to the simulator. -/
structure Job extends SimJob where
  tipAccount : Option Address
  atasToCreate : ℕ

/-- What the stages are answered, from the quote to the decision. -/
structure Answers where
  /-- At the first pricing. -/
  quoted : View
  /-- When it is decided whether to protect. -/
  checked : View
  /-- At `protect`. -/
  floored : View
  /-- The last leg with another tolerance. -/
  build : SlippageSpec → Except BuildError BuiltLeg
  /-- After it was quoted again. -/
  requoted : View
  codec : Codec
  existingAtas : Finset Address
  tipAccount : Option Address
  blockhash : ℕ
  /-- When the shape is known. -/
  shaped : View
  /-- When the simulator takes the job. -/
  simulating : View
  rpc : AssembledTx → Except String SimulateOutcome
  simulatedAt : Ts
  contextSlot : Option ℕ
  /-- After the simulation. -/
  repriced : View
  /-- The tip floor at the second pricing after it, of the same thresholds. -/
  lastTipFloor : Option TipFloor
  updatedAt : Ts
  engine : RiskEngine
  risk : RiskContext

/-- What the last pricing reads. -/
def Answers.lastView (a : Answers) : View := { a.repriced with tipFloor := a.lastTipFloor }

section Stages

variable (cfg : PipelineConfig)

def pricingEnv (v : View) : PricingEnv where
  costParams := v.thresholds.costParams
  guards := v.thresholds.guards
  tip := cfg.tipPolicy.quote v.tipFloor

def priceLegs (v : View) (id : OpportunityId) (plan : PricedPlan) (legs : List Leg) (shape : TxShape) (atas : ℕ) :
    Checked Opportunity :=
  price
    { id, plan, legs, now := v.now, solPrice := v.solPrice, baseDecimals := cfg.baseDecimals, shape
      atasToCreate := atas } (pricingEnv cfg v)

/-- The floor under the last leg: its own minimum holds it, or it is quoted again with a tolerance that does. -/
def protect (a : Answers) (plan : PricedPlan) (opp : Opportunity) (built : List BuiltLeg) :
    Checked (Opportunity × List BuiltLeg) :=
  match built.getLast? with
  | none => pure (opp, built)
  | some last => do
    let required ← requiredFinalOut opp a.floored.thresholds.guards
    match protectiveSlippageBps last.leg.outAmount required with
    | none => pure ({ opp with status := .skipped .slippage }, built)
    | some bps =>
      if last.leg.slippageBps ≤ bps then pure (opp, built)
      else match a.build (.fixed bps) with
        | .ok b =>
          if required ≤ b.leg.minOut then do
            let built := built.dropLast ++ [b]
            let opp ← priceLegs cfg a.requoted opp.id plan (built.map BuiltLeg.leg) .single 0
            pure (opp, built)
          -- the market moved
          else pure ({ opp with status := .skipped .slippage }, built)
        | .error .rateLimited => pure ({ opp with status := .skipped .rateLimited }, built)
        | .error .failed => pure ({ opp with status := .skipped .buildFailed }, built)

/-- One transaction where that is preferred and fits, and a bundle otherwise. -/
def assemble (codec : Codec) (legs : List LegInstructions) (p : AssemblyParams) :
    Except AssemblyError (PlanKind × List AssembledTx) :=
  let bundle := (compose codec .bundle legs p none).map fun txs => (PlanKind.bundle, txs)
  if cfg.preferSingleTx then
    match compose codec .singleTx legs p none with
    | .ok txs => .ok (.singleTx, txs)
    | .error e => if e.isSizeLimit then bundle else .error e
  else bundle

/-- The shape of a plan's transactions. -/
def shapeOf (kind : PlanKind) (txs : List AssembledTx) : TxShape :=
  match kind with
  | .singleTx => .single
  | .bundle => .bundle txs.length

/-- Priced again with the real shape and the rent; what was skipped stays so. -/
def reshape (a : Answers) (plan : PricedPlan) (opp : Opportunity) (kind : PlanKind) (txs : List AssembledTx) :
    Checked Opportunity :=
  if kind = .bundle ∨ 0 < Assemble.atasToCreate txs then do
    let o ← priceLegs cfg a.shaped opp.id plan opp.legs (shapeOf kind txs) (Assemble.atasToCreate txs)
    pure (if opp.status ≠ .quoted ∧ o.status = .quoted then { o with status := opp.status } else o)
  else pure opp

/-- A candidate is protected, where that is on. -/
def protectCandidate (a : Answers) (plan : PricedPlan) (opp : Opportunity) (built : List BuiltLeg) :
    Checked (Opportunity × List BuiltLeg) :=
  if opp.status = .quoted ∧ a.checked.thresholds.protectMinOut then protect cfg a plan opp built else pure (opp, built)

/-- Protect and assemble a priced route; no job where it cannot be assembled. -/
def prepare (a : Answers) (plan : PricedPlan) (opp : Opportunity) (built : List BuiltLeg) : Checked (Option Job) := do
  let (opp, built) ← protectCandidate cfg a plan opp built
  let legs := built.map BuiltLeg.instructions
  let params : AssemblyParams :=
    { payer := cfg.taker.getD ⟨1⟩
      cuLimit := maxComputeUnitsPerTx
      cuPriceMicro := opp.costs.computeUnitPriceMicro
      tip := a.tipAccount.map fun account => (account, opp.costs.jitoTip)
      dontFront := cfg.dontFront
      existingAtas := a.existingAtas
      blockhash := a.blockhash }
  match assemble cfg a.codec legs params with
  | .error _ => pure none
  | .ok (kind, txs) => do
    let priced ← reshape cfg a plan opp kind txs
    pure (some
      { opp := priced
        legs
        plan := kind
        txs
        simCuLimit := maxComputeUnitsPerTx
        simCuPrice := opp.costs.computeUnitPriceMicro
        simTip := if a.tipAccount.isSome then priced.costs.jitoTip else 0
        taker := cfg.taker.getD ⟨1⟩
        tipAccount := a.tipAccount
        atasToCreate := Assemble.atasToCreate txs })

/-- A computation without a value is an `Option` without one. -/
def optional {α : Type} : Checked α → Checked (Option α)
  | .ok x => pure (some x)
  | .error .none => pure none
  | .error .panic => Checked.panic

/-- Rent of the accounts an exact simulation left created. -/
def depositsIn (sim : SimulationResult) : Checked (Option ℕ) :=
  match sim.fidelity, sim.txs with
  | .exact, [t] => (depositsOf t).map some
  | _, _ => pure none

def reprice (v : View) (job : Job) (opp : Opportunity) (cuUsed : List ℕ) (delta : Option ℤ) (deposits : Option ℕ)
    (now : Ts) : Checked Opportunity :=
  repriceAfterSimulation opp (shapeOf job.plan job.txs) cuUsed delta deposits job.atasToCreate (pricingEnv cfg v)
    cfg.baseDecimals now

/-- Simulate a job and price it with what it used: the job that is handed to the risk engine, a candidate still. -/
def simulateJob (a : Answers) (job : Job) : Checked (Option Job) :=
  if cfg.maxQuoteAgeMs < job.opp.quoteAgeMs a.simulating.now ∨ cfg.taker = none then pure none
  else do
    let (sim, balances) ← simulateTxs job.toSimJob a.simulating.thresholds.costParams.cuMargin a.rpc a.simulatedAt
      a.contextSlot
    if sim.ok then
      let cuUsed := sim.txs.map TxSim.unitsConsumed
      let first ← reprice cfg a.repriced job job.opp cuUsed none none a.simulating.now
      let deposits ← depositsIn sim
      let delta ← optional ({ job.toSimJob with opp := first }.delta sim balances)
      let last ← reprice cfg a.lastView job first cuUsed delta deposits a.simulating.now
      let opp := { last with simulation := some sim, updatedAt := a.updatedAt }
      -- an unprofitable sample keeps the reason it had
      pure (if job.opp.status = .quoted ∧ opp.status = .quoted then some { job with opp } else none)
    else pure none

/-- What the risk engine approves is executed: filled on paper, confirmed and sent, or sent. -/
def decide (a : Answers) (job : Job) : Option Job :=
  let d := (a.engine.evaluate job.opp a.risk).1
  if d.approved then some { job with opp := { job.opp with risk := some d, status := .executable } } else none

/-- Price a fully quoted route, then protect and assemble it. -/
def finish (a : Answers) (id : OpportunityId) (plan : PricedPlan) (built : List BuiltLeg) : Checked (Option Job) := do
  let opp ← priceLegs cfg a.quoted id plan (built.map BuiltLeg.leg) .single 0
  prepare cfg a plan opp built

/-- What is executed of a quoted route. -/
def execute (a : Answers) (id : OpportunityId) (plan : PricedPlan) (built : List BuiltLeg) : Checked (Option Job) := do
  match ← finish cfg a id plan built with
  | none => pure none
  | some job =>
    match ← simulateJob cfg a job with
    | none => pure none
    | some job => pure (decide a job)

end Stages

end Pipeline
end MobiusSearcher
