/-
# Opportunities, simulations and decisions

`crates/core/src/model.rs`: the record an opportunity is priced, simulated,
judged and executed as. What is only shown or stored (labels, hops, latencies,
logs) is left out.

Key definitions: `Opportunity`, `SimulationResult`, `RiskViolation`, `RiskDecision`.
-/
import MobiusSearcher.Core.Profit

namespace MobiusSearcher

inductive Mode
  | paper
  | confirm
  | live
  deriving DecidableEq, Repr

/-- Whether this mode ever signs and sends transactions. -/
def Mode.sendsTransactions : Mode → Bool
  | .paper => false
  | .confirm => true
  | .live => true

structure OpportunityId where
  n : ℕ
  deriving DecidableEq, Repr

inductive SkipReason
  | edgeTooSmall | staleQuote | simFailed | slippage | tipTooHigh | riskLimit | noRoute | buildFailed
  | rateLimited | txTooLarge | priceUnavailable | killSwitch | simUnavailable | declined | expired
  | deposit | inventory
  deriving DecidableEq, Repr

inductive OppStatus
  /-- Priced from real quotes, not yet simulated. -/
  | quoted
  | skipped (r : SkipReason)
  /-- Passed simulation and risk. -/
  | executable
  | awaitingConfirm
  | submitted
  | paperFilled
  | landed
  | failed
  deriving DecidableEq, Repr

inductive PlanKind
  /-- All legs composed into one transaction. -/
  | singleTx
  /-- One transaction a leg. -/
  | bundle
  deriving DecidableEq, Repr

inductive SimFidelity
  /-- The whole cycle simulated in one transaction. -/
  | exact
  /-- Each transaction simulated on its own. -/
  | perTx
  deriving DecidableEq, Repr

/-- One simulated transaction. -/
structure TxSim where
  ok : Bool
  unitsConsumed : ℕ
  cuLimit : ℕ
  /-- Executed output of each route instruction. -/
  legOutputs : List ℕ
  /-- Accounts it leaves created, with the lamports in them. -/
  created : List (Address × ℕ)
  deriving DecidableEq, Repr

structure SimulationResult where
  plan : PlanKind
  fidelity : SimFidelity
  ok : Bool
  txs : List TxSim
  simulatedAt : Ts
  contextSlot : Option ℕ
  deriving DecidableEq, Repr

inductive RiskViolation
  | killSwitch
  | tradeSize (input max : ℕ)
  | tradePctOfEquity (pctPpm maxPpm : ℤ)
  | dailyLoss (lossUsdMicros maxUsdMicros : ℤ)
  | consecutiveFailures (count max : ℕ)
  | slippage (bps maxBps : ℕ)
  | quoteAge (ageMs maxMs : ℕ)
  | simulationAge (ageMs maxMs : ℕ)
  | simulationMissing
  | priorityFee (lamports max : ℕ)
  | jitoTip (lamports max : ℕ)
  | walletSolForFees (lamports min : ℕ)
  | openExecutions (opened max : ℕ)
  | slotStale (ageSlots maxSlots : ℕ)
  | negativeExpectedPnl (lamports : ℤ)
  | inexactSimulation
  | simulationFailed
  deriving DecidableEq, Repr

structure RiskDecision where
  opportunity : OpportunityId
  approved : Bool
  violations : List RiskViolation
  checkedAt : Ts
  deriving DecidableEq, Repr

structure Opportunity where
  id : OpportunityId
  input : ℕ
  grossOutput : ℕ
  /-- The route's legs. -/
  legs : List Leg
  costs : CostBreakdown
  eval : ProfitEval
  status : OppStatus
  updatedAt : Ts
  solPrice : Option UsdPrice
  simulation : Option SimulationResult
  risk : Option RiskDecision
  guard : Option GuardFailure
  deriving DecidableEq, Repr

namespace Opportunity

/-- The oldest quote of the route. -/
def oldestQuote (o : Opportunity) : Option Ts :=
  (o.legs.map fun l => l.quotedAt.micros).min?.map Ts.mk

/-- The age of the oldest quote; with no leg, the largest `u64`. -/
def quoteAgeMs (o : Opportunity) (now : Ts) : ℕ :=
  match o.oldestQuote with
  | some t => t.ageMs now
  | none => Machine.u64Max

end Opportunity

end MobiusSearcher
