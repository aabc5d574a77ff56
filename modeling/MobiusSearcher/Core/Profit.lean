/-
# The profit engine

`crates/core/src/profit.rs`: net profit after every cost, and the three
guards it must pass.

Key definitions: `evaluate`, `checkGuards`.
-/
import MobiusSearcher.Core.Costs

namespace MobiusSearcher

open Machine

structure ProfitEval where
  grossPnl : ℤ
  expectedNet : ℤ
  grossEdge : Ppm
  netEdge : Ppm
  grossUsd : Option UsdMicros
  expectedNetUsd : Option UsdMicros
  /-- Net change of the taker in an exact simulation, less what it cannot see. -/
  simulatedNet : Option ℤ
  deriving DecidableEq, Repr

namespace ProfitEval

/-- The net a decision is made on: the smaller of the simulated and the expected. -/
def net (e : ProfitEval) : ℤ :=
  match e.simulatedNet with
  | some s => min s e.expectedNet
  | none => e.expectedNet

end ProfitEval

def evaluate (input grossOutput : ℕ) (costs : CostBreakdown) (baseDecimals : ℕ)
    (basePrice : Option UsdPrice) : ProfitEval :=
  let gross : ℤ := grossOutput - input
  let net : ℤ := gross - costs.total
  { grossPnl := clampI64 gross
    expectedNet := clampI64 net
    grossEdge := (Ppm.ratio gross input).getD Ppm.zero
    netEdge := (Ppm.ratio net input).getD Ppm.zero
    grossUsd := basePrice.bind fun p => p.value gross baseDecimals
    expectedNetUsd := basePrice.bind fun p => p.value net baseDecimals
    simulatedNet := none }

structure ProfitGuards where
  minProfitLamports : ℤ
  minProfitEdge : Ppm
  minProfitUsd : UsdMicros
  deriving DecidableEq, Repr

def ProfitGuards.default : ProfitGuards := ⟨10000, Ppm.fromBps 5, ⟨10000⟩⟩

inductive GuardFailure
  | lamports (net min : ℤ)
  | edge (netEdge min : Ppm)
  | usd (netUsd min : UsdMicros)
  /-- A USD guard and no price to evaluate it. -/
  | priceUnavailable
  deriving DecidableEq, Repr

/-- The net in USD, rescaled from the expected net at the same price. -/
def netUsd (eval : ProfitEval) (net : ℤ) : Option UsdMicros :=
  eval.expectedNetUsd.map fun usd =>
    if eval.expectedNet ≠ 0 then ⟨wrapI64 (Int.tdiv (usd.val * net) eval.expectedNet)⟩ else usd

/-- All three guards must pass; `none` when they do. -/
def checkGuards (eval : ProfitEval) (input : ℕ) (g : ProfitGuards) : Option GuardFailure :=
  let net := eval.net
  let edge := (Ppm.ratio net input).getD Ppm.zero
  if net < g.minProfitLamports then some (.lamports net g.minProfitLamports)
  else if edge.val < g.minProfitEdge.val then some (.edge edge g.minProfitEdge)
  else if 0 < g.minProfitUsd.val then
    match netUsd eval net with
    | none => some .priceUnavailable
    | some usd => if usd.val < g.minProfitUsd.val then some (.usd usd g.minProfitUsd) else none
  else none

end MobiusSearcher
