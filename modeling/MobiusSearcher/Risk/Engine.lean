/-
# The risk engine

`crates/risk/src/lib.rs`: the limits, the day's running result, the counters
of failures and open executions, and `evaluate`, the last gate before
anything is executed. Every call takes the state's lock once, so a run is a
list of calls in lock order; each brings the clock its caller read.

Key definitions: `RiskEngine`, `RiskEngine.evaluate`, `Call`, `RiskEngine.step`.
Key theorem: `RiskEngine.evaluate_approved`.
-/
import MobiusSearcher.Core.Model

namespace MobiusSearcher

open Machine

structure RiskLimits where
  maxTradeLamports : ℕ
  maxTradePctOfEquityPpm : ℤ
  maxDailyLoss : UsdMicros
  maxConsecutiveFailures : ℕ
  maxSlippageBps : ℕ
  maxQuoteAgeMs : ℕ
  maxSimulationAgeMs : ℕ
  maxPriorityFeeLamports : ℕ
  maxJitoTipLamports : ℕ
  minWalletSolForFeesLamports : ℕ
  maxOpenExecutions : ℕ
  maxSlotLag : ℕ
  deriving DecidableEq, Repr

structure RiskState where
  /-- UTC day number the daily PnL belongs to. -/
  day : ℤ
  dailyPnl : UsdMicros
  consecutiveFailures : ℕ
  openExecutions : ℕ
  deriving DecidableEq, Repr

def RiskState.default : RiskState := ⟨0, UsdMicros.zero, 0, 0⟩

/-- Stops new trades. -/
structure KillSwitch where
  engaged : Bool
  reason : String
  deriving DecidableEq, Repr

namespace KillSwitch

def default : KillSwitch := ⟨false, ""⟩

/-- Whether it changed, and the switch after it. -/
def engage (k : KillSwitch) (reason : String) : Bool × KillSwitch := (!k.engaged, ⟨true, reason⟩)

def release (k : KillSwitch) : Bool × KillSwitch := (k.engaged, { k with engaged := false })

end KillSwitch

/-- Live facts the engine needs, gathered by the caller. -/
structure RiskContext where
  now : Ts
  mode : Mode
  equityLamports : ℕ
  /-- Fee-payer balance if known. -/
  walletLamports : Option ℕ
  solPrice : Option UsdPrice
  latestSlot : Option ℕ
  deriving DecidableEq, Repr

structure RiskEngine where
  limits : RiskLimits
  state : RiskState
  kill : KillSwitch
  deriving DecidableEq, Repr

/-- The UTC day of a timestamp. -/
def utcDay (t : Ts) : ℤ := t.micros / 86400000000

/-- A call of the engine, with what its caller brings. -/
inductive Call
  | state (now : Ts)
  | evaluate (o : Opportunity) (ctx : RiskContext)
  | openExecution
  | closeExecution (now : Ts) (success : Bool) (netUsd : UsdMicros)
  | setLimits (l : RiskLimits)
  | engage (reason : String)
  | release

/-- One check: its violation, when it fails. -/
def violates (fails : Bool) (v : RiskViolation) : List RiskViolation := if fails then [v] else []

@[simp] theorem violates_eq_nil (b : Bool) (v : RiskViolation) : violates b v = [] ↔ b = false := by
  cases b <;> simp [violates]

namespace RiskEngine

def new (limits : RiskLimits) : RiskEngine := ⟨limits, .default, .default⟩

/-- A new day starts with no result. -/
def rollDay (s : RiskState) (now : Ts) : RiskState :=
  if s.day ≠ utcDay now then { s with day := utcDay now, dailyPnl := .zero } else s

/-- The share of the equity the trade is, as the engine computes it (`as i64`). -/
def tradePct (input equity : ℕ) : ℤ := wrapI64 (input * 1000000 / equity : ℕ)

/-- The worst slippage tolerance of the legs. -/
def worstSlippage (o : Opportunity) : Option ℕ := (o.legs.map Leg.slippageBps).max?

/-- What is wrong with the simulation of the opportunity. -/
def simulationViolations (l : RiskLimits) (o : Opportunity) (ctx : RiskContext) : List RiskViolation :=
  match o.simulation with
  | none => [.simulationMissing]
  | some sim =>
    violates (!sim.ok) .simulationFailed ++
    violates (l.maxSimulationAgeMs < sim.simulatedAt.ageMs ctx.now)
      (.simulationAge (sim.simulatedAt.ageMs ctx.now) l.maxSimulationAgeMs) ++
    violates (sim.fidelity ≠ .exact && ctx.mode.sendsTransactions) .inexactSimulation ++
    (match ctx.latestSlot, sim.contextSlot with
     | some latest, some at_ => violates (l.maxSlotLag < latest - at_) (.slotStale (latest - at_) l.maxSlotLag)
     | _, _ => [])

def walletViolations (l : RiskLimits) (ctx : RiskContext) : List RiskViolation :=
  match ctx.walletLamports with
  | some w => violates (w < l.minWalletSolForFeesLamports) (.walletSolForFees w l.minWalletSolForFeesLamports)
  | none => violates ctx.mode.sendsTransactions (.walletSolForFees 0 l.minWalletSolForFeesLamports)

/-- Every violation of the opportunity, in the order they are checked. -/
def violations (l : RiskLimits) (st : RiskState) (kill : Bool) (o : Opportunity) (ctx : RiskContext) :
    List RiskViolation :=
  violates kill .killSwitch ++
  violates (l.maxTradeLamports < o.input) (.tradeSize o.input l.maxTradeLamports) ++
  violates (0 < ctx.equityLamports && l.maxTradePctOfEquityPpm < tradePct o.input ctx.equityLamports)
    (.tradePctOfEquity (tradePct o.input ctx.equityLamports) l.maxTradePctOfEquityPpm) ++
  violates (l.maxDailyLoss.val ≤ wrapI64 (-st.dailyPnl.val))
    (.dailyLoss (wrapI64 (-st.dailyPnl.val)) l.maxDailyLoss.val) ++
  violates (l.maxConsecutiveFailures ≤ st.consecutiveFailures)
    (.consecutiveFailures st.consecutiveFailures l.maxConsecutiveFailures) ++
  (match worstSlippage o with
   | some worst => violates (l.maxSlippageBps < worst) (.slippage worst l.maxSlippageBps)
   | none => []) ++
  violates (l.maxQuoteAgeMs < o.quoteAgeMs ctx.now) (.quoteAge (o.quoteAgeMs ctx.now) l.maxQuoteAgeMs) ++
  simulationViolations l o ctx ++
  violates (l.maxPriorityFeeLamports < o.costs.priorityFee)
    (.priorityFee o.costs.priorityFee l.maxPriorityFeeLamports) ++
  violates (l.maxJitoTipLamports < o.costs.jitoTip) (.jitoTip o.costs.jitoTip l.maxJitoTipLamports) ++
  walletViolations l ctx ++
  violates (l.maxOpenExecutions ≤ st.openExecutions) (.openExecutions st.openExecutions l.maxOpenExecutions) ++
  violates (o.eval.net ≤ 0) (.negativeExpectedPnl o.eval.net)

/-- Judge an opportunity: the decision, and the engine after the day was rolled. -/
def evaluate (e : RiskEngine) (o : Opportunity) (ctx : RiskContext) : RiskDecision × RiskEngine :=
  let st := rollDay e.state ctx.now
  let v := violations e.limits st e.kill.engaged o ctx
  (⟨o.id, v.isEmpty, v, ctx.now⟩, { e with state := st })

def openExecution (e : RiskEngine) : RiskEngine :=
  { e with state := { e.state with openExecutions := wrapU32 (e.state.openExecutions + 1) } }

/-- Record an execution outcome (paper or live). -/
def closeExecution (e : RiskEngine) (now : Ts) (success : Bool) (netUsd : UsdMicros) : RiskEngine :=
  let s := rollDay e.state now
  { e with state := { s with
      openExecutions := s.openExecutions - 1
      dailyPnl := s.dailyPnl.saturatingAdd netUsd
      consecutiveFailures := if success then 0 else wrapU32 (s.consecutiveFailures + 1) } }

def step (e : RiskEngine) : Call → RiskEngine
  | .state now => { e with state := rollDay e.state now }
  | .evaluate o ctx => (e.evaluate o ctx).2
  | .openExecution => e.openExecution
  | .closeExecution now success net => e.closeExecution now success net
  | .setLimits l => { e with limits := l }
  | .engage reason => { e with kill := (e.kill.engage reason).2 }
  | .release => { e with kill := e.kill.release.2 }

/-- What an approval means, check by check, on the engine's own numbers. -/
structure Approves (l : RiskLimits) (st : RiskState) (kill : Bool) (o : Opportunity) (ctx : RiskContext) :
    Prop where
  killSwitch : kill = false
  tradeSize : o.input ≤ l.maxTradeLamports
  tradePct : 0 < ctx.equityLamports → tradePct o.input ctx.equityLamports ≤ l.maxTradePctOfEquityPpm
  dailyLoss : wrapI64 (-st.dailyPnl.val) < l.maxDailyLoss.val
  failures : st.consecutiveFailures < l.maxConsecutiveFailures
  slippage : ∀ w, worstSlippage o = some w → w ≤ l.maxSlippageBps
  quoteAge : o.quoteAgeMs ctx.now ≤ l.maxQuoteAgeMs
  simulation : simulationViolations l o ctx = []
  priorityFee : o.costs.priorityFee ≤ l.maxPriorityFeeLamports
  jitoTip : o.costs.jitoTip ≤ l.maxJitoTipLamports
  wallet : walletViolations l ctx = []
  openExecutions : st.openExecutions < l.maxOpenExecutions
  net : 0 < o.eval.net

theorem violations_eq_nil (l : RiskLimits) (st : RiskState) (kill : Bool) (o : Opportunity)
    (ctx : RiskContext) : violations l st kill o ctx = [] ↔ Approves l st kill o ctx := by
  have hs : (match worstSlippage o with
      | some worst => violates (l.maxSlippageBps < worst) (.slippage worst l.maxSlippageBps)
      | none => []) = [] ↔ ∀ w, worstSlippage o = some w → w ≤ l.maxSlippageBps := by
    cases worstSlippage o <;> simp
  simp only [violations, List.append_eq_nil_iff, hs, violates_eq_nil, decide_eq_false_iff_not, not_lt,
    not_le, Bool.and_eq_false_iff]
  constructor
  · rintro ⟨⟨⟨⟨⟨⟨⟨⟨⟨⟨⟨⟨h1, h2⟩, h3⟩, h4⟩, h5⟩, h6⟩, h7⟩, h8⟩, h9⟩, h10⟩, h11⟩, h12⟩, h13⟩
    refine ⟨h1, h2, fun he => ?_, h4, h5, h6, h7, h8, h9, h10, h11, h12, h13⟩
    exact h3.resolve_left (by omega)
  · rintro ⟨h1, h2, h3, h4, h5, h6, h7, h8, h9, h10, h11, h12, h13⟩
    refine ⟨⟨⟨⟨⟨⟨⟨⟨⟨⟨⟨⟨h1, h2⟩, ?_⟩, h4⟩, h5⟩, h6⟩, h7⟩, h8⟩, h9⟩, h10⟩, h11⟩, h12⟩, h13⟩
    by_cases he : 0 < ctx.equityLamports
    · exact Or.inr (h3 he)
    · exact Or.inl (not_lt.mp he)

/-- **An opportunity is approved exactly when every check passes.** -/
theorem evaluate_approved (e : RiskEngine) (o : Opportunity) (ctx : RiskContext) :
    (e.evaluate o ctx).1.approved = true ↔
      Approves e.limits (rollDay e.state ctx.now) e.kill.engaged o ctx := by
  rw [← violations_eq_nil]
  exact List.isEmpty_iff

@[simp] theorem rollDay_day (s : RiskState) (now : Ts) : (rollDay s now).day = utcDay now := by
  unfold rollDay
  split
  · rfl
  · rename_i h
    simpa using h

@[simp] theorem rollDay_failures (s : RiskState) (now : Ts) :
    (rollDay s now).consecutiveFailures = s.consecutiveFailures := by
  unfold rollDay
  split <;> rfl

@[simp] theorem rollDay_open (s : RiskState) (now : Ts) :
    (rollDay s now).openExecutions = s.openExecutions := by
  unfold rollDay
  split <;> rfl

theorem rollDay_same {s : RiskState} {now : Ts} (h : s.day = utcDay now) : rollDay s now = s := by
  simp [rollDay, h]

theorem rollDay_new {s : RiskState} {now : Ts} (h : s.day ≠ utcDay now) :
    (rollDay s now).dailyPnl = .zero := by
  simp [rollDay, h]

end RiskEngine

end MobiusSearcher
