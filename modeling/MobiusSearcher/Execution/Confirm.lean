/-
# From an approval to a submission

The last stages of `crates/execution/src/pipeline.rs` (`decide`,
`confirm_then_send`, `send_live` up to `open_execution`) and the operator
commands that run beside them (`apps/mobius-searcher/src/engine.rs`). One
simulator task takes job after job; the commands, the clock and the views the
engine is given move on between any two of its steps.

A job is judged once. While it waits for the operator, and until it is opened,
only its quote age is looked at again. So a submission is one the engine would
still approve when nothing it was judged by has changed since
(`submissions_approved`); a kill switch engaged meanwhile does not stop it
(`sent_over_kill_switch`).

Key definitions: `Station`, `step`, `Undisturbed`, `Held`.
Key theorems: `held_step`, `submissions_approved`, `sent_over_kill_switch`.
-/
import MobiusSearcher.Risk.Runs

namespace MobiusSearcher
namespace Confirm

open Machine RiskEngine

structure Settings where
  mode : Mode
  maxQuoteAgeMs : ℕ
  /-- A permit to send and a wallet are there. -/
  live : Bool

/-- What the simulator task is doing. -/
inductive Phase
  | idle
  /-- `confirm_then_send` waits; the operator's answer, once there is one. -/
  | awaiting (o : Opportunity) (answer : Option Bool)
  /-- In `send_live`, before the execution is opened. -/
  | sending (o : Opportunity)
  | executing (o : Opportunity)

structure Station where
  engine : RiskEngine
  /-- What the engine would be given now. -/
  facts : RiskContext
  phase : Phase

inductive Event
  /-- The clock, the wallet, the price and the slot move on. -/
  | facts (now : RiskContext)
  | engage (reason : String)
  | release
  | setLimits (l : RiskLimits)
  | confirm (id : OpportunityId) (approve : Bool)
  /-- The engine's state is read for a report. -/
  | report
  /-- A candidate that passed its simulation is judged. -/
  | decide (o : Opportunity)
  /-- The wait ends with the operator's answer. -/
  | answered
  | timeout
  /-- The final transactions are composed, or not; then the execution is opened. -/
  | send (composed : Bool)
  | close (success : Bool) (netUsd : UsdMicros)

def Station.ctx (cfg : Settings) (s : Station) : RiskContext := { s.facts with mode := cfg.mode }

/-- A paper fill: opened and closed at once, with the net it was judged by. -/
def paperFill (s : Station) (o : Opportunity) : Station :=
  let net := (s.facts.solPrice.bind fun p => p.value o.eval.net 9).getD .zero
  { s with engine := s.engine.openExecution.closeExecution s.facts.now true net, phase := .idle }

def decide (cfg : Settings) (s : Station) (o : Opportunity) : Station :=
  let (d, engine) := s.engine.evaluate o (s.ctx cfg)
  let s := { s with engine }
  let o := { o with risk := some d }
  if d.approved then
    match cfg.mode with
    | .paper => paperFill s { o with status := .executable }
    | .confirm => { s with phase := .awaiting { o with status := .awaitingConfirm } none }
    | .live => { s with phase := .sending { o with status := .executable } }
  else { s with phase := .idle }

/-- The operator's answer: it is taken by the job that waits under this id, once. -/
def resolve (s : Station) (id : OpportunityId) (approve : Bool) : Station :=
  match s.phase with
  | .awaiting o none => if o.id = id then { s with phase := .awaiting o (some approve) } else s
  | _ => s

/-- What happens next, when it can. -/
def step (cfg : Settings) (s : Station) : Event → Option Station
  | .facts now => some { s with facts := now }
  | .engage reason => some { s with engine := s.engine.step (.engage reason) }
  | .release => some { s with engine := s.engine.step .release }
  | .setLimits l => some { s with engine := s.engine.step (.setLimits l) }
  | .confirm id approve => some (resolve s id approve)
  | .report => some { s with engine := s.engine.step (.state s.facts.now) }
  | .decide o =>
    match s.phase with
    | .idle => some (decide cfg s o)
    | _ => none
  | .answered =>
    match s.phase with
    | .awaiting o (some true) =>
      -- the quote may have aged while it waited
      if cfg.maxQuoteAgeMs < o.quoteAgeMs s.facts.now then some { s with phase := .idle }
      else some { s with phase := .sending o }
    | .awaiting _ (some false) => some { s with phase := .idle }
    | _ => none
  | .timeout =>
    match s.phase with
    | .awaiting _ none => some { s with phase := .idle }
    | _ => none
  | .send composed =>
    match s.phase with
    | .sending o =>
      if cfg.live && composed then
        some { s with engine := s.engine.openExecution, phase := .executing { o with status := .submitted } }
      else some { s with phase := .idle }
    | _ => none
  | .close success net =>
    match s.phase with
    | .executing _ => some { s with engine := s.engine.closeExecution s.facts.now success net, phase := .idle }
    | _ => none

def start (l : RiskLimits) (facts : RiskContext) : Station := ⟨.new l, facts, .idle⟩

/-- The job between its approval and its submission. -/
def Phase.pending : Phase → Option Opportunity
  | .awaiting o _ => some o
  | .sending o => some o
  | _ => none

/-- What moves on by itself would still pass: the ages of the quotes and of the
simulation, the slots since it, the wallet and its equity; and the day may
begin anew without its loss being over the limit. -/
structure Current (l : RiskLimits) (o : Opportunity) (ctx : RiskContext) : Prop where
  quoteAge : o.quoteAgeMs ctx.now ≤ l.maxQuoteAgeMs
  simulation : simulationViolations l o ctx = []
  wallet : walletViolations l ctx = []
  share : 0 < ctx.equityLamports → tradePct o.input ctx.equityLamports ≤ l.maxTradePctOfEquityPpm
  loss : 0 < l.maxDailyLoss.val

/-- The switch is not engaged and the limits are not replaced between an
approval and its submission; and at the submission what moves on by itself
would still pass. -/
def Undisturbed (cfg : Settings) (s : Station) : Event → Prop
  | .engage _ => s.phase.pending = none
  | .setLimits _ => s.phase.pending = none
  | .send _ => ∀ o, s.phase = .sending o → Current s.engine.limits o (s.ctx cfg)
  | _ => True

/-- What the engine judged the job by and nothing but its own calls can change. -/
structure Held (e : RiskEngine) (o : Opportunity) : Prop where
  killSwitch : e.kill.engaged = false
  tradeSize : o.input ≤ e.limits.maxTradeLamports
  dailyLoss : wrapI64 (-e.state.dailyPnl.val) < e.limits.maxDailyLoss.val ∨ e.state.dailyPnl = .zero
  failures : e.state.consecutiveFailures < e.limits.maxConsecutiveFailures
  slippage : ∀ w, worstSlippage o = some w → w ≤ e.limits.maxSlippageBps
  priorityFee : o.costs.priorityFee ≤ e.limits.maxPriorityFeeLamports
  jitoTip : o.costs.jitoTip ≤ e.limits.maxJitoTipLamports
  openExecutions : e.state.openExecutions < e.limits.maxOpenExecutions
  net : 0 < o.eval.net

theorem held_of_approved {e : RiskEngine} {o : Opportunity} {ctx : RiskContext}
    (h : (e.evaluate o ctx).1.approved = true) : Held (e.evaluate o ctx).2 o := by
  have ha := (evaluate_approved e o ctx).mp h
  exact ⟨ha.killSwitch, ha.tradeSize, .inl ha.dailyLoss, ha.failures, ha.slippage, ha.priorityFee, ha.jitoTip,
    ha.openExecutions, ha.net⟩

/-- A new day forgets the old one's result, and nothing else. -/
theorem Held.roll {e : RiskEngine} {o : Opportunity} (h : Held e o) (now : Ts) :
    Held { e with state := rollDay e.state now } o := by
  refine ⟨h.killSwitch, h.tradeSize, ?_, ?_, h.slippage, h.priorityFee, h.jitoTip, ?_, h.net⟩
  · by_cases hd : e.state.day = utcDay now
    · rw [rollDay_same hd]
      exact h.dailyLoss
    · exact .inr (rollDay_new hd)
  · simpa using h.failures
  · simpa using h.openExecutions

/-- With what moves on by itself, that is all the engine checks. -/
theorem Held.approves {e : RiskEngine} {o : Opportunity} {ctx : RiskContext} (h : Held e o)
    (hc : Current e.limits o ctx) : (e.evaluate o ctx).1.approved = true := by
  have hr := h.roll ctx.now
  refine (evaluate_approved e o ctx).mpr ⟨h.killSwitch, h.tradeSize, hc.share, ?_, hr.failures, h.slippage,
    hc.quoteAge, hc.simulation, h.priorityFee, h.jitoTip, hc.wallet, hr.openExecutions, h.net⟩
  rcases hr.dailyLoss with hl | hz
  · exact hl
  · have h0 : (rollDay e.state ctx.now).dailyPnl.val = 0 := congrArg UsdMicros.val hz
    rw [h0]
    exact hc.loss

/-- A job that is between its approval and its submission is one the engine still holds good. -/
def Waits (s : Station) : Prop := ∀ o, s.phase.pending = some o → Held s.engine o

theorem Waits.of_none {s : Station} (h : s.phase.pending = none) : Waits s := by
  intro o ho
  rw [h] at ho
  exact nomatch ho

theorem waits_decide (cfg : Settings) (s : Station) (o : Opportunity) : Waits (decide cfg s o) := by
  unfold decide
  simp only
  split
  · rename_i ha
    have hh := held_of_approved ha
    split
    · exact .of_none rfl
    · rintro o' ⟨rfl⟩
      exact ⟨hh.killSwitch, hh.tradeSize, hh.dailyLoss, hh.failures, hh.slippage, hh.priorityFee, hh.jitoTip,
        hh.openExecutions, hh.net⟩
    · rintro o' ⟨rfl⟩
      exact ⟨hh.killSwitch, hh.tradeSize, hh.dailyLoss, hh.failures, hh.slippage, hh.priorityFee, hh.jitoTip,
        hh.openExecutions, hh.net⟩
  · exact .of_none rfl

theorem resolve_pending (s : Station) (id : OpportunityId) (approve : Bool) :
    (resolve s id approve).phase.pending = s.phase.pending ∧ (resolve s id approve).engine = s.engine := by
  unfold resolve
  split
  · rename_i o hp
    split
    · exact ⟨by rw [hp]; rfl, rfl⟩
    · exact ⟨rfl, rfl⟩
  · exact ⟨rfl, rfl⟩

theorem waits_step {cfg : Settings} {s s' : Station} {e : Event} (h : Waits s) (hu : Undisturbed cfg s e)
    (hs : step cfg s e = some s') : Waits s' := by
  cases e with
  | facts now =>
    obtain rfl := Option.some.inj hs
    exact h
  | engage reason =>
    obtain rfl := Option.some.inj hs
    exact .of_none hu
  | release =>
    obtain rfl := Option.some.inj hs
    intro o ho
    have hh := h o ho
    exact ⟨rfl, hh.tradeSize, hh.dailyLoss, hh.failures, hh.slippage, hh.priorityFee, hh.jitoTip, hh.openExecutions,
      hh.net⟩
  | setLimits l =>
    obtain rfl := Option.some.inj hs
    exact .of_none hu
  | confirm id approve =>
    obtain rfl := Option.some.inj hs
    obtain ⟨hp, he⟩ := resolve_pending s id approve
    intro o ho
    rw [he]
    exact h o (hp ▸ ho)
  | report =>
    obtain rfl := Option.some.inj hs
    exact fun o ho => (h o ho).roll s.facts.now
  | decide o =>
    simp only [step] at hs
    split at hs
    · obtain rfl := Option.some.inj hs
      exact waits_decide cfg s o
    · exact nomatch hs
  | answered =>
    simp only [step] at hs
    split at hs
    · rename_i o hp
      split at hs
      · obtain rfl := Option.some.inj hs
        exact .of_none rfl
      · obtain rfl := Option.some.inj hs
        rintro o' ⟨rfl⟩
        exact h o (by rw [hp]; rfl)
    · obtain rfl := Option.some.inj hs
      exact .of_none rfl
    · exact nomatch hs
  | timeout =>
    simp only [step] at hs
    split at hs
    · obtain rfl := Option.some.inj hs
      exact .of_none rfl
    · exact nomatch hs
  | send composed =>
    simp only [step] at hs
    split at hs
    · split at hs
      · obtain rfl := Option.some.inj hs
        exact .of_none rfl
      · obtain rfl := Option.some.inj hs
        exact .of_none rfl
    · exact nomatch hs
  | close success net =>
    simp only [step] at hs
    split at hs
    · obtain rfl := Option.some.inj hs
      exact .of_none rfl
    · exact nomatch hs

/-- The step opens an execution and sends. -/
def Submits (cfg : Settings) (s : Station) (o : Opportunity) : Event → Prop
  | .send composed => s.phase = .sending o ∧ cfg.live = true ∧ composed = true
  | _ => False

/-- The runs whose steps all meet `ok`. -/
def RunsWith (ok : Settings → Station → Event → Prop) (cfg : Settings) (l : RiskLimits) (facts : RiskContext) :
    List Event → Station → Prop :=
  Run (fun s e t => ok cfg s e ∧ step cfg s e = some t) (start l facts)

/-- **A submission is one the engine would still approve.** In every run in which
no operator engages the switch or replaces the limits between a job's approval
and its submission, and what moves on by itself still passes when it is
submitted: at every submission the switch is off and the engine, asked again,
would approve the job. -/
theorem submissions_approved (cfg : Settings) (l : RiskLimits) (facts : RiskContext) {es : List Event} {e : Event}
    {s t : Station} {o : Opportunity} (hr : RunsWith Undisturbed cfg l facts es s)
    (hs : Undisturbed cfg s e ∧ step cfg s e = some t) (ho : Submits cfg s o e) :
    s.engine.kill.engaged = false ∧ (s.engine.evaluate o (s.ctx cfg)).1.approved = true := by
  have hw : Waits s := Run.invariant (P := Waits) (.of_none rfl) (fun _ _ _ h hs => waits_step h hs.1 hs.2) hr
  cases e with
  | send composed =>
    obtain ⟨hp, -, -⟩ := ho
    have hh : Held s.engine o := hw o (by rw [hp]; rfl)
    exact ⟨hh.killSwitch, hh.approves (hs.1 o hp)⟩
  | _ => exact ho.elim

/-! ### Runs -/

/-- CONFIRM mode, ready to send. -/
def confirming : Settings := ⟨.confirm, 4000, true⟩

def morning : RiskContext := { paperContext afterMidnight 1000000000 with mode := .confirm }

def job : Opportunity := goodOpportunity afterMidnight 100000000

/-- The job waits, the operator says yes, and it is sent. -/
def approvedRun : List Event := [.decide job, .confirm ⟨1⟩ true, .answered]

/-- The same, but the kill switch is engaged while it waits. -/
def engagedRun : List Event := [.decide job, .engage "operator", .confirm ⟨1⟩ true, .answered]

/-- The station is about to send; the switch is as given, and so is what the engine would say. -/
def aboutToSend (engaged approves : Bool) (s : Station) : Bool :=
  match s.phase with
  | .sending o => s.engine.kill.engaged == engaged && (s.engine.evaluate o (s.ctx confirming)).1.approved == approves
  | _ => false

theorem submits_of_aboutToSend {engaged approves : Bool} {s : Station} (h : aboutToSend engaged approves s = true) :
    ∃ o t, Submits confirming s o (.send true) ∧ step confirming s (.send true) = some t ∧
      s.engine.kill.engaged = engaged ∧ (s.engine.evaluate o (s.ctx confirming)).1.approved = approves := by
  unfold aboutToSend at h
  split at h
  · rename_i o hp
    simp only [Bool.and_eq_true, beq_iff_eq] at h
    have hstep : ∃ t, step confirming s (.send true) = some t := by
      simp only [step, hp]
      exact ⟨_, rfl⟩
    obtain ⟨t, ht⟩ := hstep
    exact ⟨o, t, ⟨hp, rfl, rfl⟩, ht, h.1, h.2⟩
  · exact nomatch h

/-- The station after computed steps, each of which meets `ok` anywhere. -/
theorem exists_run {ok : Settings → Station → Event → Prop} {es : List Event} {p : Station → Bool}
    (hok : ∀ e ∈ es, ∀ s, ok confirming s e)
    (h : (es.foldlM (step confirming) (start defaultLimits morning)).any p = true) :
    ∃ s, RunsWith ok confirming defaultLimits morning es s ∧ p s = true := by
  obtain ⟨s, hs, hp⟩ := (Option.any_eq_true ..).mp h
  exact ⟨s, (Run.of_foldlM hs).mono_mem fun e he t _ hst => ⟨hok e he t, hst⟩, hp⟩

/-- The operator approves a job that waits: it is sent, and the engine would
approve it. -/
theorem approved_job_sent : ∃ s t o, RunsWith Undisturbed confirming defaultLimits morning approvedRun s ∧
    step confirming s (.send true) = some t ∧
    s.engine.kill.engaged = false ∧ (s.engine.evaluate o (s.ctx confirming)).1.approved = true := by
  obtain ⟨s, hr, hp⟩ := @exists_run Undisturbed approvedRun (fun s => aboutToSend false true s && Decidable.decide (0 < s.engine.limits.maxDailyLoss.val)) (by simp [approvedRun, Undisturbed]) (by decide)
  simp only [Bool.and_eq_true, decide_eq_true_eq] at hp
  obtain ⟨o, t, hsub, hst, -, ha⟩ := submits_of_aboutToSend hp.1
  have happ := (evaluate_approved _ _ _).mp ha
  have hcur : Undisturbed confirming s (.send true) := by
    intro o' ho'
    obtain rfl : o = o' := Phase.sending.inj (hsub.1.symm.trans ho')
    exact ⟨happ.quoteAge, happ.simulation, happ.wallet, happ.tradePct, hp.2⟩
  obtain ⟨hk, hap⟩ := submissions_approved confirming defaultLimits morning hr ⟨hcur, hst⟩ hsub
  exact ⟨s, t, o, hr, hst, hk, hap⟩

/-- With the switch engaged while it waits, the job is sent all the same. -/
theorem sent_over_kill_switch : ∃ s t o, RunsWith (fun _ _ _ => True) confirming defaultLimits morning engagedRun s ∧
    Submits confirming s o (.send true) ∧ step confirming s (.send true) = some t ∧
    s.engine.kill.engaged = true ∧ (s.engine.evaluate o (s.ctx confirming)).1.approved = false := by
  obtain ⟨s, hr, hp⟩ := @exists_run (fun _ _ _ => True) engagedRun (aboutToSend true false) (fun _ _ _ => trivial) (by decide)
  obtain ⟨o, t, hsub, hst, hk, ha⟩ := submits_of_aboutToSend hp
  exact ⟨s, t, o, hr, hsub, hst, hk, ha⟩

end Confirm
end MobiusSearcher
