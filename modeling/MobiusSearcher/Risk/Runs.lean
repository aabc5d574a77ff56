/-
# Approvals over whole runs

What an approval promises is about the executions that were opened and
closed, not about the engine's counters: `closedOn d h` is the net result of
every execution the history `h` closed in the UTC day `d`, `failuresInRow h`
the failures since the last success, `openCount h` the executions opened and
not closed. The invariant `Books` says the engine's counters are these.

The engine keeps one day's sum and drops it whenever a caller brings another
day, so the books are kept in the runs whose calls never enter a day that
already has a result (`Meets`): a caller that read its clock before midnight
and takes the lock after another that read it later breaks that.

Key definitions: `closedOn`, `failuresInRow`, `openCount`, `Meets`, `Books`,
`WithinLimits`.
Key theorems: `books_step`, `approvals_sound`, `monotone_enters`.
-/
import MobiusSearcher.Risk.Engine
import MobiusSearcher.Lib.Run

namespace MobiusSearcher
namespace RiskEngine

open Machine

/-! ### The history's own numbers -/

/-- Net result, in micro-USD, of the executions closed in UTC day `d`. -/
def closedOn (d : ℤ) (h : List Call) : ℤ :=
  (h.map fun c => match c with
    | .closeExecution now _ net => if utcDay now = d then net.val else 0
    | _ => 0).sum

/-- Failures since the last success: the newest call is the last of the list. -/
def failuresInRow (h : List Call) : ℕ :=
  h.foldl (fun n c => match c with
    | .closeExecution _ success _ => if success then 0 else n + 1
    | _ => n) 0

/-- Executions opened and not closed. -/
def openCount (h : List Call) : ℕ :=
  h.foldl (fun n c => match c with
    | .openExecution => n + 1
    | .closeExecution .. => n - 1
    | _ => n) 0

/-- The clock a call brings. -/
def clockOf : Call → Option Ts
  | .state now => some now
  | .evaluate _ ctx => some ctx.now
  | .closeExecution now _ _ => some now
  | _ => none

/-- A call that closes no execution and replaces no limits. -/
def leavesLoss : Call → Bool
  | .closeExecution .. => false
  | .setLimits _ => false
  | _ => true

@[simp] theorem closedOn_nil (d : ℤ) : closedOn d [] = 0 := rfl

theorem closedOn_snoc (d : ℤ) (h : List Call) (c : Call) :
    closedOn d (h ++ [c]) = closedOn d h + closedOn d [c] := by
  simp [closedOn]

theorem closedOn_close (d : ℤ) (now : Ts) (success : Bool) (net : UsdMicros) :
    closedOn d [.closeExecution now success net] = if utcDay now = d then net.val else 0 := by
  simp [closedOn]

theorem closedOn_leaves {c : Call} (hc : leavesLoss c = true) (d : ℤ) : closedOn d [c] = 0 := by
  cases c <;> simp [leavesLoss] at hc <;> rfl

theorem closedOn_append_leaves (d : ℤ) (h : List Call) : ∀ g : List Call,
    (∀ c ∈ g, leavesLoss c = true) → closedOn d (h ++ g) = closedOn d h := by
  intro g
  induction g using List.reverseRecOn with
  | nil => simp
  | append_singleton g c ih =>
    intro hg
    rw [← List.append_assoc, closedOn_snoc, ih fun c' hc' => hg c' (List.mem_append_left _ hc'),
      closedOn_leaves (hg c (by simp)), add_zero]

/-! ### The calls the books survive -/

/-- The day a call brings is the engine's, or has no result yet. -/
def EntersFresh (h : List Call) (e : RiskEngine) (c : Call) : Prop :=
  ∀ now, clockOf c = some now → e.state.day = utcDay now ∨ closedOn (utcDay now) h = 0

/-- The counters a call moves stay in their range: the day's sum above the
least `i64` and up to the largest, the others below `2 ^ 32`. -/
def InRange (h : List Call) : Call → Prop
  | .openExecution => openCount h + 1 < 2 ^ 32
  | .closeExecution now success net =>
    (i64Min < closedOn (utcDay now) h + net.val ∧ closedOn (utcDay now) h + net.val ≤ i64Max) ∧
      (success = false → failuresInRow h + 1 < 2 ^ 32)
  | _ => True

/-- The share of the equity can be computed: there is equity (or nothing is
traded) and the share fits in an `i64`. -/
def ShareFits : Call → Prop
  | .evaluate o ctx =>
    (ctx.equityLamports = 0 → o.input = 0) ∧ ((o.input * 1000000 / ctx.equityLamports : ℕ) : ℤ) ≤ i64Max
  | _ => True

/-- A call that meets the engine's assumptions. -/
structure Meets (h : List Call) (e : RiskEngine) (c : Call) : Prop where
  fresh : EntersFresh h e c
  range : InRange h c
  share : ShareFits c

/-- The calls, in lock order, of a run in which `ok` holds of each: the state
carries the history. -/
def stepWith (ok : List Call → RiskEngine → Call → Prop) (s : List Call × RiskEngine) (c : Call)
    (t : List Call × RiskEngine) : Prop :=
  ok s.1 s.2 c ∧ t = (s.1 ++ [c], s.2.step c)

/-- The engine after the calls `h`, each of which met `ok`. -/
def RunWith (ok : List Call → RiskEngine → Call → Prop) (l : RiskLimits) (h : List Call)
    (e : RiskEngine) : Prop :=
  Run (stepWith ok) ([], new l) h (h, e)

/-! ### The invariant -/

/-- The engine's counters are the history's numbers. -/
structure Books (h : List Call) (e : RiskEngine) : Prop where
  pnl : e.state.dailyPnl.val = closedOn e.state.day h
  low : i64Min < e.state.dailyPnl.val
  high : e.state.dailyPnl.val ≤ i64Max
  failures : e.state.consecutiveFailures = failuresInRow h
  opened : e.state.openExecutions = openCount h

theorem books_new (l : RiskLimits) : Books [] (new l) :=
  ⟨rfl, (by decide : i64Min < 0), (by decide : 0 ≤ i64Max), rfl, rfl⟩

/-- Rolling into a fresh day keeps the day's sum right. -/
theorem roll_pnl {h : List Call} {e : RiskEngine} (hb : Books h e) {now : Ts}
    (hf : e.state.day = utcDay now ∨ closedOn (utcDay now) h = 0) :
    (rollDay e.state now).dailyPnl.val = closedOn (utcDay now) h ∧
      i64Min < (rollDay e.state now).dailyPnl.val ∧ (rollDay e.state now).dailyPnl.val ≤ i64Max := by
  by_cases hd : e.state.day = utcDay now
  · rw [rollDay_same hd]
    exact ⟨hd ▸ hb.pnl, hb.low, hb.high⟩
  · rw [rollDay_new hd]
    exact ⟨(hf.resolve_left hd).symm, (by decide : i64Min < 0), (by decide : 0 ≤ i64Max)⟩

/-- The books after a roll, before the call that rolled is written down. -/
theorem books_roll {h : List Call} {e : RiskEngine} (hb : Books h e) {now : Ts}
    (hf : e.state.day = utcDay now ∨ closedOn (utcDay now) h = 0) :
    Books h { e with state := rollDay e.state now } := by
  obtain ⟨h1, h2, h3⟩ := roll_pnl hb hf
  exact ⟨by simpa using h1, h2, h3, by simpa using hb.failures, by simpa using hb.opened⟩

/-- A call that neither opens nor closes leaves the history's numbers. -/
theorem books_snoc {h : List Call} {e : RiskEngine} {c : Call} (hb : Books h e)
    (hc : ∀ d, closedOn d [c] = 0) (hf : failuresInRow (h ++ [c]) = failuresInRow h)
    (ho : openCount (h ++ [c]) = openCount h) : Books (h ++ [c]) e :=
  ⟨by rw [closedOn_snoc, hc, add_zero]; exact hb.pnl, hb.low, hb.high, hf ▸ hb.failures, ho ▸ hb.opened⟩

theorem books_close {h : List Call} {e : RiskEngine} {now : Ts} {success : Bool} {net : UsdMicros}
    (hb : Books h e) (hf : e.state.day = utcDay now ∨ closedOn (utcDay now) h = 0)
    (hr : InRange h (.closeExecution now success net)) :
    Books (h ++ [.closeExecution now success net]) (e.closeExecution now success net) := by
  obtain ⟨hp, -, -⟩ := roll_pnl hb hf
  obtain ⟨⟨hlo, hhi⟩, hfail⟩ := hr
  have hsum : satAddI64 (rollDay e.state now).dailyPnl.val net.val = closedOn (utcDay now) h + net.val := by
    rw [satAddI64, hp, clampI64_of_mem hlo.le hhi]
  refine ⟨?_, ?_, ?_, ?_, ?_⟩
  · simp only [closeExecution, UsdMicros.saturatingAdd, hsum, rollDay_day, closedOn_snoc, closedOn_close,
      if_true]
  · simpa only [closeExecution, UsdMicros.saturatingAdd, hsum] using hlo
  · simpa only [closeExecution, UsdMicros.saturatingAdd, hsum] using hhi
  · cases success with
    | true => simp [closeExecution, failuresInRow, List.foldl_append]
    | false =>
      have hw := wrapU32_of_lt (hfail rfl)
      simp only [closeExecution, rollDay_failures, hb.failures, Bool.false_eq_true, if_false, hw]
      simp [failuresInRow, List.foldl_append]
  · simp only [closeExecution, rollDay_open, hb.opened]
    simp [openCount, List.foldl_append]

/-- **One call keeps the books.** -/
theorem books_step {h : List Call} {e : RiskEngine} {c : Call} (hb : Books h e) (hm : Meets h e c) :
    Books (h ++ [c]) (e.step c) := by
  cases c with
  | state now =>
    exact books_snoc (books_roll hb (hm.fresh now rfl)) (closedOn_leaves rfl)
      (by simp [failuresInRow, List.foldl_append]) (by simp [openCount, List.foldl_append])
  | evaluate o ctx =>
    exact books_snoc (books_roll hb (hm.fresh ctx.now rfl)) (closedOn_leaves rfl)
      (by simp [failuresInRow, List.foldl_append]) (by simp [openCount, List.foldl_append])
  | openExecution =>
    have hw := wrapU32_of_lt (show openCount h + 1 < 2 ^ 32 from hm.range)
    refine ⟨?_, hb.low, hb.high, ?_, ?_⟩
    · simpa [step, openExecution, closedOn_snoc, closedOn_leaves (c := .openExecution) rfl] using hb.pnl
    · simpa [step, openExecution, failuresInRow, List.foldl_append] using hb.failures
    · simp only [step, openExecution, hb.opened, hw]
      simp [openCount, List.foldl_append]
  | closeExecution now success net => exact books_close hb (hm.fresh now rfl) hm.range
  | setLimits l =>
    refine ⟨?_, hb.low, hb.high, ?_, ?_⟩
    · have h0 : closedOn e.state.day [.setLimits l] = 0 := by simp [closedOn]
      simpa [step, closedOn_snoc, h0] using hb.pnl
    · simpa [step, failuresInRow, List.foldl_append] using hb.failures
    · simpa [step, openCount, List.foldl_append] using hb.opened
  | engage reason =>
    exact books_snoc (e := { e with kill := (e.kill.engage reason).2 }) ⟨hb.pnl, hb.low, hb.high, hb.failures, hb.opened⟩
      (closedOn_leaves rfl) (by simp [failuresInRow, List.foldl_append])
      (by simp [openCount, List.foldl_append])
  | release =>
    exact books_snoc (e := { e with kill := e.kill.release.2 }) ⟨hb.pnl, hb.low, hb.high, hb.failures, hb.opened⟩
      (closedOn_leaves rfl) (by simp [failuresInRow, List.foldl_append])
      (by simp [openCount, List.foldl_append])

/-- Every run whose calls meet the assumptions keeps the books. -/
theorem books_run {l : RiskLimits} {h : List Call} {e : RiskEngine} (hr : RunWith Meets l h e) :
    Books h e := by
  refine Run.invariant (P := fun s : List Call × RiskEngine => Books s.1 s.2) (books_new l) ?_ hr
  rintro ⟨h, e⟩ c u hb ⟨hm, rfl⟩
  exact books_step hb hm

/-! ### What an approval promises -/

/-- Every limit in force holds, as exact integers over the history. -/
structure WithinLimits (h : List Call) (e : RiskEngine) (o : Opportunity) (ctx : RiskContext) : Prop where
  killSwitch : e.kill.engaged = false
  tradeSize : o.input ≤ e.limits.maxTradeLamports
  equity : ctx.equityLamports = 0 → o.input = 0
  tradePct : 0 < ctx.equityLamports →
    ((o.input * 1000000 / ctx.equityLamports : ℕ) : ℤ) ≤ e.limits.maxTradePctOfEquityPpm
  failures : failuresInRow h + 1 ≤ e.limits.maxConsecutiveFailures
  opened : openCount h < e.limits.maxOpenExecutions
  dailyLoss : -e.limits.maxDailyLoss.val < closedOn (utcDay ctx.now) h
  slippage : ∀ w, worstSlippage o = some w → w ≤ e.limits.maxSlippageBps
  quoteAge : o.quoteAgeMs ctx.now ≤ e.limits.maxQuoteAgeMs
  simulation : simulationViolations e.limits o ctx = []
  priorityFee : o.costs.priorityFee ≤ e.limits.maxPriorityFeeLamports
  jitoTip : o.costs.jitoTip ≤ e.limits.maxJitoTipLamports
  wallet : walletViolations e.limits ctx = []
  net : 0 < o.eval.net

/-- One evaluation on kept books is sound. -/
theorem withinLimits_of_approved {h : List Call} {e : RiskEngine} {o : Opportunity} {ctx : RiskContext}
    (hb : Books h e) (hm : Meets h e (.evaluate o ctx)) (ha : (e.evaluate o ctx).1.approved = true) :
    WithinLimits h e o ctx := by
  have a := (evaluate_approved e o ctx).mp ha
  obtain ⟨hp, hlo, hhi⟩ := roll_pnl hb (hm.fresh ctx.now rfl)
  have hneg : wrapI64 (-(rollDay e.state ctx.now).dailyPnl.val) = -closedOn (utcDay ctx.now) h := by
    rw [← hp]
    exact wrapI64_of_mem (by unfold i64Max at hhi; unfold i64Min; omega) (by unfold i64Min at hlo; unfold i64Max; omega)
  have hpct : tradePct o.input ctx.equityLamports = ((o.input * 1000000 / ctx.equityLamports : ℕ) : ℤ) :=
    wrapI64_of_mem (le_trans (by decide) (Int.natCast_nonneg _)) hm.share.2
  have hloss := a.dailyLoss
  have hfail := a.failures
  have hopen := a.openExecutions
  rw [hneg] at hloss
  rw [rollDay_failures, hb.failures] at hfail
  rw [rollDay_open, hb.opened] at hopen
  exact ⟨a.killSwitch, a.tradeSize, hm.share.1, fun he => hpct ▸ a.tradePct he, hfail, hopen, by omega,
    a.slippage, a.quoteAge, a.simulation, a.priorityFee, a.jitoTip, a.wallet, a.net⟩

/-- **Risk approvals are sound over whole runs.** In every run whose calls
meet the assumptions, an approval means every limit in force holds of the
executions so far; and once a day's result has reached the daily loss,
nothing is approved again in that day before a close or a change of limits. -/
theorem approvals_sound {l : RiskLimits} {h g : List Call} {e : RiskEngine} {o : Opportunity} {ctx : RiskContext}
    (hr : RunWith Meets l (h ++ g) e) (hm : Meets (h ++ g) e (.evaluate o ctx)) :
    ((e.evaluate o ctx).1.approved = true → WithinLimits (h ++ g) e o ctx) ∧
    ((∀ c ∈ g, leavesLoss c = true) →
      closedOn (utcDay ctx.now) h ≤ -e.limits.maxDailyLoss.val →
      (e.evaluate o ctx).1.approved = false) := by
  have hw := @withinLimits_of_approved _ _ o ctx (books_run hr) hm
  refine ⟨hw, fun hg hloss => ?_⟩
  by_contra ha
  have hl := (hw (by simpa using ha)).dailyLoss
  rw [closedOn_append_leaves _ _ _ hg] at hl
  omega

/-! ### The limits of the default configuration -/

/-- The limits the default configuration gives. -/
def defaultLimits : RiskLimits where
  maxTradeLamports := 1000000000
  maxTradePctOfEquityPpm := 10000 * 100
  maxDailyLoss := ⟨5000000⟩
  maxConsecutiveFailures := 5
  maxSlippageBps := 100
  maxQuoteAgeMs := 4000
  maxSimulationAgeMs := 3000
  maxPriorityFeeLamports := 100000
  maxJitoTipLamports := 200000
  minWalletSolForFeesLamports := 20000000
  maxOpenExecutions := 1
  maxSlotLag := 32

/-- An opportunity every check passes, quoted and simulated at `now`. -/
def goodOpportunity (now : Ts) (input : ℕ) : Opportunity where
  id := ⟨1⟩
  input
  grossOutput := 100200000
  legs := List.replicate 2 ⟨⟨1⟩, ⟨1⟩, 1, 1, 1, 20, now, none⟩
  costs := ⟨.quote, 0, 0, 0, 0, none, 0, 1000, 10000, 0, 0, 0, 0, 0⟩
  eval := ⟨0, 50000, .zero, .zero, none, none, some 40000⟩
  status := .quoted
  updatedAt := now
  solPrice := some ⟨100000000⟩
  simulation := some ⟨.singleTx, .exact, true, [], now, some 100⟩
  risk := none
  guard := none

def paperContext (now : Ts) (equity : ℕ) : RiskContext :=
  ⟨now, .paper, equity, some 1000000000, some ⟨100000000⟩, some 101⟩

/-- Ten seconds into the 20 000th UTC day, and ten seconds before it. -/
def afterMidnight : Ts := .ofSecs (86400 * 20000 + 10)
def beforeMidnight : Ts := .ofSecs (86400 * 20000 - 10)

/-- After a loss of 6 USD, a caller that read its clock before midnight and
takes the lock last drops the new day's loss: the next opportunity of that
day is approved. With no equity a trade of any size is. -/
theorem approvals_unsound :
    (∃ h : List Call, ∃ e : RiskEngine, RunWith (fun _ _ _ => True) defaultLimits h e ∧
      closedOn (utcDay afterMidnight) h ≤ -e.limits.maxDailyLoss.val ∧
      (e.evaluate (goodOpportunity afterMidnight 100000000) (paperContext afterMidnight 1000000000)).1.approved
        = true) ∧
    ((new defaultLimits).evaluate (goodOpportunity afterMidnight 100000000)
      (paperContext afterMidnight 0)).1.approved = true := by
  refine ⟨⟨[] ++ [.closeExecution afterMidnight false ⟨-6000000⟩] ++ [.state beforeMidnight], _,
    ((Run.nil.snoc ⟨trivial, rfl⟩).snoc ⟨trivial, rfl⟩), by decide, by decide⟩, by decide⟩

/-- A loss of 6 USD stops the day; a profit does not. -/
theorem approvals_sound_example :
    ((((new defaultLimits).closeExecution afterMidnight false ⟨-6000000⟩).evaluate
      (goodOpportunity afterMidnight 100000000) (paperContext afterMidnight 1000000000)).1.approved = false) ∧
    WithinLimits [.closeExecution afterMidnight true ⟨6000000⟩]
      ((new defaultLimits).closeExecution afterMidnight true ⟨6000000⟩)
      (goodOpportunity afterMidnight 100000000) (paperContext afterMidnight 1000000000) := by
  have meets : ∀ (success : Bool) (net : UsdMicros),
      net = ⟨-6000000⟩ ∨ net = ⟨6000000⟩ →
      Meets [] (new defaultLimits) (.closeExecution afterMidnight success net) := by
    rintro success net (rfl | rfl) <;>
      exact ⟨fun now _ => Or.inr rfl, ⟨⟨by decide, by decide⟩, fun _ => by decide⟩, trivial⟩
  have run : ∀ (success : Bool) (net : UsdMicros), net = ⟨-6000000⟩ ∨ net = ⟨6000000⟩ →
      RunWith Meets defaultLimits ([.closeExecution afterMidnight success net] ++ [])
        ((new defaultLimits).closeExecution afterMidnight success net) :=
    fun success net hn => Run.single ⟨meets success net hn, rfl⟩
  have next : ∀ (success : Bool) (net : UsdMicros),
      Meets ([.closeExecution afterMidnight success net] ++ [])
        ((new defaultLimits).closeExecution afterMidnight success net)
        (.evaluate (goodOpportunity afterMidnight 100000000) (paperContext afterMidnight 1000000000)) := by
    intro success net
    refine ⟨fun now hc => Or.inl ?_, trivial, ⟨by decide, by decide⟩⟩
    cases hc
    exact rollDay_day _ _
  exact ⟨(approvals_sound (run false ⟨-6000000⟩ (Or.inl rfl)) (next _ _)).2 (by simp) (by decide),
    (approvals_sound (run true ⟨6000000⟩ (Or.inr rfl)) (next _ _)).1 (by decide)⟩

/-! ### A clock that never goes back a day -/

/-- The call's day is no earlier than any before it. -/
def Forward (h : List Call) (_ : RiskEngine) (c : Call) : Prop :=
  ∀ now, clockOf c = some now → ∀ c' ∈ h, ∀ t, clockOf c' = some t → utcDay t ≤ utcDay now

/-- With a clock that never goes back a day, the engine's day is the latest
of the history. -/
def LatestDay (h : List Call) (e : RiskEngine) : Prop :=
  (∀ c ∈ h, clockOf c = none) ∨
    ((∃ c ∈ h, ∃ t, clockOf c = some t ∧ utcDay t = e.state.day) ∧
      ∀ c ∈ h, ∀ t, clockOf c = some t → utcDay t ≤ e.state.day)

theorem step_day {e : RiskEngine} {c : Call} {now : Ts} (hc : clockOf c = some now) :
    (e.step c).state.day = utcDay now := by
  cases c <;> simp only [clockOf, reduceCtorEq, Option.some.injEq] at hc <;> subst hc <;>
    simp [step, evaluate, closeExecution]

theorem step_day_none {e : RiskEngine} {c : Call} (hc : clockOf c = none) :
    (e.step c).state.day = e.state.day := by
  cases c <;> simp only [clockOf, reduceCtorEq] at hc <;> rfl

theorem latestDay_step {h : List Call} {e : RiskEngine} {c : Call} (hl : LatestDay h e)
    (hf : Forward h e c) : LatestDay (h ++ [c]) (e.step c) := by
  cases hc : clockOf c with
  | none =>
    rcases hl with hl | ⟨⟨c', hm, t, ht, hd⟩, hle⟩
    · exact Or.inl fun c' hm => by
        rcases List.mem_append.mp hm with hm | hm
        · exact hl c' hm
        · rw [List.mem_singleton.mp hm, hc]
    · refine Or.inr ⟨⟨c', List.mem_append_left _ hm, t, ht, by rw [step_day_none hc, hd]⟩, fun x hx u hu => ?_⟩
      rw [step_day_none hc]
      rcases List.mem_append.mp hx with hx | hx
      · exact hle x hx u hu
      · rw [List.mem_singleton.mp hx, hc] at hu
        cases hu
  | some now =>
    refine Or.inr ⟨⟨c, by simp, now, hc, (step_day hc).symm⟩, fun x hx u hu => ?_⟩
    rw [step_day hc]
    rcases List.mem_append.mp hx with hx | hx
    · exact hf now hc x hx u hu
    · rw [List.mem_singleton.mp hx, hc] at hu
      cases hu
      exact le_rfl

/-- A day with a result has an execution closed in it. -/
theorem exists_close_of_closedOn {d : ℤ} : ∀ {h : List Call}, closedOn d h ≠ 0 →
    ∃ c ∈ h, ∃ t, clockOf c = some t ∧ utcDay t = d := by
  intro h
  induction h using List.reverseRecOn with
  | nil => intro h0; exact absurd rfl h0
  | append_singleton h c ih =>
    intro hne
    rw [closedOn_snoc] at hne
    by_cases hc : closedOn d [c] = 0
    · obtain ⟨c', hm, ht⟩ := ih (by omega)
      exact ⟨c', List.mem_append_left _ hm, ht⟩
    · cases c with
      | closeExecution now success net =>
        rw [closedOn_close] at hc
        exact ⟨.closeExecution now success net, by simp, now, rfl, by by_contra hd; exact hc (if_neg hd)⟩
      | setLimits l => exact absurd (by simp [closedOn]) hc
      | state now => exact absurd (closedOn_leaves rfl d) hc
      | evaluate o ctx => exact absurd (closedOn_leaves rfl d) hc
      | openExecution => exact absurd (closedOn_leaves rfl d) hc
      | engage reason => exact absurd (closedOn_leaves rfl d) hc
      | release => exact absurd (closedOn_leaves rfl d) hc

/-- **A clock that never goes back a day only enters fresh days.** -/
theorem monotone_enters {l : RiskLimits} {h : List Call} {e : RiskEngine} {c : Call}
    (hr : RunWith Forward l h e) (hf : Forward h e c) : EntersFresh h e c := by
  have hl : LatestDay h e := by
    refine Run.invariant (P := fun s : List Call × RiskEngine => LatestDay s.1 s.2) (Or.inl (by simp)) ?_ hr
    rintro ⟨h, e⟩ c u hl ⟨hf, rfl⟩
    exact latestDay_step hl hf
  intro now hc
  by_contra hne
  obtain ⟨hd, hsum⟩ := not_or.mp hne
  obtain ⟨c', hm, t, ht, hday⟩ := exists_close_of_closedOn hsum
  rcases hl with hl | ⟨⟨x, hx, u, hu, hux⟩, hle⟩
  · rw [hl c' hm] at ht
    cases ht
  · have h1 := hle c' hm t ht
    have h2 := hf now hc x hx u hu
    omega

end RiskEngine
end MobiusSearcher
