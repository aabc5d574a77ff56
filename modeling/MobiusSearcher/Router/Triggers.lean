/-
# Which routes are marked as triggered

A route with an unanswered change is kept twice: its `trigger` is set, and it
is in the set `triggered` that `next` chooses from. `Marked` says that the two
agree on every route without a job. Two places drop the trigger of a route
that a tick put back into the set while its job ran: an answer that is an
error but no rate limit, and a decision that finds the market where the job
saw it (`popReady`, which drops it too, takes the route out of the set).
`Answered` says that an event is none of these.

Key definitions: `Marked`, `Answered`.
Key theorems: `marked_step`, `triggers_unanswered`, `decided_route_stays`.
-/
import MobiusSearcher.Router.Custody

set_option linter.unusedSectionVars false

namespace MobiusSearcher
namespace Router

open Keyed FloatOps Relation

variable {F : Type*} [FloatOps F] {ρ κ : Type*} [DecidableEq κ]

/-- The set of triggered routes agrees with the triggers, and an urgent job
was started for one. -/
structure Marked (c : Core F κ) : Prop where
  sound : ∀ r ∈ c.triggered, (c.state r).trigger.isSome
  complete : ∀ r, (c.state r).job = none → (c.state r).trigger.isSome → r ∈ c.triggered
  urgent : ∀ j job, c.jobs.lookup j = some job → job.cls = .urgent → job.trigger.isSome

variable {q : Requests ρ κ} {now : Instant} {c d : Core F κ}

/-- Route `r` alone changes, and its mark agrees with its trigger. -/
structure Remarked (c d : Core F κ) (r : ℕ) : Prop where
  state : ∀ r', r' ≠ r → d.state r' = c.state r'
  triggered : ∀ r', r' ≠ r → (r' ∈ d.triggered ↔ r' ∈ c.triggered)
  sound : r ∈ d.triggered → (d.state r).trigger.isSome
  complete : (d.state r).job = none → (d.state r).trigger.isSome → r ∈ d.triggered
  jobs : ∀ j job, d.jobs.lookup j = some job →
    c.jobs.lookup j = some job ∨ (job.cls = .urgent → job.trigger.isSome)

theorem Marked.remark {r : ℕ} (h : Marked c) (hr : Remarked c d r) : Marked d where
  sound r' hm := by
    by_cases he : r' = r
    · exact he ▸ hr.sound (he ▸ hm)
    · rw [hr.state r' he]
      exact h.sound r' ((hr.triggered r' he).mp hm)
  complete r' hj ht := by
    by_cases he : r' = r
    · subst he
      exact hr.complete hj ht
    · rw [hr.state r' he] at hj ht
      exact (hr.triggered r' he).mpr (h.complete r' hj ht)
  urgent j job hj hu := by
    rcases hr.jobs j job hj with h1 | h1
    · exact h.urgent j job h1 hu
    · exact h1 hu

/-- Only the marks, the triggers and what the jobs were started for matter. -/
theorem Marked.same (h : Marked c) (hs : Same c d) : Marked d where
  sound r hr := by
    rw [hs.triggered] at hr
    rw [hs.state]
    exact h.sound r hr
  complete r := by
    rw [hs.triggered, hs.state]
    exact h.complete r
  urgent j job hj hu := by
    obtain ⟨job', h1, h2⟩ := hs.lookup hj
    have hm : job'.trigger = job.trigger ∧ job'.cls = job.cls := by simpa [Job.mark] using (Prod.ext_iff.mp h2).2
    rw [← hm.1]
    exact h.urgent j job' h1 (hm.2.trans hu)

theorem lookup_erase_some {jobs : Map ℕ (Job F)} {i j : ℕ} {job : Job F} (h : (jobs.erase i).lookup j = some job) :
    jobs.lookup j = some job := by
  by_cases hj : j = i
  · subst hj
    simp at h
  · rwa [AList.lookup_erase_ne hj] at h

/-! ### Ticks -/

theorem touchOne_marked (at_ : Instant) (r : ℕ) (h : Marked c) : Marked (c.touchOne at_ now r) := by
  unfold Core.touchOne
  simp only
  split
  · exact h
  · split
    · refine h.remark (r := r) ⟨fun r' hr => ?_, fun r' hr => ?_, fun _ => ?_, fun _ _ => ?_, fun j job hj => Or.inl hj⟩
      · simp [Function.update_of_ne hr]
      · simp [Finset.mem_insert, hr]
      · cases (c.state r).trigger <;> simp
      · simp
    · split
      · -- the change was reverted: neither is left
        refine h.remark (r := r) ⟨fun r' hr => ?_, fun r' hr => ?_, fun hm => ?_, fun _ ht => ?_, fun j job hj => Or.inl hj⟩
        · simp [Function.update_of_ne hr]
        · simp [Finset.mem_erase, hr]
        · simp at hm
        · simp at ht
      · exact h

theorem touch_marked (at_ : Instant) : ∀ (routes : List ℕ) {c : Core F κ}, Marked c → Marked (c.touch routes at_ now)
  | [], _, h => h
  | r :: routes, _, h => touch_marked at_ routes (touchOne_marked at_ r h)

theorem onTick_marked (t : HotTick F) (h : Marked c) : Marked (c.onTick t now) := by
  cases t with
  | pool dex mid received =>
    refine touch_marked received _ ?_
    have hmean : ∀ d : Core F κ, Marked d → Marked (d.observeMean received now) := fun d hd => by
      unfold Core.observeMean
      split
      · exact hd
      · exact ⟨hd.sound, hd.complete, hd.urgent⟩
    obtain ⟨h1, h2, h3⟩ := hmean { c with mids := c.mids.insert dex (mid, received) } ⟨h.sound, h.complete, h.urgent⟩
    exact ⟨h1, h2, h3⟩
  | oracle symbol price received => exact touch_marked received _ ⟨h.sound, h.complete, h.urgent⟩

/-! ### Moves -/

/-- **One move of a call of `next` keeps the marks.** -/
theorem Move.marked {s t : Core F κ × Option ℕ} (hm : Move q now s t) (h : Marked s.1) : Marked t.1 := by
  cases hm with
  | carry hc => exact h.same hc.same
  | skip => exact ⟨h.sound, h.complete, h.urgent⟩
  | @suppress c h' job ready j hr hj hrep =>
    refine h.remark (r := j.route) ⟨fun r' hr => ?_, fun r' hr => ?_, fun hm => ?_, fun _ ht => ?_,
      fun i k hk => Or.inl (lookup_erase_some hk)⟩
    · simp [Core.suppress, Function.update_of_ne hr]
    · simp [Core.suppress, Finset.mem_erase, hr]
    · simp [Core.suppress] at hm
    · simp [Core.suppress] at ht
  | @start c r cls hr hu hc =>
    refine h.remark (r := r) ⟨fun r' hr => ?_, fun r' hr => ?_, fun hm => ?_, fun hj _ => ?_, fun i k hk => ?_⟩
    · simp [Core.startJob, Function.update_of_ne hr]
    · simp [Core.startJob, Finset.mem_erase, hr]
    · simp [Core.startJob] at hm
    · simp [Core.startJob] at hj
    · simp only [Core.startJob] at hk
      by_cases hi : i = c.nextJob
      · -- the new job carries its route's trigger
        subst hi
        rw [AList.lookup_insert] at hk
        cases hk
        exact Or.inr fun hcls => h.sound r (hu hcls)
      · rw [AList.lookup_insert_ne hi] at hk
        exact Or.inl hk
  | @abandon c job j hj =>
    refine h.remark (r := j.route) ⟨fun r' hr => ?_, fun r' hr => ?_, fun hm => ?_, fun _ ht => ?_, fun i k hk => ?_⟩
    · simp [Core.abandon, hj, Function.update_of_ne hr]
    · simp only [Core.abandon, hj]
      split
      · simp [Finset.mem_insert, hr]
      · rfl
    · simp only [Core.abandon, hj, Core.setState_state, Function.update_self] at hm ⊢
      split at hm
      · assumption
      · exact h.sound _ hm
    · simp only [Core.abandon, hj, Core.setState_state, Function.update_self] at ht ⊢
      rw [if_pos ht]
      exact Finset.mem_insert_self _ _
    · simp only [Core.abandon, hj] at hk
      exact Or.inl (lookup_erase_some hk)

theorem moves_marked {s t : Core F κ × Option ℕ} (hm : ReflTransGen (Move q now) s t) (h : Marked s.1) :
    Marked t.1 := by
  induction hm with
  | refl => exact h
  | tail _ hm ih => exact hm.marked ih

/-! ### Answers -/

theorem delivers_marked {leg : BuiltLeg} {obs : Observes} {index : ℕ} : ∀ {jobs : List ℕ} {c : Core F κ}, Marked c →
    Marked (jobs.foldl (fun c job => c.deliver leg obs index now job) c) := by
  intro jobs
  induction jobs with
  | nil => intro c h; exact h
  | cons job jobs ih =>
    intro c h
    refine ih ?_
    show Marked (c.deliver leg obs index now job)
    by_cases hskip : ∀ j, c.jobs.lookup job = some j → j.legs.length ≠ index
    · rw [deliver_skip hskip]
      exact h
    · push Not at hskip
      obtain ⟨j, hj, hi⟩ := hskip
      exact h.same (deliver_takes hj hi).1

/-- A failed job's route, if it is marked, must keep its trigger. -/
theorem fail_marked {rateLimited : Bool} {job : ℕ} (h : Marked c)
    (hc : rateLimited = false → ∀ j ∈ c.jobs.lookup job, j.route ∉ c.triggered) :
    Marked (c.fail rateLimited now job) ∧ (rateLimited = false → (c.fail rateLimited now job).triggered = c.triggered) ∧
      ∀ i k, (c.fail rateLimited now job).jobs.lookup i = some k → c.jobs.lookup i = some k := by
  unfold Core.fail
  cases hj : c.jobs.lookup job with
  | none => exact ⟨h, fun _ => rfl, fun _ _ => id⟩
  | some j =>
    simp only
    split
    · rename_i hrl
      rw [Bool.and_eq_true] at hrl
      refine ⟨h.remark (r := j.route) ⟨fun r' hr => ?_, fun r' hr => ?_, fun _ => ?_, fun _ _ => ?_,
        fun i k hk => Or.inl (lookup_erase_some hk)⟩, fun hf => ?_, fun i k => lookup_erase_some⟩
      · simp [Function.update_of_ne hr]
      · simp [Finset.mem_insert, hr]
      · simpa using hrl.2
      · simp
      · rw [hf] at hrl
        cases hrl.1
    · rename_i hrl
      refine ⟨h.remark (r := j.route) ⟨fun r' hr => ?_, fun r' hr => Iff.rfl, fun hm => ?_, fun _ ht => ?_,
        fun i k hk => Or.inl (lookup_erase_some hk)⟩, fun _ => rfl, fun i k => lookup_erase_some⟩
      · simp [Function.update_of_ne hr]
      · -- a marked route has its trigger, so the error is no rate limit
        have hs := h.sound j.route hm
        cases rateLimited with
        | true => exact absurd hs (by simpa using hrl)
        | false => exact absurd hm (hc rfl j hj)
      · simp at ht

theorem fails_marked {rateLimited : Bool} : ∀ {jobs : List ℕ} {c : Core F κ}, Marked c →
    (rateLimited = false → ∀ i ∈ jobs, ∀ j ∈ c.jobs.lookup i, j.route ∉ c.triggered) →
    Marked (jobs.foldl (fun c job => c.fail rateLimited now job) c) := by
  intro jobs
  induction jobs with
  | nil => intro c h _; exact h
  | cons job jobs ih =>
    intro c h hc
    obtain ⟨h1, h2, h3⟩ := @fail_marked _ _ _ _ now _ _ job h fun hf => hc hf job List.mem_cons_self
    refine ih h1 fun hf i hi j hj => ?_
    rw [h2 hf]
    exact hc hf i (List.mem_cons_of_mem _ hi) j (h3 i j hj)

theorem onLeg_marked {key : κ} {result : Except Bool BuiltLeg} (h : Marked c)
    (hc : result = .error false → ∀ f ∈ c.inflight.lookup key, ∀ i ∈ f.jobs, ∀ j ∈ c.jobs.lookup i,
      j.route ∉ c.triggered) : Marked (c.onLeg key result now) := by
  unfold Core.onLeg
  cases hf : c.inflight.lookup key with
  | none => exact h
  | some f =>
    cases result with
    | ok leg => exact delivers_marked ⟨h.sound, h.complete, h.urgent⟩
    | error rateLimited =>
      refine fails_marked ⟨h.sound, h.complete, h.urgent⟩ fun hrl i hi j hj => ?_
      exact hc (by rw [hrl]) f hf i hi j hj

/-! ### Pricing -/

theorem takeReady_marked {job : ℕ} (h : Marked c) : Marked (c.takeReady job).1 := by
  unfold Core.takeReady
  cases hj : c.jobs.lookup job with
  | none => exact h
  | some j =>
    refine h.remark (r := j.route) ⟨fun r' hr => ?_, fun r' hr => Iff.rfl, fun hm => ?_, fun hn ht => ?_,
      fun i k hk => Or.inl (lookup_erase_some hk)⟩
    · simp [Function.update_of_ne hr]
    · simpa using h.sound _ hm
    · simp only [Core.setState_state, Function.update_self] at hn ht
      exact h.complete _ hn ht

/-- What the change is measured from after a decision. -/
theorem decided_changeBp {r : ℕ} {grossBp netBp : F} {inputs : Inputs F} {trigger : Option Instant} :
    (c.setState r { Core.decided (c.state r) grossBp netBp inputs now with trigger }).changeBp r now =
      c.changeFrom r inputs now := by
  simp [Core.changeBp, Core.decided, Core.changeFrom, Core.inputs, Core.setState, Core.route, Core.freshMid, Core.mean,
    Core.freshMids]

/-- A decision on a marked route must leave its trigger, or set it again. -/
theorem onDecided_marked {r : ℕ} {grossBp netBp : F} {inputs : Inputs F} {started : Instant} (h : Marked c)
    (hc : r ∈ c.triggered → Core.answeredBy (c.state r).trigger started = false ∨
      le c.cfg.changeBp (c.changeFrom r inputs now) = true) :
    Marked (c.onDecided r grossBp netBp inputs started now) := by
  have htrigger : (Core.decided (c.state r) grossBp netBp inputs now).trigger = (c.state r).trigger := by
    unfold Core.decided Core.learn
    simp only
    split <;> rfl
  unfold Core.onDecided
  simp only [htrigger]
  split
  · rename_i ha
    unfold Core.recheck
    rw [decided_changeBp]
    split
    · refine h.remark (r := r) ⟨fun r' hr => ?_, fun r' hr => ?_, fun _ => ?_, fun _ _ => ?_, fun j job hj => Or.inl hj⟩
      · simp [Function.update_of_ne hr]
      · simp [Finset.mem_insert, hr]
      · simp
      · simp
    · rename_i hle
      refine h.remark (r := r) ⟨fun r' hr => ?_, fun r' hr => Iff.rfl, fun hm => ?_, fun _ ht => ?_,
        fun j job hj => Or.inl hj⟩
      · simp [Function.update_of_ne hr]
      · rcases hc hm with h1 | h1
        · rw [ha] at h1
          cases h1
        · exact absurd h1 hle
      · simp at ht
  · rename_i ha
    refine h.remark (r := r) ⟨fun r' hr => ?_, fun r' hr => ?_, fun _ => ?_, fun _ _ => ?_, fun j job hj => Or.inl hj⟩
    · simp [Function.update_of_ne hr]
    · simp [Finset.mem_insert, hr]
    · cases ht : (c.state r).trigger with
      | none => simp [ht, Core.answeredBy] at ha
      | some t => simp [htrigger, ht]
    · simp

/-! ### Whole runs -/

/-- The event drops no trigger of a marked route: an error that is no rate
limit fails no job of one, and a decision on one leaves it triggered. -/
def Answered (s : Sys F κ) : Event F κ → Prop
  | .leg key (.error false) _ => ∀ f ∈ s.core.inflight.lookup key, ∀ i ∈ f.jobs, ∀ j ∈ s.core.jobs.lookup i,
      j.route ∉ s.core.triggered
  | .decided job _ _ now => ∀ p ∈ s.taken.lookup job, p.route ∈ s.core.triggered →
      Core.answeredBy (s.core.state p.route).trigger p.picked = false ∨
        le s.core.cfg.changeBp (s.core.changeFrom p.route p.inputs now) = true
  | _ => True

instance (s : Sys F κ) : DecidablePred (Answered s)
  | .leg key (.error false) _ => inferInstanceAs (Decidable (∀ f ∈ s.core.inflight.lookup key, ∀ i ∈ f.jobs,
      ∀ j ∈ s.core.jobs.lookup i, j.route ∉ s.core.triggered))
  | .decided job _ _ now => inferInstanceAs (Decidable (∀ p ∈ s.taken.lookup job, p.route ∈ s.core.triggered →
      Core.answeredBy (s.core.state p.route).trigger p.picked = false ∨
        le s.core.cfg.changeBp (s.core.changeFrom p.route p.inputs now) = true))
  | .leg _ (.error true) _ => .isTrue trivial
  | .leg _ (.ok _) _ => .isTrue trivial
  | .tick .. => .isTrue trivial
  | .next .. => .isTrue trivial
  | .takeReady _ => .isTrue trivial
  | .limiter _ => .isTrue trivial

/-- **One event that drops no trigger of a marked route keeps the marks.** -/
theorem marked_step {s t : Sys F κ} {e : Event F κ} (h : Marked s.core) (ha : Answered s e)
    (hs : s.step q e = some t) : Marked t.core := by
  cases e with
  | tick tk now =>
    cases hs
    exact onTick_marked tk h
  | next now reads =>
    obtain ⟨h', hm, -, -⟩ := step_next hs
    exact moves_marked hm h
  | leg key result now =>
    cases hs
    refine onLeg_marked h ?_
    rintro rfl
    exact ha
  | takeReady job =>
    have hm := @takeReady_marked _ _ _ _ _ job h
    simp only [Sys.step] at hs
    split at hs
    · rcases ht : s.core.takeReady job with ⟨c, _ | r⟩
      · rw [ht] at hm hs
        cases hs
        exact hm
      · rw [ht] at hm hs
        cases hs
        exact hm
    · cases hs
  | decided job grossBp netBp now =>
    obtain ⟨p, hp, rfl⟩ := Option.map_eq_some_iff.mp hs
    exact onDecided_marked h (ha p hp)
  | limiter budget =>
    cases hs
    exact h

/-- **A route without a job is triggered exactly when a change of its is
unanswered**, and every urgent job was started for one, in every run whose
events drop no trigger of a marked route. -/
theorem triggers_unanswered {cfg : RouterConfig F} {plans : List CandidatePlan} {observes : LegSpec → Observes}
    {oracleOf : Address → Option String} {budget : WindowLimiter} {es : List (Event F κ)} {s : Sys F κ}
    (hr : Run (fun s e t => Answered s e ∧ s.step q e = some t) (Sys.new cfg plans observes oracleOf budget) es s) :
    (∀ r, (s.core.state r).job = none → (r ∈ s.core.triggered ↔ (s.core.state r).trigger.isSome)) ∧
    ∀ j job, s.core.jobs.lookup j = some job → job.cls = .urgent → job.trigger.isSome := by
  have h : Marked s.core := by
    refine hr.invariant (P := fun s => Marked s.core) ⟨fun r h => ?_, fun r _ h => ?_, fun j job h => ?_⟩
      fun s e t h hs => marked_step h hs.1 hs.2
    · simp [Sys.new, Core.new] at h
    · simp [Sys.new, Core.new, RouteState.default] at h
    · cases h
  exact ⟨fun r hr => ⟨h.sound r, h.complete r hr⟩, h.urgent⟩

/-! ### A tick while the job runs -/

/-- A round trip over one watched pool. -/
def watchedStart : Sys ℚ (ℕ × ℕ × ℕ) :=
  Sys.new defaultConfig [⟨1000, [plainLeg 1 2, plainLeg 2 1]⟩] (fun _ => .dexes ["pool"]) (fun _ => none)
    (.new 20 10000000000 1)

/-- The first decision, and then a move of the pool. -/
def movedRun : List (Event ℚ (ℕ × ℕ × ℕ)) :=
  [.tick (.pool "pool" 100 1) 1, .next 2 plainReads,
    .leg (1, 2, 1000) (.ok (builtLeg 5 2)) 3, .next 3 plainReads,
    .leg (2, 1, 5) (.ok (builtLeg 999 3)) 4, .next 4 plainReads, .takeReady 1, .decided 1 0 0 5,
    .tick (.pool "pool" 200 6) 6]

/-- The pool's next tick, at the same price, comes while the job runs. -/
def tickWhileRunning : List (Event ℚ (ℕ × ℕ × ℕ)) :=
  [.next 7 plainReads, .tick (.pool "pool" 200 8) 8,
    .leg (1, 2, 1000) (.ok (builtLeg 6 7)) 9, .next 9 plainReads,
    .leg (2, 1, 6) (.ok (builtLeg 999 9)) 10, .next 10 plainReads, .takeReady 2, .decided 2 0 0 11]

/-- The decision answers the change, and the route stays marked. -/
theorem decided_route_stays : ∃ s : Sys ℚ (ℕ × ℕ × ℕ),
    Run (fun s e t => s.step plainRequests e = some t) watchedStart (movedRun ++ tickWhileRunning) s ∧
      (s.core.state 0).job = none ∧ 0 ∈ s.core.triggered ∧ (s.core.state 0).trigger = none := by
  have h : ((movedRun ++ tickWhileRunning).foldlM (Sys.step plainRequests) watchedStart).map (fun s =>
      decide ((s.core.state 0).job = none ∧ 0 ∈ s.core.triggered ∧ (s.core.state 0).trigger = none)) =
      some true := by decide +kernel
  obtain ⟨s, hs, hd⟩ := Option.map_eq_some_iff.mp h
  exact ⟨s, Run.of_foldlM hs, of_decide_eq_true hd⟩

/-- After the move the route is marked, because its trigger is set. -/
theorem triggers_unanswered_moved : ∃ s : Sys ℚ (ℕ × ℕ × ℕ), (s.core.state 0).trigger = some 6 ∧
    0 ∈ s.core.triggered := by
  have h : (movedRun.foldlM (fun s e => if Answered s e then s.step plainRequests e else none) watchedStart).map
      (fun s => decide ((s.core.state 0).job = none ∧ (s.core.state 0).trigger = some 6)) = some true := by
    decide +kernel
  obtain ⟨s, hs, hd⟩ := Option.map_eq_some_iff.mp h
  obtain ⟨hj, ht⟩ := of_decide_eq_true hd
  have hr : Run (fun s e t => Answered s e ∧ s.step plainRequests e = some t) watchedStart movedRun s := by
    refine (Run.of_foldlM hs).mono fun s e t h => ?_
    split at h
    · exact ⟨‹_›, h⟩
    · cases h
  exact ⟨s, ht, ((triggers_unanswered hr).1 0 hj).mpr (by rw [ht]; rfl)⟩

end Router
end MobiusSearcher
