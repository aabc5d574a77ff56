/-
# The act loop

After every event the shell of `crates/execution/src/router.rs` (`run`) asks
the router for the next thing to do, until there is nothing to do now: a job
handed out is taken, a request is sent, and a wait for this very instant means
to look again (`Core.act`). Every round that goes on leaves fewer jobs in the
queues, or fewer routes to start, unless a route due for calibration is served
from the cache with the quotes it was last decided from. Then the job is dropped
as a repeat and the route is as due as before: the loop spins. A floor that is
no shorter than the reuse of a leg rules it out (`act_loop_ends`), and the
check of a configuration does not ask for one (`act_loop_spins`).

Key definitions: `SchedulerConfig`, `Core.act`, `Core.acts`, `SchedulerConfig.Refreshes`.
Key theorems: `next_turned`, `act_loop_ends`, `act_loop_spins`.
-/
import MobiusSearcher.Router.Admission
import MobiusSearcher.Router.Pace
import MobiusSearcher.Telemetry.Slots
import MobiusSearcher.Lib.Rounds

set_option linter.unusedSectionVars false

namespace MobiusSearcher

open Machine

/-! ### A wait is for later -/

namespace WindowLimiter

variable {g b : WindowLimiter} {now t wait : Instant} {reserve need : ℕ}

/-- When the slots are not free now, the time they may be is later. -/
theorem nextSlotN_later (h : (g.available now reserve).1 < max need 1) : now < (g.nextSlotN now reserve need).1 := by
  cases hb : g.blocked now with
  | true =>
    obtain ⟨u, hu, hlt⟩ := blocked_iff.mp hb
    rw [nextSlotN_blocked hu hlt]
    exact hlt
  | false =>
    calc now < now + leastWait := Nat.lt_add_of_pos_right (by decide)
      _ ≤ (g.nextSlotN now reserve need).1 := leastWait_le hb (not_le.mpr h)

theorem tryAcquire_later (h : g.tryAcquire now reserve = (.error wait, b)) : 0 < wait := by
  unfold tryAcquire at h
  simp only at h
  split at h
  · cases (Prod.mk.inj h).1
  · rename_i hfree
    have hagain := available_again g now reserve
    have hfew : ((g.available now reserve).2.available now reserve).1 < max 1 1 := by
      rw [hagain]
      exact Nat.lt_of_not_le hfree
    exact Except.error.inj (Prod.mk.inj h).1 ▸ Nat.sub_pos_of_lt (nextSlotN_later hfew)

end WindowLimiter

namespace Router

open Keyed FloatOps Relation

/-! ### The configuration -/

/-- The scheduler's section. -/
structure SchedulerConfig (F : Type*) where
  /-- Requests per window. -/
  windowCapacity : ℕ
  windowMs : ℕ
  /-- Added to `windowMs` in our own accounting. -/
  windowMarginMs : ℕ
  /-- Window slots never used. -/
  windowSafety : ℕ
  /-- Slots calibration may not use. -/
  reserve : ℕ
  maxInFlight : ℕ
  /-- A move of a route's input below this (bp) is not news. -/
  changeBp : F
  legTtlMs : ℕ
  unobservableTtlMs : ℕ
  /-- Every route is re-quoted at least this often. -/
  floorS : ℕ

namespace SchedulerConfig

variable {F : Type*} (sc : SchedulerConfig F)

/-- What `Config::validate` checks of the scheduler. -/
def validate : Except String Unit :=
  if sc.windowCapacity ≤ wrapU32 (sc.windowSafety + sc.reserve) ∨ sc.windowMs < 1000 ∨ sc.maxInFlight = 0 then
    .error "scheduler: window_capacity must exceed window_safety + reserve; window_ms ≥ 1000; max_in_flight ≥ 1"
  else if sc.windowCapacity ≤ wrapU32 sc.maxInFlight then
    .error "scheduler.max_in_flight must be below window_capacity"
  else .ok ()

/-- The router's configuration, in ns. -/
def router : RouterConfig F where
  maxInFlight := sc.maxInFlight
  reserve := sc.reserve
  changeBp := sc.changeBp
  legTtl := sc.legTtlMs * 1000000
  unobservableTtl := sc.unobservableTtlMs * 1000000
  floor := sc.floorS * 1000000000

/-- The limiter of the requests. -/
def limiter : WindowLimiter :=
  .new sc.windowCapacity ((sc.windowMs + sc.windowMarginMs) * 1000000) sc.windowSafety

/-- No leg is reused for longer than the floor, by either time. -/
def Refreshes : Prop := sc.legTtlMs ≤ sc.floorS * 1000 ∧ max 300 sc.unobservableTtlMs ≤ sc.floorS * 1000

end SchedulerConfig

variable {F : Type*} [FloatOps F] {ρ κ : Type*} [DecidableEq κ]

/-! ### The loop -/

namespace Core

/-- One round of the loop, and the wait it ends with, if it ends. -/
def act (q : Requests ρ κ) (now : Instant) (reads : Reads F) (x : Core F κ × WindowLimiter) :
    (Core F κ × WindowLimiter) × Option (Option Instant) :=
  match x.1.next q now reads x.2 with
  | (c, budget, .finish job) => (((c.takeReady job).1, budget), none)
  | (c, budget, .dispatch ..) => ((c, budget), none)
  | (c, budget, .wait at_) => ((c, budget), if at_ = some now then none else some at_)

/-- The state and the wait the loop ends with, when it ends within `n` rounds. -/
def acts (q : Requests ρ κ) (now : Instant) (n : ℕ) (reads : ℕ → Reads F) (x : Core F κ × WindowLimiter) :
    Option ((Core F κ × WindowLimiter) × Option Instant) :=
  Rounds.rounds (act q now) n reads x

end Core

/-- The clock is never read as before `now`. -/
structure Reads.Since (reads : Reads F) (now : Instant) : Prop where
  leg : ∀ job index, now ≤ (reads.leg job index).1 ∧ now ≤ (reads.leg job index).2
  requests : now ≤ reads.requests

/-! ### What is left to do -/

namespace Core

/-- The jobs in the queues. -/
def queued (c : Core F κ) : ℕ := c.ready.length + c.continuations.length

/-- The routes without a job, and those that are triggered. -/
def startable (c : Core F κ) : ℕ :=
  ((Finset.range c.defs.length).filter fun r => (c.state r).job = none).card +
    ((Finset.range c.defs.length).filter fun r => r ∈ c.triggered).card

/-- What the loop has left to do: the queues, and then the routes. -/
def work (c : Core F κ) : ℕ ×ₗ ℕ := toLex (c.queued, c.startable)

end Core

variable {q : Requests ρ κ} {now : Instant} {reads : Reads F} {c d e : Core F κ} {budget b : WindowLimiter}

theorem work_lt : d.work < c.work ↔ d.queued < c.queued ∨ d.queued = c.queued ∧ d.startable < c.startable := by
  unfold Core.work
  rw [Prod.Lex.toLex_lt_toLex]

/-- A route that lost its last reason to be started is one less. -/
theorem startable_lt {r : ℕ} (hr : r < c.defs.length) (hdefs : d.defs = c.defs)
    (hjob : ∀ i, (d.state i).job = none → (c.state i).job = none) (htriggered : d.triggered ⊆ c.triggered)
    (hless : (c.state r).job = none ∧ (d.state r).job ≠ none ∨ r ∈ c.triggered ∧ r ∉ d.triggered) :
    d.startable < c.startable := by
  unfold Core.startable
  rw [hdefs]
  have hidle : (Finset.range c.defs.length).filter (fun r => (d.state r).job = none) ⊆
      (Finset.range c.defs.length).filter fun r => (c.state r).job = none :=
    Finset.monotone_filter_right _ fun i _ => hjob i
  have hmarked : (Finset.range c.defs.length).filter (fun r => r ∈ d.triggered) ⊆
      (Finset.range c.defs.length).filter fun r => r ∈ c.triggered :=
    Finset.monotone_filter_right _ fun i _ hi => htriggered hi
  have hidle_le := Finset.card_le_card hidle
  have hmarked_le := Finset.card_le_card hmarked
  rcases hless with ⟨hfree, hbusy⟩ | ⟨hin, hout⟩
  · have hlt := Finset.card_lt_card (Finset.ssubset_iff_subset_ne.mpr ⟨hidle, fun heq => by
      have hmem : r ∈ (Finset.range c.defs.length).filter fun r => (c.state r).job = none :=
        Finset.mem_filter.mpr ⟨Finset.mem_range.mpr hr, hfree⟩
      rw [← heq] at hmem
      exact hbusy (Finset.mem_filter.mp hmem).2⟩)
    omega
  · have hlt := Finset.card_lt_card (Finset.ssubset_iff_subset_ne.mpr ⟨hmarked, fun heq => by
      have hmem : r ∈ (Finset.range c.defs.length).filter fun r => r ∈ c.triggered :=
        Finset.mem_filter.mpr ⟨Finset.mem_range.mpr hr, hin⟩
      rw [← heq] at hmem
      exact hout (Finset.mem_filter.mp hmem).2⟩)
    omega

/-- The loop goes on after the step. -/
def Step.GoesOn (now : Instant) : Step ρ κ → Prop
  | .wait at_ => at_ = some now
  | _ => True

/-- What a call of `next` does for the loop: it ends it with a wait for later, or
for events, or leaves less to do. -/
inductive Turned (now : Instant) (c : Core F κ) : Core F κ × WindowLimiter × Step ρ κ → Prop
  | ends {d : Core F κ} {b : WindowLimiter} {at_ : Option Instant} :
      (∀ t ∈ at_, now < t) → Turned now c (d, b, .wait at_)
  | again {d : Core F κ} {b : WindowLimiter} {step : Step ρ κ} :
      step.GoesOn now → d.work < c.work → Turned now c (d, b, step)

theorem Turned.after {x : Core F κ × WindowLimiter × Step ρ κ} (h : Turned now d x) (hlt : d.work < c.work) :
    Turned now c x := by
  cases h with
  | ends h => exact .ends h
  | again hs h => exact .again hs (h.trans hlt)

/-! ### The queues -/

/-- Advancing a job leaves the queues, but that it may become ready. -/
theorem advanceLoop_queues {job : ℕ} : ∀ (fuel : ℕ) (c : Core F κ),
    let x := Core.advanceLoop q job now reads fuel c
    x.1.continuations = c.continuations ∧ (x.1.ready = c.ready ∨ x.2 = none ∧ x.1.ready = c.ready ++ [job]) := by
  intro fuel
  induction fuel with
  | zero =>
    intro c
    unfold Core.advanceLoop
    simp only
    split
    · split
      · exact ⟨rfl, .inl rfl⟩
      · split
        · split
          · exact ⟨rfl, .inl rfl⟩
          · exact ⟨rfl, .inl rfl⟩
        · exact ⟨rfl, .inl rfl⟩
    · exact ⟨rfl, .inr ⟨rfl, rfl⟩⟩
  | succ fuel ih =>
    intro c
    unfold Core.advanceLoop
    simp only
    split
    · split
      · exact ih _
      · split
        · split
          · exact ⟨rfl, .inl rfl⟩
          · exact ⟨rfl, .inl rfl⟩
        · exact ⟨rfl, .inl rfl⟩
    · exact ⟨rfl, .inr ⟨rfl, rfl⟩⟩

theorem popReadyFrom_queues : ∀ (l : List ℕ) (c : Core F κ),
    (c.popReadyFrom l).1.continuations = c.continuations ∧ (c.popReadyFrom l).1.ready.length ≤ l.length - 1
  | [], c => ⟨rfl, le_rfl⟩
  | job :: l, c => by
    unfold Core.popReadyFrom
    cases hj : c.jobs.lookup job with
    | none =>
      obtain ⟨hcont, hlen⟩ := popReadyFrom_queues l c
      exact ⟨hcont, hlen.trans (Nat.sub_le _ _)⟩
    | some j =>
      simp only
      split
      · obtain ⟨hcont, hlen⟩ := popReadyFrom_queues l (c.suppress job j)
        exact ⟨hcont, hlen.trans (Nat.sub_le _ _)⟩
      · exact ⟨rfl, le_rfl⟩

theorem popReady_queues (c : Core F κ) : c.popReady.1.continuations = c.continuations ∧
    c.popReady.1.ready.length ≤ c.ready.length - 1 := popReadyFrom_queues c.ready c

/-- With no job ready, the queue is left alone. -/
theorem popReady_empty (h : c.ready = []) : c.popReady = (c, none) := by
  rw [popReady_none h]
  cases c
  exact congrArg (fun ready => (Core.mk _ _ _ _ _ _ _ _ _ _ _ ready _ _ _, none)) h.symm

/-- With one, the queue gets shorter. -/
theorem popReady_shorter (h : c.ready ≠ []) : c.popReady.1.work < c.work := by
  obtain ⟨hcont, hlen⟩ := popReady_queues c
  have hpos := List.length_pos_iff.mpr h
  refine work_lt.mpr (.inl ?_)
  unfold Core.queued
  rw [hcont]
  omega

theorem dispatch_queues (c : Core F κ) (job : ℕ) (key : κ) (index : ℕ) (req : ρ) :
    (c.dispatch job key index req now).1.ready = c.ready ∧
      (c.dispatch job key index req now).1.continuations = c.continuations ∧
      (c.dispatch job key index req now).1.state = c.state ∧
      (c.dispatch job key index req now).1.triggered = c.triggered ∧
      (c.dispatch job key index req now).1.defs = c.defs := by
  unfold Core.dispatch
  split
  · exact ⟨rfl, rfl, rfl, rfl, rfl⟩
  · exact ⟨rfl, rfl, rfl, rfl, rfl⟩

/-- A request that goes out leaves less to do, or its job is gone. -/
theorem turned_dispatch {job : ℕ} {key : κ} {index : ℕ} {req : ρ} (h : (d.dispatch job key index req now).1.work < c.work) :
    Turned now c ((d.dispatch job key index req now).1, b, (d.dispatch job key index req now).2) := by
  unfold Core.dispatch at h ⊢
  split
  · exact .ends fun t ht => absurd ht (Option.not_mem_none t)
  · rename_i hj
    rw [hj] at h
    exact .again trivial h

/-- Every job that was to continue is in another place, or the loop ends. -/
theorem nextContinuations_turned {full : Bool} : ∀ {fuel : ℕ} {c : Core F κ} {budget : WindowLimiter},
    c.ready = [] → c.continuations.length ≤ fuel →
    match Core.nextContinuations q now reads full fuel c budget with
    | (d, b, some step) => Turned now c (d, b, step)
    | (d, _, none) => d.ready = [] ∧ d.continuations = [] ∧ (d = c ∨ d.work < c.work) := by
  intro fuel
  induction fuel with
  | zero =>
    intro c budget hready hlen
    exact ⟨hready, List.eq_nil_of_length_eq_zero (Nat.le_zero.mp hlen), .inl rfl⟩
  | succ fuel ih =>
    intro c budget hready hlen
    unfold Core.nextContinuations
    cases hc : c.continuations with
    | nil => exact ⟨hready, hc, .inl rfl⟩
    | cons job rest =>
      simp only
      have hq := @advanceLoop_queues _ _ _ _ _ q now reads job (c.legsLeft job) c
      rcases hadv : c.advance q job now reads with ⟨d, _ | ⟨key, index, req⟩⟩
      · obtain ⟨-, hd⟩ : d.continuations = c.continuations ∧
            (d.ready = c.ready ∨ _ ∧ d.ready = c.ready ++ [job]) := by
          unfold Core.advance at hadv
          rwa [hadv] at hq
        have hshort : d.ready.length ≤ 1 := by
          rcases hd with h | ⟨-, h⟩ <;> rw [h, hready] <;> simp
        obtain ⟨hcont, hpopped⟩ := popReady_queues ({ d with continuations := rest } : Core F κ)
        simp only
        have hless : ∀ x, ({ d with continuations := rest } : Core F κ).popReady.1 = x → x.ready = [] ∧
            x.continuations = rest ∧ x.work < c.work := by
          rintro x rfl
          have hnil := List.eq_nil_of_length_eq_zero (Nat.le_zero.mp (hpopped.trans (Nat.sub_le_of_le_add hshort)))
          refine ⟨hnil, hcont, work_lt.mpr (.inl ?_)⟩
          unfold Core.queued
          rw [hnil, hcont, hc, hready]
          simp
        rcases hpop : ({ d with continuations := rest } : Core F κ).popReady with ⟨x, _ | j⟩
        · obtain ⟨hx, hrest, hlt⟩ := hless x (by rw [hpop])
          have hfuel : x.continuations.length ≤ fuel := by
            rw [hrest]
            rw [hc, List.length_cons] at hlen
            omega
          have hrec := @ih x budget hx hfuel
          simp only
          rcases hn : Core.nextContinuations q now reads full fuel x budget with ⟨y, b, _ | step⟩
          · rw [hn] at hrec
            obtain ⟨hy, hyc, hle⟩ := hrec
            exact ⟨hy, hyc, .inr (hle.elim (fun h => h ▸ hlt) hlt.trans')⟩
          · rw [hn] at hrec
            exact hrec.after hlt
        · exact .again trivial (hless x (by rw [hpop])).2.2
      · have hd : d.ready = [] := by
          unfold Core.advance at hadv
          rw [hadv] at hq
          rcases hq.2 with h | ⟨h, -⟩
          · exact h.trans hready
          · exact absurd h (Option.some_ne_none _)
        simp only
        by_cases hfull : full = true
        · rw [if_pos hfull]
          exact .ends fun t ht => absurd ht (Option.not_mem_none t)
        · rw [if_neg hfull]
          rcases htry : budget.tryAcquire now 0 with ⟨wait | ok, b⟩
          · refine .ends fun t ht => ?_
            obtain rfl := Option.some.inj ht
            exact Nat.lt_add_of_pos_right (WindowLimiter.tryAcquire_later htry)
          · refine turned_dispatch (work_lt.mpr (.inl ?_))
            obtain ⟨hdr, hdc, -⟩ := @dispatch_queues _ _ _ _ _ now { d with continuations := rest } job key index req
            unfold Core.queued
            rw [hdr, hdc, hc]
            simp only [hd, List.length_nil, List.length_cons]
            omega

/-! ### A route that is started -/

/-- No leg is reused for longer than the floor. -/
def RouterConfig.Refreshes (cfg : RouterConfig F) : Prop :=
  cfg.legTtl ≤ cfg.floor ∧ max 300000000 cfg.unobservableTtl ≤ cfg.floor

theorem SchedulerConfig.Refreshes.router {sc : SchedulerConfig F} (h : sc.Refreshes) : sc.router.Refreshes := by
  obtain ⟨hleg, hunobservable⟩ := h
  constructor
  · show sc.legTtlMs * 1000000 ≤ sc.floorS * 1000000000
    omega
  · show max 300000000 (sc.unobservableTtlMs * 1000000) ≤ sc.floorS * 1000000000
    omega

theorem ttl_le (h : c.cfg.Refreshes) (obs : Observes) : c.ttl obs ≤ c.cfg.floor := by
  unfold Core.ttl
  split
  · exact (max_le_max_left _ (min_le_right _ _)).trans h.2
  · exact h.1

theorem lt_sent_add {now clock sent ttl floor : ℕ} (hyoung : clock - sent < ttl) (hle : ttl ≤ floor) (hclock : now ≤ clock) :
    now < sent + floor := by omega

/-- A leg taken from the cache was sent within the floor. -/
theorem usable_young (h : c.cfg.Refreshes) {key : κ} {trigger : Option Instant} {clock : Instant × Instant} {e : Cached F}
    (hu : c.usable key trigger now clock = some e) (hclock : now ≤ clock.2) : now < e.leg.sent + c.cfg.floor := by
  have hcache := (usable_some hu).1
  unfold Core.usable at hu
  rw [Option.filter_eq_some_iff, Bool.and_eq_true] at hu
  have hyoung := hu.2.2
  unfold Core.cached at hyoung
  rw [hcache, Option.bind_some] at hyoung
  split at hyoung
  · rename_i hlt
    exact lt_sent_add hlt (ttl_le h e.obs) hclock
  · exact absurd hyoung Bool.false_ne_true

/-- What advancing a job leaves: the routes as they were, the job with legs that
meet `P`, and with all of them when it is ready. -/
structure Gets (job : ℕ) (P : BuiltLeg → Prop) (c : Core F κ) (j : Job F) (x : Core F κ) : Prop where
  state : x.state = c.state
  triggered : x.triggered = c.triggered
  defs : x.defs = c.defs
  job : ∃ j', x.jobs.lookup job = some j' ∧ j'.route = j.route ∧ (∀ l ∈ j'.legs, P l) ∧
    (x.ready = c.ready ∨ (c.route j.route).plan.legs.length ≤ j'.legs.length)

section Advance

variable {job index : ℕ} {P : BuiltLeg → Prop} {j : Job F} {req : ρ}

theorem joins_gets (hj : c.jobs.lookup job = some j) (hlegs : ∀ l ∈ j.legs, P l) (key : κ) :
    Gets job P c j (c.joins job j now key index req).1 := by
  unfold Core.joins
  split
  · split
    · exact ⟨rfl, rfl, rfl, j, hj, rfl, hlegs, .inl rfl⟩
    · exact ⟨rfl, rfl, rfl, j, hj, rfl, hlegs, .inl rfl⟩
  · exact ⟨rfl, rfl, rfl, j, hj, rfl, hlegs, .inl rfl⟩

theorem complete_gets (hj : c.jobs.lookup job = some j) (hlegs : ∀ l ∈ j.legs, P l) (hr : c.nextReq q job = none)
    (fuel : ℕ) : Gets job P c j (Core.advanceLoop q job now reads fuel c).1 := by
  rw [advanceLoop_complete hr]
  rw [nextReq_eq hj, Option.map_eq_none_iff, List.getElem?_eq_none_iff] at hr
  exact ⟨rfl, rfl, rfl, j, hj, rfl, hlegs, .inr hr⟩

/-- A job that is advanced gets cached legs only. -/
theorem advanceLoop_gets : ∀ (fuel : ℕ) {c : Core F κ} {j : Job F}, c.jobs.lookup job = some j → (∀ l ∈ j.legs, P l) →
    (∀ key trigger index e, c.usable key trigger now (reads.leg job index) = some e → P e.leg) →
    Gets job P c j (Core.advanceLoop q job now reads fuel c).1 := by
  intro fuel
  induction fuel with
  | zero =>
    intro c j hj hlegs hP
    cases hr : c.nextReq q job with
    | none => exact complete_gets hj hlegs hr 0
    | some x =>
      cases hu : c.usable (q.key x.2) j.trigger now (reads.leg job x.1) with
      | none =>
        rw [advanceLoop_joins hj hr hu]
        exact joins_gets hj hlegs _
      | some e =>
        have hstop : Core.advanceLoop q job now reads 0 c = (c, none) := by
          unfold Core.advanceLoop
          simp only [hr, hj, hu]
        rw [hstop]
        exact ⟨rfl, rfl, rfl, j, hj, rfl, hlegs, .inl rfl⟩
  | succ fuel ih =>
    intro c j hj hlegs hP
    cases hr : c.nextReq q job with
    | none => exact complete_gets hj hlegs hr (fuel + 1)
    | some x =>
      cases hu : c.usable (q.key x.2) j.trigger now (reads.leg job x.1) with
      | none =>
        rw [advanceLoop_joins hj hr hu]
        exact joins_gets hj hlegs _
      | some e =>
        rw [advanceLoop_takes hj hr hu]
        have hall : ∀ l ∈ (j.pushCached e.leg e.obs now).legs, P l := fun l hl => by
          rcases List.mem_append.mp hl with hl | hl
          · exact hlegs l hl
          · rw [List.mem_singleton.mp hl]
            exact hP _ _ _ _ hu
        obtain ⟨h1, h2, h3, h4⟩ := @ih { c with jobs := c.jobs.insert job (j.pushCached e.leg e.obs now) }
          (j.pushCached e.leg e.obs now) (AList.lookup_insert _) hall hP
        exact ⟨h1, h2, h3, h4⟩

end Advance

/-- The only job that is ready is handed out, or dropped as a repeat. -/
theorem popReady_single {job : ℕ} {j : Job F} (hr : d.ready = [job]) (hj : d.jobs.lookup job = some j) :
    d.popReady = if d.repeats j then ({ d.suppress job j with ready := [] }, none) else ({ d with ready := [] }, some job) := by
  unfold Core.popReady
  rw [hr]
  unfold Core.popReadyFrom
  rw [hj]
  rfl

/-- Quotes of every leg of the route, all within the floor, are not the ones it was last decided from. -/
def Core.News (c : Core F κ) (r : ℕ) (now : Instant) : Prop :=
  ∀ legs : List BuiltLeg, (c.route r).plan.legs.length ≤ legs.length → (∀ l ∈ legs, now < l.sent + c.cfg.floor) →
    legs.map BuiltLeg.sent ≠ (c.state r).lastLegs

/-- **Starting a route leaves less to do**, or waits: it has a job then, or is no longer triggered. -/
theorem startOn_turned {r reserve : ℕ} {cls : Class} (hcfg : c.cfg.Refreshes) (hreads : reads.Since now)
    (hready : c.ready = []) (hr : r < c.defs.length) (hjob : (c.state r).job = none)
    (hnews : r ∈ c.triggered ∨ c.News r now) : Turned now c (c.startOn q r cls reserve now reads budget) := by
  obtain ⟨j, hj, hroute, hlegs⟩ : ∃ j, (c.startJob r cls now).1.jobs.lookup c.nextJob = some j ∧ j.route = r ∧
      j.legs = [] := ⟨_, AList.lookup_insert _, rfl, rfl⟩
  have hyoung : ∀ key trigger index e, (c.startJob r cls now).1.usable key trigger now (reads.leg c.nextJob index) = some e →
      now < e.leg.sent + c.cfg.floor := fun key trigger index e he =>
    usable_young (c := (c.startJob r cls now).1) hcfg he (hreads.leg _ _).2
  have hq := @advanceLoop_queues _ _ _ _ _ q now reads c.nextJob ((c.startJob r cls now).1.legsLeft c.nextJob)
    (c.startJob r cls now).1
  have hkept := @advanceLoop_gets _ _ _ _ _ q now reads c.nextJob (fun l => now < l.sent + c.cfg.floor)
    ((c.startJob r cls now).1.legsLeft c.nextJob) _ j hj (by rw [hlegs]; exact fun l hl => absurd hl List.not_mem_nil) hyoung
  have hplan : (c.startJob r cls now).1.route j.route = c.route r := by rw [hroute]; rfl
  have hid : (c.startJob r cls now).2 = c.nextJob := rfl
  unfold Core.startOn
  simp only [hid]
  rcases hadv : (c.startJob r cls now).1.advance q c.nextJob now reads with ⟨d, out⟩
  unfold Core.advance at hadv
  rw [hadv] at hq hkept
  obtain ⟨hcont, hpush⟩ := hq
  obtain ⟨hstate, htriggered, hdefs, j', hj', hroute', hlegs', hcomplete⟩ := hkept
  rw [hplan] at hcomplete
  change d.state = Function.update c.state r { c.state r with job := some c.nextJob } at hstate
  change d.triggered = c.triggered.erase r at htriggered
  have hstay : ∀ i, (d.state i).job = none → (c.state i).job = none := fun i hi => by
    rw [hstate] at hi
    by_cases hir : i = r
    · exact hir ▸ hjob
    · rwa [Function.update_of_ne hir] at hi
  -- as long as the job is not dropped, its route has one
  have hbusy : ∀ x : Core F κ, x.state = d.state → x.triggered = d.triggered → x.defs = d.defs → x.ready = [] →
      x.continuations = d.continuations → x.work < c.work := by
    intro x h1 h2 h3 h4 h5
    refine work_lt.mpr (.inr ⟨?_, startable_lt hr (h3.trans hdefs) (fun i hi => hstay i (h1 ▸ hi)) ?_ (.inl ⟨hjob, ?_⟩)⟩)
    · unfold Core.queued
      rw [h4, h5, hcont, hready]
      rfl
    · rw [h2, htriggered]
      exact Finset.erase_subset _ _
    · rw [h1, hstate, Function.update_self]
      exact Option.some_ne_none _
  rcases out with _ | ⟨key, index, req⟩
  · simp only
    rcases hpush with hsame | ⟨-, hpush⟩
    · have hnil : d.ready = [] := hsame.trans hready
      rw [popReady_empty hnil]
      exact .again rfl (hbusy d rfl rfl rfl hnil rfl)
    · have hone : d.ready = [c.nextJob] := by
        rw [hpush]
        show c.ready ++ [c.nextJob] = _
        rw [hready]
        rfl
      rw [popReady_single hone hj']
      by_cases hrep : d.repeats j' = true
      · rw [if_pos hrep]
        rcases hnews with hin | hnews
        · refine .again rfl (work_lt.mpr (.inr ⟨?_, startable_lt hr hdefs (fun i hi => ?_) ?_ (.inr ⟨hin, ?_⟩)⟩))
          · unfold Core.queued
            show [].length + d.continuations.length = _
            rw [hcont, hready]
            rfl
          · by_cases hir : i = r
            · exact hir ▸ hjob
            · refine hstay i ?_
              have hne : i ≠ j'.route := by rw [hroute', hroute]; exact hir
              change (Function.update d.state j'.route _ i).job = none at hi
              rwa [Function.update_of_ne hne] at hi
          · show d.triggered.erase j'.route ⊆ c.triggered
            rw [htriggered]
            exact (Finset.erase_subset _ _).trans (Finset.erase_subset _ _)
          · show r ∉ d.triggered.erase j'.route
            rw [htriggered]
            exact fun h => Finset.notMem_erase r _ (Finset.mem_of_mem_erase h)
        · -- quotes the route was not decided from are no repeat
          refine absurd ?_ (hnews j'.legs ?_ hlegs')
          · have heq := of_decide_eq_true hrep
            rw [hstate, hroute', hroute, Function.update_self] at heq
            exact heq
          · refine hcomplete.resolve_left fun h => ?_
            rw [hone] at h
            exact absurd (h.trans hready) (List.cons_ne_nil _ _)
      · rw [if_neg hrep]
        exact .again trivial (hbusy { d with ready := [] } rfl rfl rfl rfl rfl)
  · have hnil : d.ready = [] := by
      rcases hpush with h | ⟨h, -⟩
      · exact h.trans hready
      · exact absurd h (Option.some_ne_none _)
    simp only
    rcases htry : budget.tryAcquire now reserve with ⟨wait | ok, b⟩
    · refine .ends fun t ht => ?_
      obtain rfl := Option.some.inj ht
      exact Nat.lt_add_of_pos_right (WindowLimiter.tryAcquire_later htry)
    · obtain ⟨h1, h2, h3, h4, h5⟩ := @dispatch_queues _ _ _ _ _ now d c.nextJob key index req
      exact turned_dispatch (hbusy _ h3 h4 h5 (h1.trans hnil) h2)

/-! ### A call of `next` -/

theorem bestTriggered_range {score : ℕ → F} {r : ℕ} (h : c.bestTriggered now score = some r) : r < c.defs.length := by
  refine foldl_pick (P := fun r => r < c.defs.length) ?_ h
  intro best r hr
  have hlt := List.mem_range.mp hr
  split
  · split
    · exact .inr ⟨rfl, hlt⟩
    · split
      · exact .inr ⟨rfl, hlt⟩
      · exact .inl rfl
  · exact .inl rfl

/-- A route that is due has not been decided for the floor. -/
theorem calibrationDue_due {r : ℕ} (h : c.calibrationDue now = some r) :
    r < c.defs.length ∧ ∀ t x, (c.state r).last = some (t, x) → c.cfg.floor ≤ now - t := by
  refine foldl_pick (P := fun r => r < c.defs.length ∧
    ∀ t x, (c.state r).last = some (t, x) → c.cfg.floor ≤ now - t) ?_ h
  intro best r hr
  obtain ⟨hrange, hdue⟩ := List.mem_filter.mp hr
  have hr : r < c.defs.length ∧ ∀ t x, (c.state r).last = some (t, x) → c.cfg.floor ≤ now - t := by
    refine ⟨List.mem_range.mp hrange, fun t x hlast => ?_⟩
    rw [hlast, Bool.and_eq_true] at hdue
    exact of_decide_eq_true hdue.2
  repeat' split
  all_goals first | exact .inr ⟨rfl, hr⟩ | exact .inl rfl

theorem nextDeadline_later (c : Core F κ) (now : Instant) : ∀ t ∈ c.nextDeadline now, now < t := by
  intro t ht
  obtain ⟨r, -, rfl⟩ := List.mem_map.mp (List.min?_mem ht)
  exact lt_of_lt_of_le (Nat.lt_add_of_pos_right (by decide)) (le_max_right _ _)

theorem admission_later {reserve need : ℕ} {t : Instant} (h : admission budget now reserve need = (some t, b)) :
    now < t := by
  unfold admission at h
  split at h
  · cases (Prod.mk.inj h).1
  · rename_i hneed
    simp only at h
    split at h
    · rename_i hfree
      have hfew : ((budget.available now reserve).2.available now reserve).1 < max need 1 := by
        rw [WindowLimiter.available_again]
        exact lt_of_lt_of_le hfree (le_max_left _ _)
      exact Option.some.inj (Prod.mk.inj h).1 ▸ WindowLimiter.nextSlotN_later hfew
    · cases (Prod.mk.inj h).1

/-- The routes that can be started have legs, and were decided after their quotes were sent. -/
def Core.Fit (c : Core F κ) : Prop :=
  c.cfg.Refreshes ∧ ∀ r < c.defs.length, (c.state r).job = none → (c.route r).plan.legs ≠ [] ∧ (c.state r).Settled

theorem not_due {now sent t floor : ℕ} (hpos : 0 < floor) (hdue : floor ≤ now - t) (hyoung : now < sent + floor)
    (hle : sent ≤ t) : False := by omega

/-- What a route that is due was decided from is older than the floor. -/
theorem due_news (hfit : c.Fit) {r : ℕ} (h : c.calibrationDue now = some r) : c.News r now := by
  intro legs hlen hyoung heq
  obtain ⟨hr, hdue⟩ := calibrationDue_due h
  obtain ⟨hplan, hsettled⟩ := hfit.2 r hr (calibrationDue_some h)
  obtain ⟨l, hl⟩ := List.exists_mem_of_length_pos (lt_of_lt_of_le (List.length_pos_iff.mpr hplan) hlen)
  have hsent : l.sent ∈ (c.state r).lastLegs := by
    rw [← heq]
    exact List.mem_map_of_mem hl
  have hpos : 0 < c.cfg.floor := lt_of_lt_of_le (by decide) ((le_max_left 300000000 _).trans hfit.1.2)
  unfold RouteState.Settled at hsettled
  cases hlast : (c.state r).last with
  | none =>
    rw [hlast] at hsettled
    rw [show (c.state r).lastLegs = [] from hsettled] at hsent
    exact absurd hsent List.not_mem_nil
  | some x =>
    rw [hlast] at hsettled
    exact not_due hpos (hdue x.1 x.2 hlast) (hyoung l hl) (hsettled _ hsent)

theorem nextStart_turned (hfit : c.Fit) (hreads : reads.Since now) (hready : c.ready = []) :
    Turned now c (c.nextStart q now reads budget) := by
  unfold Core.nextStart
  cases hbest : c.bestTriggered now reads.score with
  | some r =>
    obtain ⟨hin, hjob⟩ := bestTriggered_some hbest
    simp only
    rcases hadm : admission budget now 0 (c.requestsFor q r reads.requests + c.owed) with ⟨_ | t, b⟩
    · exact startOn_turned hfit.1 hreads hready (bestTriggered_range hbest) hjob (.inl hin)
    · exact .ends fun u hu => Option.some.inj hu ▸ admission_later hadm
  | none =>
    simp only
    cases hdue : c.calibrationDue now with
    | none => exact .ends (nextDeadline_later c now)
    | some r =>
      simp only [Option.map_some]
      rcases hadm : admission budget now c.cfg.reserve (c.requestsFor q r reads.requests + c.owed) with ⟨_ | t, b⟩
      · exact startOn_turned hfit.1 hreads hready (calibrationDue_due hdue).1 (calibrationDue_some hdue)
          (.inr (due_news hfit hdue))
      · exact .ends fun u hu => Option.some.inj hu ▸ admission_later hadm

/-- **A call of `next` leaves less to do, or the loop ends** with a wait for later or for events. -/
theorem next_turned (hreads : reads.Since now)
    (hfit : ∀ d, ReflTransGen (Move q now) (c, none) (d, none) → d.Fit) : Turned now c (c.next q now reads budget) := by
  have hmoves := @popReady_moves _ _ _ _ _ q now c
  unfold Core.next
  rcases hpop : c.popReady with ⟨d, _ | j⟩
  swap
  · have hne : c.ready ≠ [] := fun h => by
      rw [popReady_empty h] at hpop
      exact absurd (Prod.mk.inj hpop).2 (Option.some_ne_none j).symm
    have hlt := popReady_shorter hne
    rw [hpop] at hlt
    exact .again trivial hlt
  rw [hpop] at hmoves
  have hd : d = c ∨ d.work < c.work := by
    by_cases hready : c.ready = []
    · rw [popReady_empty hready] at hpop
      exact .inl (Prod.mk.inj hpop).1.symm
    · have hlt := popReady_shorter hready
      rw [hpop] at hlt
      exact .inr hlt
  -- what holds from there on holds from the start
  have hfrom : ∀ {x : Core F κ × WindowLimiter × Step ρ κ}, Turned now d x → Turned now c x := fun h =>
    hd.elim (fun he => he ▸ h) h.after
  have hcont := @nextContinuations_turned _ _ _ _ _ q now reads (decide (d.cfg.maxInFlight ≤ d.inflight.entries.length))
    d.continuations.length d budget (popReady_ready hpop) le_rfl
  have hcontMoves := @nextContinuations_moves _ _ _ _ _ q now reads
    (decide (d.cfg.maxInFlight ≤ d.inflight.entries.length)) d.continuations.length d budget
  simp only
  rcases hn : Core.nextContinuations q now reads (decide (d.cfg.maxInFlight ≤ d.inflight.entries.length))
    d.continuations.length d budget with ⟨e, b, _ | step⟩
  · rw [hn] at hcont hcontMoves
    obtain ⟨hready, -, he⟩ := hcont
    simp only
    split
    · exact .ends fun t ht => absurd ht (Option.not_mem_none t)
    · have hstart := @nextStart_turned _ _ _ _ _ q now reads e b (hfit e ((hmoves none).trans hcontMoves)) hreads hready
      exact hfrom (he.elim (fun he => he ▸ hstart) hstart.after)
  · rw [hn] at hcont
    exact hfrom hcont

/-! ### The loop ends -/

/-- The router is in order, keeps the pace, and has the configuration and the routes it started with. -/
structure Steady (cfg : RouterConfig F) (defs : List RouteDef) (s : Sys F κ) (clock : Instant) : Prop where
  tidy : Tidy s.core s.handed s.taken
  paced : Paced s clock
  cfg : s.core.cfg = cfg
  defs : s.core.defs = defs

variable {cfg : RouterConfig F} {defs : List RouteDef} {clock : Instant}

theorem steady_step {x y : Sys F κ × Instant} {ev : Event F κ} (h : Steady cfg defs x.1 x.2) (hs : Timely q x ev y) :
    Steady cfg defs y.1 y.2 := by
  obtain ⟨hpaced, hcfg, hdefs⟩ := paced_step h.paced h.tidy hs
  exact ⟨(tidy_step h.tidy hs.1).1, hpaced, hcfg.trans h.cfg, hdefs.trans h.defs⟩

theorem run_steady {plans : List CandidatePlan} {observes : LegSpec → Observes} {oracleOf : Address → Option String}
    {es : List (Event F κ)} {s : Sys F κ}
    (hr : Run (Timely q) (Sys.new cfg plans observes oracleOf budget, 0) es (s, clock)) :
    Steady cfg (plans.map (.ofPlan observes oracleOf)) s clock := by
  refine hr.invariant (P := fun x => Steady cfg (plans.map (.ofPlan observes oracleOf)) x.1 x.2) ?_
    fun x ev y h hs => steady_step h hs
  refine ⟨(new_tidy ..).1, ⟨⟨fun k e he => ?_, fun j job hj => ?_⟩, fun r t ht => ?_, fun r => .inl rfl⟩, rfl, rfl⟩
  · cases he
  · cases hj
  · cases ht

/-- Any time at which the router is in order, and at any moment within a call of `next`, what can be started is fit to be. -/
theorem Steady.fit {s : Sys F κ} (h : Steady cfg defs s now) (hcfg : cfg.Refreshes)
    (hdefs : ∀ x ∈ defs, x.plan.legs ≠ []) (hm : ReflTransGen (Move q now) (s.core, none) (d, none)) : d.Fit := by
  have hkept := @moves_kept _ _ _ _ _ q now now _ _ hm
  have htidy : Tidy d s.handed s.taken := (@moves_tidy _ _ _ _ _ q now _ _ s.handed _ hm h.tidy).1
  have hpaced : Paced ⟨d, s.budget, s.handed, s.taken⟩ now := h.paced.kept le_rfl hkept rfl
  refine ⟨by rw [hkept.cfg, h.cfg]; exact hcfg, fun r hr hjob => ⟨?_, hpaced.idle htidy hjob⟩⟩
  have hmem : d.route r ∈ d.defs := by
    unfold Core.route
    rw [List.getD_eq_getElem _ _ hr]
    exact List.getElem_mem hr
  rw [hkept.defs, h.defs] at hmem
  exact hdefs _ hmem

/-- A round leads from an orderly router to one. -/
theorem act_steady {s : Sys F κ} (h : Steady cfg defs s now) :
    ∃ handed taken, Steady cfg defs ⟨(Core.act q now reads (s.core, s.budget)).1.1,
      (Core.act q now reads (s.core, s.budget)).1.2, handed, taken⟩ now := by
  obtain ⟨t, ht⟩ : ∃ t, s.step q (.next now reads) = some t := ⟨_, rfl⟩
  have hnext : Steady cfg defs t now := steady_step (x := (s, now)) (y := (t, now)) h ⟨ht, rfl, le_rfl, trivial⟩
  unfold Sys.step at ht
  simp only at ht
  unfold Core.act
  simp only
  rcases hn : s.core.next q now reads s.budget with ⟨c, b, step⟩
  rw [hn] at ht
  obtain rfl := Option.some.inj ht
  cases step with
  | dispatch => exact ⟨_, _, hnext⟩
  | wait => exact ⟨_, _, hnext⟩
  | finish job =>
    obtain ⟨u, hu, hcore⟩ : ∃ u, Sys.step q (⟨c, b, job :: s.handed, s.taken⟩ : Sys F κ) (.takeReady job) = some u ∧
        u.core = (c.takeReady job).1 ∧ u.budget = b := by
      unfold Sys.step
      simp only [List.mem_cons_self, if_true]
      rcases c.takeReady job with ⟨c', _ | p⟩
      · exact ⟨_, rfl, rfl, rfl⟩
      · exact ⟨_, rfl, rfl, rfl⟩
    have htaken : Steady cfg defs u now :=
      steady_step (x := (⟨c, b, job :: s.handed, s.taken⟩, now)) (y := (u, now)) hnext ⟨hu, rfl, le_rfl, trivial⟩
    refine ⟨u.handed, u.taken, ?_⟩
    simp only
    rw [← hcore.1, ← hcore.2]
    exact htaken

/-- A job that is taken was in no queue, and its route still has it. -/
theorem takeReady_work (c : Core F κ) (job : ℕ) : (c.takeReady job).1.work = c.work := by
  unfold Core.takeReady
  cases hj : c.jobs.lookup job with
  | none => rfl
  | some j =>
    have hjob : ∀ r, (Function.update c.state j.route
        { c.state j.route with lastLegs := j.legs.map BuiltLeg.sent } r).job = (c.state r).job := fun r => by
      by_cases hr : r = j.route
      · subst hr
        rw [Function.update_self]
      · rw [Function.update_of_ne hr]
    unfold Core.work Core.queued Core.startable
    simp only [Core.setState_state, Core.setState_triggered, hjob]
    rfl

/-- A round that ends the loop ends it with a wait for later; any other leaves less to do. -/
theorem act_cases {x : Core F κ × WindowLimiter} (h : Turned now x.1 (x.1.next q now reads x.2)) :
    match Core.act q now reads x with
    | (_, some at_) => ∀ t ∈ at_, now < t
    | (y, none) => y.1.work < x.1.work := by
  unfold Core.act
  rcases hn : x.1.next q now reads x.2 with ⟨c, b, step⟩
  rw [hn] at h
  cases step with
  | finish job =>
    cases h with
    | again _ hlt =>
      simp only
      rw [takeReady_work]
      exact hlt
  | dispatch =>
    cases h with
    | again _ hlt => exact hlt
  | wait at_ =>
    simp only
    cases h with
    | ends hlater =>
      have hne : at_ ≠ some now := fun he => absurd (hlater now he) (lt_irrefl now)
      rw [if_neg hne]
      exact hlater
    | again hs hlt =>
      have hnow : at_ = some now := hs
      rw [if_pos hnow]
      exact hlt

/-- The defaults, with a floor of a second. -/
def hasty : SchedulerConfig ℚ := ⟨10, 10000, 1000, 2, 3, 3, 1 / 2, 2500, 1500, 1⟩

/-- A round trip over a watched pair. -/
def roundTripDefs : List RouteDef :=
  [.ofPlan (fun _ => .dexes ["pool"]) (fun _ => none) ⟨1000, [plainLeg 1 2, plainLeg 2 1]⟩]

def roundTripStart (sc : SchedulerConfig ℚ) : Sys ℚ (ℕ × ℕ × ℕ) :=
  Sys.new sc.router [⟨1000, [plainLeg 1 2, plainLeg 2 1]⟩] (fun _ => .dexes ["pool"]) (fun _ => none) sc.limiter

/-- It is quoted and decided. -/
def decidedOnce : List (Event ℚ (ℕ × ℕ × ℕ)) :=
  [.next 0 (clockAt 0), .leg (1, 2, 1000) (.ok (builtLeg 5 0)) 100000000,
    .next 100000000 (clockAt 100000000), .leg (2, 1, 5) (.ok (builtLeg 999 100000000)) 200000000,
    .next 200000000 (clockAt 200000000), .takeReady 1, .decided 1 0 0 300000000]

/-- A second after the decision. -/
def loopAt : Instant := 1300000000

/-- The cache holds what the route was decided from. -/
def Holds (c : Core ℚ (ℕ × ℕ × ℕ)) : Prop :=
  (c.cache (1, 2, 1000)).map (fun e => (e.leg, e.obs)) = some (builtLeg 5 0, .dexes ["pool"]) ∧
    (c.cache (2, 1, 5)).map (fun e => (e.leg, e.obs)) = some (builtLeg 999 100000000, .dexes ["pool"])

instance (c : Core ℚ (ℕ × ℕ × ℕ)) : Decidable (Holds c) := inferInstanceAs (Decidable (_ ∧ _))

/-- The route is due, and what it was last decided from is in the cache. -/
structure Spins (c : Core ℚ (ℕ × ℕ × ℕ)) : Prop where
  cfg : c.cfg = hasty.router
  defs : c.defs = roundTripDefs
  queues : c.ready = [] ∧ c.continuations = [] ∧ c.triggered = ∅
  waiting : c.inflight.entries = [] ∧ c.jobs.entries = []
  idle : (c.state 0).job = none ∧ (c.state 0).trigger = none ∧ (c.state 0).lastFailure = none
  decided : (c.state 0).last.map Prod.fst = some 300000000 ∧ (c.state 0).lastLegs = [0, 100000000]
  held : Holds c

theorem usable_cached {key : κ} {e : Cached F} {at_ : Instant} (hcache : c.cache key = some e)
    (hyoung : at_ - e.leg.sent < c.ttl e.obs) : c.usable key none now (at_, at_) = some e := by
  unfold Core.usable Core.cached Core.reflects
  rw [hcache, Option.bind_some, if_pos hyoung]
  rfl

section Spinning

variable {c : Core ℚ (ℕ × ℕ × ℕ)} {b : WindowLimiter} {job : ℕ} {j : Job ℚ}

theorem roundTrip_nextReq (hdefs : c.defs = roundTripDefs) (hj : c.jobs.lookup job = some j) (hroute : j.route = 0) :
    c.nextReq plainRequests job = [plainLeg 1 2, plainLeg 2 1][j.legs.length]?.map fun spec =>
      (j.legs.length, plainRequests.makeReq spec (match j.legs.getLast? with
        | none => 1000
        | some l => l.leg.outAmount)) := by
  rw [nextReq_eq hj, hroute]
  unfold Core.route
  rw [hdefs]
  rfl

/-- A job on the round trip takes both legs from the cache. -/
theorem roundTrip_served (hcfg : c.cfg = hasty.router) (hdefs : c.defs = roundTripDefs) (hready : c.ready = [])
    (hheld : Holds c) (hj : c.jobs.lookup job = some j) (hroute : j.route = 0) (hlegs : j.legs = [])
    (htrigger : j.trigger = none) :
    ∃ jobs j', c.advance plainRequests job loopAt (clockAt loopAt) = ({ c with jobs, ready := [job] }, none) ∧
      jobs.lookup job = some j' ∧ jobs.erase job = c.jobs.erase job ∧ j'.route = 0 ∧
      j'.legs.map BuiltLeg.sent = [0, 100000000] := by
  obtain ⟨⟨first, obs, mids⟩, hfirst, hval⟩ := Option.map_eq_some_iff.mp hheld.1
  obtain ⟨⟨second, obs', mids'⟩, hsecond, hval'⟩ := Option.map_eq_some_iff.mp hheld.2
  obtain ⟨rfl, rfl⟩ : first = builtLeg 5 0 ∧ obs = .dexes ["pool"] := Prod.mk.inj hval
  obtain ⟨rfl, rfl⟩ : second = builtLeg 999 100000000 ∧ obs' = .dexes ["pool"] := Prod.mk.inj hval'
  have hyoung : ∀ sent : Instant, loopAt - sent < c.ttl (.dexes ["pool"]) := fun sent => by
    show loopAt - sent < c.cfg.legTtl
    rw [hcfg]
    exact (Nat.sub_le _ _).trans_lt (by decide)
  have hleft : c.legsLeft job = 2 := by
    unfold Core.legsLeft Core.route
    rw [hj]
    simp only
    rw [hroute, hlegs, hdefs]
    rfl
  have hreq : c.nextReq plainRequests job = some (0, (1, 2, 1000)) := by
    rw [roundTrip_nextReq hdefs hj hroute, hlegs]
    rfl
  have htakes : c.usable (plainRequests.key (1, 2, 1000)) j.trigger loopAt ((clockAt loopAt).leg job 0) =
      some ⟨builtLeg 5 0, .dexes ["pool"], mids⟩ := by
    rw [htrigger]
    exact usable_cached hfirst (hyoung _)
  -- with the first leg
  obtain ⟨j₁, hj₁, hroute₁, hlegs₁, htrigger₁⟩ : ∃ j₁, j₁ = j.pushCached (builtLeg 5 0) (.dexes ["pool"]) loopAt ∧
      j₁.route = 0 ∧ j₁.legs = [builtLeg 5 0] ∧ j₁.trigger = none :=
    ⟨_, rfl, hroute, by rw [Job.pushCached, hlegs]; rfl, htrigger⟩
  have hreq₁ : ({ c with jobs := c.jobs.insert job j₁ } : Core ℚ (ℕ × ℕ × ℕ)).nextReq plainRequests job =
      some (1, (2, 1, 5)) := by
    rw [@roundTrip_nextReq { c with jobs := c.jobs.insert job j₁ } job j₁ hdefs (AList.lookup_insert _) hroute₁, hlegs₁]
    rfl
  have htakes₁ : ({ c with jobs := c.jobs.insert job j₁ } : Core ℚ (ℕ × ℕ × ℕ)).usable (plainRequests.key (2, 1, 5))
      j₁.trigger loopAt ((clockAt loopAt).leg job 1) = some ⟨builtLeg 999 100000000, .dexes ["pool"], mids'⟩ := by
    rw [htrigger₁]
    exact usable_cached hsecond (hyoung _)
  -- with both
  obtain ⟨j₂, hj₂, hroute₂, hlegs₂⟩ : ∃ j₂, j₂ = j₁.pushCached (builtLeg 999 100000000) (.dexes ["pool"]) loopAt ∧
      j₂.route = 0 ∧ j₂.legs = [builtLeg 5 0, builtLeg 999 100000000] :=
    ⟨_, rfl, hroute₁, by rw [Job.pushCached, hlegs₁]; rfl⟩
  have hreq₂ : ({ c with jobs := (c.jobs.insert job j₁).insert job j₂ } : Core ℚ (ℕ × ℕ × ℕ)).nextReq plainRequests job =
      none := by
    rw [@roundTrip_nextReq { c with jobs := (c.jobs.insert job j₁).insert job j₂ } job j₂ hdefs (AList.lookup_insert _)
      hroute₂, hlegs₂]
    rfl
  refine ⟨(c.jobs.insert job j₁).insert job j₂, j₂, ?_, AList.lookup_insert _, ?_, hroute₂, ?_⟩
  · unfold Core.advance
    rw [hleft, advanceLoop_takes hj hreq htakes]
    simp only
    rw [← hj₁, advanceLoop_takes (AList.lookup_insert _) hreq₁ htakes₁]
    simp only
    rw [← hj₂, advanceLoop_complete hreq₂]
    rw [hready]
    rfl
  · rw [erase_insert, erase_insert]
  · rw [hlegs₂]
    rfl

theorem Spins.calibrationDue (h : Spins c) : c.calibrationDue loopAt = some 0 := by
  obtain ⟨⟨t, x⟩, hlast, ht⟩ := Option.map_eq_some_iff.mp h.decided.1
  obtain rfl : t = 300000000 := ht
  unfold Core.calibrationDue Core.failedLately
  rw [h.defs]
  show (List.filter _ [0]).foldl _ none = some 0
  rw [List.filter_singleton, h.idle.1, h.idle.2.2, hlast, h.cfg]
  rfl

theorem Spins.bestTriggered (h : Spins c) (score : ℕ → ℚ) : c.bestTriggered loopAt score = none := by
  unfold Core.bestTriggered
  rw [h.defs, h.queues.2.2]
  rfl

/-- One request is needed, for the second leg. -/
theorem Spins.need (h : Spins c) : c.requestsFor plainRequests 0 loopAt + c.owed = 1 := by
  have howed : c.owed = 0 := by
    unfold Core.owed
    rw [h.waiting.2]
    rfl
  obtain ⟨⟨first, obs, mids⟩, hfirst, hval⟩ := Option.map_eq_some_iff.mp h.held.1
  obtain ⟨rfl, rfl⟩ : first = builtLeg 5 0 ∧ obs = .dexes ["pool"] := Prod.mk.inj hval
  have hcached : (c.cached (1, 2, 1000) loopAt).isSome = true := by
    have hyoung : loopAt - (builtLeg 5 0).sent < c.ttl (.dexes ["pool"]) := by
      show loopAt - 0 < c.cfg.legTtl
      rw [h.cfg]
      decide
    unfold Core.cached
    rw [hfirst, Option.bind_some, if_pos hyoung]
    rfl
  unfold Core.requestsFor Core.route
  rw [howed, h.defs]
  show 2 - (if ((c.cached (1, 2, 1000) loopAt).isSome || _) = true then 1 else 0) + 0 = 1
  rw [hcached]
  rfl

/-- **The loop spins**: the job is a repeat, and the route as due as before. -/
theorem Spins.next (h : Spins c) (hb : admission b loopAt 3 1 = (none, b)) :
    ∃ d, c.next plainRequests loopAt (clockAt loopAt) b = (d, b, .wait (some loopAt)) ∧ Spins d := by
  obtain ⟨hready, hcont, htriggered⟩ := h.queues
  obtain ⟨j, hj, hroute, hlegs, htrigger⟩ : ∃ j, (c.startJob 0 .background loopAt).1.jobs.lookup c.nextJob = some j ∧
      j.route = 0 ∧ j.legs = [] ∧ j.trigger = none := ⟨_, AList.lookup_insert _, rfl, rfl, h.idle.2.1⟩
  obtain ⟨jobs, j', hadv, hj', hothers, hroute', hsent⟩ := @roundTrip_served (c.startJob 0 .background loopAt).1 c.nextJob j
    h.cfg h.defs hready h.held hj hroute hlegs htrigger
  have hrep : ({ (c.startJob 0 .background loopAt).1 with jobs, ready := [c.nextJob] } : Core ℚ (ℕ × ℕ × ℕ)).repeats j' =
      true := by
    refine decide_eq_true ?_
    rw [hsent, hroute']
    exact h.decided.2.symm
  have hfull : decide (c.cfg.maxInFlight ≤ c.inflight.entries.length) = false := by
    rw [h.cfg, h.waiting.1]
    rfl
  have hnext : c.next plainRequests loopAt (clockAt loopAt) b = c.nextStart plainRequests loopAt (clockAt loopAt) b := by
    unfold Core.next
    rw [popReady_empty hready]
    simp only [hfull, hcont]
    rfl
  have hstart : c.nextStart plainRequests loopAt (clockAt loopAt) b =
      c.startOn plainRequests 0 .background 3 loopAt (clockAt loopAt) b := by
    have hreserve : c.cfg.reserve = 3 := by
      rw [h.cfg]
      rfl
    have hneed : c.requestsFor plainRequests 0 (clockAt loopAt).requests + c.owed = 1 := h.need
    unfold Core.nextStart
    rw [h.bestTriggered, h.calibrationDue]
    simp only [Option.map_some, hreserve, hneed, hb]
  have hid : (c.startJob 0 .background loopAt).2 = c.nextJob := rfl
  refine ⟨{ ({ (c.startJob 0 .background loopAt).1 with jobs, ready := [c.nextJob] } : Core ℚ (ℕ × ℕ × ℕ)).suppress
    c.nextJob j' with ready := [] }, ?_, ?_⟩
  · rw [hnext, hstart]
    unfold Core.startOn
    simp only [hid, hadv]
    rw [popReady_single rfl hj', if_pos hrep]
  · have hstate : Function.update (c.startJob 0 .background loopAt).1.state j'.route
        { (c.startJob 0 .background loopAt).1.state j'.route with job := none, trigger := none } 0 =
        { c.state 0 with job := none, trigger := none } := by
      rw [hroute', Function.update_self]
      show { Function.update c.state 0 { c.state 0 with job := some c.nextJob } 0 with job := none, trigger := none } = _
      rw [Function.update_self]
    have hjobs : jobs.erase c.nextJob = c.jobs.erase c.nextJob := hothers.trans (erase_insert _ _ _)
    refine ⟨h.cfg, h.defs, ⟨rfl, hcont, ?_⟩, ⟨h.waiting.1, ?_⟩, ?_, ?_, h.held⟩
    · show (c.triggered.erase 0).erase j'.route = ∅
      rw [htriggered]
      rfl
    · show (jobs.erase c.nextJob).entries = []
      rw [hjobs]
      show List.kerase c.nextJob c.jobs.entries = []
      rw [h.waiting.2]
      rfl
    · unfold Core.suppress
      rw [Core.setState_state, hstate]
      exact ⟨rfl, rfl, h.idle.2.2⟩
    · unfold Core.suppress
      rw [Core.setState_state, hstate]
      exact h.decided

end Spinning

end Router
end MobiusSearcher
