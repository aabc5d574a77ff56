/-
# The router's scheduling

What `Core` does with jobs in `crates/execution/src/router.rs`: `advance` moves
one job as far as cached and in-flight quotes go, `next` chooses what the
shell does now, `onLeg` hands an answer to the jobs waiting for it, and
`takeReady` and `onDecided` pass a finished job through pricing.

What a call reads besides its arguments is in `Reads`: the clock at each look
into the cache, and the scores of the triggered routes.

Key definitions: `Core.advance`, `Core.next`, `Core.onLeg`, `Core.takeReady`,
`Core.onDecided`.
-/
import MobiusSearcher.Router.Core

namespace MobiusSearcher
namespace Router

open Keyed FloatOps

/-- What a call of `next` reads from outside. -/
structure Reads (F : Type*) where
  /-- The clock at the two looks into the cache for a job's leg. -/
  leg : ℕ → ℕ → Instant × Instant
  /-- The clock at the look into the cache for a new route's first leg. -/
  requests : Instant
  score : ℕ → F

/-- What the async shell should do next. -/
inductive Step (ρ κ : Type*)
  /-- Send this request. -/
  | dispatch (key : κ) (req : ρ) (index job : ℕ)
  /-- This job has all its legs: price it. -/
  | finish (job : ℕ)
  /-- Nothing to send before this instant, or wait for events. -/
  | wait (at_ : Option Instant)

/-- A finished job handed to pricing. -/
structure ReadyJob (F : Type*) where
  route : ℕ
  legs : List BuiltLeg
  obs : List Observes
  picked : Instant
  trigger : Option Instant
  inputs : Inputs F
  dispatched : Instant

def Job.toReady {F : Type*} (j : Job F) : ReadyJob F :=
  ⟨j.route, j.legs, j.obs, j.picked, j.trigger, j.inputs, j.dispatched⟩

/-- A cached leg goes to the job. -/
def Job.pushCached {F : Type*} (j : Job F) (leg : BuiltLeg) (obs : Observes) (now : Instant) : Job F :=
  { j with
    dispatched := if j.legs.isEmpty then leg.sent else j.dispatched
    legs := j.legs ++ [leg]
    obs := j.obs ++ [obs]
    prevReceived := some now }

/-- Whether the window pays for `need` requests now; when not, the time it may. -/
def admission (budget : WindowLimiter) (now : Instant) (reserve need : ℕ) : Option Instant × WindowLimiter :=
  if need = 0 then (none, budget)
  else
    let (free, budget) := budget.available now reserve
    if free < need then
      let (t, budget) := budget.nextSlotN now reserve need
      (some t, budget)
    else (none, budget)

variable {F : Type*} [FloatOps F] {ρ κ : Type*} [DecidableEq κ]

namespace Core

variable (q : Requests ρ κ) (c : Core F κ)

/-- A new job on route `r`, and the router with it. -/
def startJob (r : ℕ) (cls : Class) (now : Instant) : Core F κ × ℕ :=
  let job : Job F :=
    { route := r, legs := [], obs := [], picked := now, trigger := (c.state r).trigger, cls
      inputs := c.inputs r now, dispatched := now, prevReceived := none }
  ({ c.setState r { c.state r with job := some c.nextJob } with
    jobs := c.jobs.insert c.nextJob job
    nextJob := c.nextJob + 1
    triggered := c.triggered.erase r }, c.nextJob)

/-- Request for the job's next leg. -/
def nextReq (job : ℕ) : Option (ℕ × ρ) :=
  (c.jobs.lookup job).bind fun j =>
    let plan := (c.route j.route).plan
    plan.legs[j.legs.length]?.map fun spec =>
      (j.legs.length, q.makeReq spec (match j.legs.getLast? with
        | none => plan.amount
        | some l => l.leg.outAmount))

/-- The legs the job still needs. -/
def legsLeft (job : ℕ) : ℕ :=
  match c.jobs.lookup job with
  | none => 0
  | some j => (c.route j.route).plan.legs.length - j.legs.length

/-- The cached quote of `key`, when it is young and shows the change. -/
def usable (key : κ) (trigger : Option Instant) (now : Instant) (clock : Instant × Instant) : Option (Cached F) :=
  (c.cache key).filter fun e =>
    (c.cached key clock.1).isSome && c.reflects e.leg.sent e.obs e.mids trigger now && (c.cached key clock.2).isSome

/-- Advance `job` without spending budget where possible; returns the request
still to be sent, if any. The fuel is the legs the job still needs: each round
but the last gives it one. -/
def advanceLoop (job : ℕ) (now : Instant) (reads : Reads F) : ℕ → Core F κ → Core F κ × Option (κ × ℕ × ρ)
  | fuel, c =>
    match c.nextReq q job, c.jobs.lookup job with
    | some (index, req), some j =>
      let key := q.key req
      match c.usable key j.trigger now (reads.leg job index) with
      | some e =>
        match fuel with
        | 0 => (c, none)
        | fuel + 1 =>
          advanceLoop job now reads fuel { c with jobs := c.jobs.insert job (j.pushCached e.leg e.obs now) }
      | none =>
        match c.inflight.lookup key with
        | some f =>
          if c.reflects f.sent f.obs f.mids j.trigger now then
            ({ c with inflight := c.inflight.insert key { f with jobs := f.jobs ++ [job] } }, none)
          else
            -- sent before this job's trigger: its answer cannot show the change
            ({ c with blockedOn := c.blockedOn.insert key ((c.blockedOn.lookup key).getD [] ++ [job]) }, none)
        | none => (c, some (key, index, req))
    | _, _ => ({ c with ready := c.ready ++ [job] }, none)

def advance (job : ℕ) (now : Instant) (reads : Reads F) : Core F κ × Option (κ × ℕ × ρ) :=
  advanceLoop q job now reads (c.legsLeft job) c

/-- A job whose quotes are exactly the ones its route was last priced from
carries no new information. -/
def repeats (j : Job F) : Bool := j.legs.map BuiltLeg.sent = (c.state j.route).lastLegs

/-- Drop a job that repeats the last decision. -/
def suppress (job : ℕ) (j : Job F) : Core F κ :=
  { c.setState j.route { c.state j.route with job := none, trigger := none } with
    jobs := c.jobs.erase job
    triggered := c.triggered.erase j.route }

/-- Next finished job worth pricing, of the queue `ready`. -/
def popReadyFrom : List ℕ → Core F κ → Core F κ × Option ℕ
  | [], c => ({ c with ready := [] }, none)
  | job :: ready, c =>
    match c.jobs.lookup job with
    | none => popReadyFrom ready c
    | some j => if c.repeats j then popReadyFrom ready (c.suppress job j) else ({ c with ready }, some job)

def popReady : Core F κ × Option ℕ := popReadyFrom c.ready c

/-- The job's request goes out. -/
def dispatch (job : ℕ) (key : κ) (index : ℕ) (req : ρ) (now : Instant) : Core F κ × Step ρ κ :=
  match c.jobs.lookup job with
  | none => (c, .wait none)
  | some j =>
    let obs := (c.route j.route).obs.getD index .unobservable
    ({ c with
      jobs := if index = 0 then c.jobs.insert job { j with dispatched := now } else c.jobs
      inflight := c.inflight.insert key ⟨[job], obs, c.midsFor obs now, index, now⟩ },
      .dispatch key req index job)

/-- Budget slots still owed to routes in progress. -/
def owed : ℕ :=
  (c.jobs.entries.map fun e =>
    let left := (c.route e.2.route).plan.legs.length - e.2.legs.length
    let waiting := if c.inflight.entries.any fun f => e.1 ∈ f.2.jobs then 1 else 0
    left - min waiting left).sum

/-- Requests a new job on `r` would need: its first leg may be reusable. -/
def requestsFor (r : ℕ) (clock : Instant) : ℕ :=
  let plan := (c.route r).plan
  let leg0 := plan.legs.head?.map fun spec => q.key (q.makeReq spec plan.amount)
  let reused := leg0.any fun k => (c.cached k clock).isSome || (c.inflight.lookup k).isSome
  plan.legs.length - (if reused then 1 else 0)

def abandon (job : ℕ) : Core F κ :=
  let c := { c with blockedOn := mapValues (List.filter (· ≠ job)) c.blockedOn }
  let c := match c.jobs.lookup job with
    | none => c
    | some j =>
      { c.setState j.route { c.state j.route with job := none } with
        jobs := c.jobs.erase job
        triggered := if (c.state j.route).trigger.isSome then insert j.route c.triggered else c.triggered }
  { c with continuations := c.continuations.filter (· ≠ job) }

/-- The route failed within the last seconds. -/
def failedLately (r : ℕ) (now : Instant) : Bool :=
  match (c.state r).lastFailure with
  | some t => now - t < retryAfterFailure
  | none => false

/-- The triggered route with the best score. -/
def bestTriggered (now : Instant) (score : ℕ → F) : Option ℕ :=
  (List.range c.defs.length).foldl (fun best r =>
    if r ∈ c.triggered && (c.state r).job.isNone && !c.failedLately r now then
      match best with
      | none => some r
      | some b => if lt (score b) (score r) then some r else some b
    else best) none

/-- The route longest without a decision, if it is due for calibration. -/
def calibrationDue (now : Instant) : Option ℕ :=
  let due := (List.range c.defs.length).filter fun r =>
    (c.state r).job.isNone && !c.failedLately r now &&
      match (c.state r).last with
      | none => true
      | some (t, _) => c.cfg.floor ≤ now - t
  due.foldl (fun best r =>
    match best with
    | none => some r
    | some b =>
      match (c.state b).last, (c.state r).last with
      | some _, none => some r
      | some (t, _), some (u, _) => if u < t then some r else some b
      | _, _ => some b) none

/-- When calibration, or a retry after a failure, next becomes due. -/
def nextDeadline (now : Instant) : Option Instant :=
  (((List.range c.defs.length).filter fun r => (c.state r).job.isNone).map fun r =>
    let due := match (c.state r).last with
      | some (t, _) => t + c.cfg.floor
      | none => now
    let retry := match (c.state r).lastFailure with
      | some t => t + retryAfterFailure
      | none => now
    max (max due retry) (now + 1000000)).min?

/-- Continue the started jobs, from the front of the queue; the fuel is its
length. What to do, or `none` when the queue is empty. -/
def nextContinuations (now : Instant) (reads : Reads F) (full : Bool) :
    ℕ → Core F κ → WindowLimiter → Core F κ × WindowLimiter × Option (Step ρ κ)
  | fuel + 1, c, budget =>
    match c.continuations with
    | [] => (c, budget, none)
    | job :: rest =>
      match c.advance q job now reads with
      | (c, none) =>
        match ({ c with continuations := rest } : Core F κ).popReady with
        | (c, some j) => (c, budget, some (.finish j))
        | (c, none) => nextContinuations now reads full fuel c budget
      | (c, some (key, index, req)) =>
        if full then (c, budget, some (.wait none))
        else
          match budget.tryAcquire now 0 with
          | (.ok _, budget) =>
            let (c, step) := ({ c with continuations := rest } : Core F κ).dispatch job key index req now
            (c, budget, some step)
          | (.error wait, budget) => (c, budget, some (.wait (some (now + wait))))
  | 0, c, budget => (c, budget, none)

/-- Start a job on `route` and advance it. -/
def startOn (route : ℕ) (cls : Class) (reserve : ℕ) (now : Instant) (reads : Reads F) (budget : WindowLimiter) :
    Core F κ × WindowLimiter × Step ρ κ :=
  let (c, job) := c.startJob route cls now
  match c.advance q job now reads with
  | (c, none) =>
    match c.popReady with
    | (c, some j) => (c, budget, .finish j)
    -- collapsed onto an in-flight request: look for more work
    | (c, none) => (c, budget, .wait (some now))
  | (c, some (key, index, req)) =>
    match budget.tryAcquire now reserve with
    | (.ok _, budget) =>
      let (c, step) := c.dispatch job key index req now
      (c, budget, step)
    -- a cached leg expired between the checks: undo, nothing spent
    | (.error wait, budget) => (c.abandon job, budget, .wait (some (now + wait)))

/-- Start on the best triggered route, or on one due for calibration, when the
budget pays for its requests and those still owed to running routes. -/
def nextStart (now : Instant) (reads : Reads F) (budget : WindowLimiter) : Core F κ × WindowLimiter × Step ρ κ :=
  let choice : Option (ℕ × Class × ℕ) := match c.bestTriggered now reads.score with
    | some r => some (r, .urgent, 0)
    | none => (c.calibrationDue now).map fun r => (r, .background, c.cfg.reserve)
  match choice with
  | none => (c, budget, .wait (c.nextDeadline now))
  | some (route, cls, reserve) =>
    match admission budget now reserve (c.requestsFor q route reads.requests + c.owed) with
    | (some t, budget) => (c, budget, .wait (some t))
    | (none, budget) => c.startOn q route cls reserve now reads budget

/-- Next thing to do: finished jobs, continuations, the best triggered route,
calibration. -/
def next (now : Instant) (reads : Reads F) (budget : WindowLimiter) : Core F κ × WindowLimiter × Step ρ κ :=
  match c.popReady with
  | (c, some j) => (c, budget, .finish j)
  | (c, none) =>
    let full : Bool := c.cfg.maxInFlight ≤ c.inflight.entries.length
    match nextContinuations q now reads full c.continuations.length c budget with
    | (c, budget, some step) => (c, budget, step)
    | (c, budget, none) => if full then (c, budget, .wait none) else c.nextStart q now reads budget

/-! ### Answers -/

/-- A leg goes to a job waiting on its request. -/
def deliver (leg : BuiltLeg) (obs : Observes) (index : ℕ) (now : Instant) (job : ℕ) : Core F κ :=
  match c.jobs.lookup job with
  | none => c
  | some j =>
    if j.legs.length ≠ index then c
    else
      let j := { j with legs := j.legs ++ [leg], obs := j.obs ++ [obs], prevReceived := some now }
      let c := { c with jobs := c.jobs.insert job j }
      if j.legs.length = (c.route j.route).plan.legs.length then { c with ready := c.ready ++ [job] }
      else { c with continuations := c.continuations ++ [job] }

/-- A job whose request failed is dropped. -/
def fail (rateLimited : Bool) (now : Instant) (job : ℕ) : Core F κ :=
  match c.jobs.lookup job with
  | none => c
  | some j =>
    let st := { c.state j.route with job := none, lastFailure := some now }
    if rateLimited && st.trigger.isSome then
      { c.setState j.route st with jobs := c.jobs.erase job, triggered := insert j.route c.triggered }
    else { c.setState j.route { st with trigger := none } with jobs := c.jobs.erase job }

/-- A leg request finished: the leg, or whether the error is a rate limit. -/
def onLeg (key : κ) (result : Except Bool BuiltLeg) (now : Instant) : Core F κ :=
  match c.inflight.lookup key with
  | none => c
  | some f =>
    -- jobs that needed a newer answer for this key retry now
    let c := { c with
      inflight := c.inflight.erase key
      blockedOn := c.blockedOn.erase key
      continuations := c.continuations ++ (c.blockedOn.lookup key).getD [] }
    match result with
    | .ok leg =>
      let c := { c with cache := Function.update c.cache key (some ⟨leg, f.obs, f.mids⟩) }
      f.jobs.foldl (fun c job => c.deliver leg f.obs f.index now job) c
    | .error rateLimited => f.jobs.foldl (fun c job => c.fail rateLimited now job) c

/-! ### Pricing -/

/-- Hand a complete job to pricing. -/
def takeReady (job : ℕ) : Core F κ × Option (ReadyJob F) :=
  match c.jobs.lookup job with
  | none => (c, none)
  | some j =>
    ({ c.setState j.route { c.state j.route with lastLegs := j.legs.map BuiltLeg.sent } with
      jobs := c.jobs.erase job }, some j.toReady)

/-- What a decision teaches about the route's edge over the on-chain gap. -/
def learn (st : RouteState F) (grossBp : F) (inputs : Inputs F) : RouteState F :=
  match inputs.gapBp with
  | none => st
  | some gap =>
    let sample := grossBp - gap
    { st with
      offset := some (match st.offset with
        | none => (sample, lit 16)
        | some (m, v) => ((lit 1 - ewma) * m + ewma * sample, (lit 1 - ewma) * v + ewma * (sample - m) * (sample - m)))
      samples := st.samples + 1 }

/-- The route after a decision, but for its trigger. -/
def decided (st : RouteState F) (grossBp netBp : F) (inputs : Inputs F) (now : Instant) : RouteState F :=
  { learn { st with job := none, last := some (now, grossBp, netBp) } grossBp inputs with reference := some inputs }

/-- A trigger no later than the job's start. -/
def answeredBy (trigger : Option Instant) (started : Instant) : Bool :=
  match trigger with
  | some t => t ≤ started
  | none => true

/-- The market may already differ from the reference. -/
def recheck (r : ℕ) (now : Instant) : Core F κ :=
  if le c.cfg.changeBp (c.changeBp r now) then
    { c.setState r { c.state r with trigger := some now } with triggered := insert r c.triggered }
  else c

/-- Learn from a priced decision and move the route's reference to the inputs
the job started from. A trigger older than the job's start is answered by
it; changes that arrived while the job ran are still news. -/
def onDecided (route : ℕ) (grossBp netBp : F) (inputs : Inputs F) (started now : Instant) : Core F κ :=
  let st := decided (c.state route) grossBp netBp inputs now
  if answeredBy st.trigger started then (c.setState route { st with trigger := none }).recheck route now
  else { c.setState route st with triggered := insert route c.triggered }

end Core

end Router
end MobiusSearcher
