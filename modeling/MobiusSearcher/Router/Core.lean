/-
# The router's state and its market

The data of `crates/execution/src/router.rs`: `Core`, its routes, jobs,
requests in flight and cached legs; what the market looks like to a route
(`inputs`, `changeBp`), what a tick changes (`touch`, `onTick`), and when a
quote shows the change a job was started for (`reflects`).

Prices and scores are floats of any arithmetic. A `HashMap` is an association
list, read in its order; where only lookups are made it is a function. What a
job carries for display and latency books only is left out.

Key definitions: `Core`, `Core.touch`, `Core.onTick`, `Core.reflects`.
-/
import MobiusSearcher.Core.Costs
import MobiusSearcher.Telemetry.Window
import MobiusSearcher.Lib.Keyed
import MobiusSearcher.Lib.FloatOps

namespace MobiusSearcher
namespace Router

open Keyed FloatOps

structure RouterConfig (F : Type*) where
  /-- Requests in flight at once. -/
  maxInFlight : ℕ
  /-- Budget slots background calibration may not use. -/
  reserve : ℕ
  /-- A move of a route's input smaller than this is not news (bp). -/
  changeBp : F
  legTtl : ℕ
  unobservableTtl : ℕ
  /-- Every route is re-quoted at least this often. -/
  floor : ℕ

inductive Class
  /-- Next leg of a route whose first quote is already aging. -/
  | continuation
  /-- A route whose input changed. -/
  | urgent
  /-- Calibration of a route that has not been quoted for `floor`. -/
  | background
  deriving DecidableEq, Repr

def retryAfterFailure : ℕ := 5000000000
/-- Pool mids older than this are not used as signal. -/
def midFresh : ℕ := 20000000000

/-- Which watched pools a quote reflects. -/
inductive Observes
  /-- Dex-constrained quote on a watched pair. -/
  | dexes (d : List String)
  /-- Best route on the watched pair: reflects every watched pool. -/
  | allPools
  | unobservable
  deriving DecidableEq, Repr

inductive DexFilter
  | any
  | only (d : List String)
  | exclude (d : List String)
  deriving DecidableEq, Repr

inductive RoutingMode
  | normal
  | fast
  deriving DecidableEq, Repr

structure LegSpec where
  input : Address
  output : Address
  dexFilter : DexFilter
  mode : RoutingMode
  maxAccounts : Option ℕ
  deriving DecidableEq, Repr

/-- A cycle to evaluate: each leg's input is the previous leg's output. -/
structure CandidatePlan where
  amount : ℕ
  legs : List LegSpec
  deriving DecidableEq, Repr, Inhabited

/-- A quoted leg, with the time its request was sent. -/
structure BuiltLeg where
  leg : Leg
  sent : Instant
  deriving DecidableEq, Repr

/-- The `/build` request of a leg at an amount, and its identity: two equal
keys ask the same question. -/
structure Requests (ρ κ : Type*) where
  makeReq : LegSpec → ℕ → ρ
  key : ρ → κ

/-- Market inputs a route's prediction was made from. -/
structure Inputs (F : Type*) where
  gapBp : Option F
  /-- Mean of the fresh watched pool mids. -/
  mean : Option F
  pools : List (Option F)
  oracles : List (Option F)

structure RouteDef where
  plan : CandidatePlan
  obs : List Observes
  /-- Dex of the first leg and dex of the last. -/
  signal : Option (String × String)
  /-- Watched pools any leg reads. -/
  pools : List String
  /-- Reads the whole watched market. -/
  anyPool : Bool
  oracles : List String
  deriving Inhabited

structure RouteState (F : Type*) where
  /-- Decided at, gross bp, net bp. -/
  last : Option (Instant × F × F)
  /-- Inputs at the last decision's dispatch. -/
  reference : Option (Inputs F)
  offset : Option (F × F)
  samples : ℕ
  /-- First relevant change since the last decision. -/
  trigger : Option Instant
  job : Option ℕ
  lastFailure : Option Instant
  /-- Send times of the quotes the last decision was priced from. -/
  lastLegs : List Instant

def RouteState.default {F : Type*} : RouteState F := ⟨none, none, none, 0, none, none, none, []⟩

structure Job (F : Type*) where
  route : ℕ
  legs : List BuiltLeg
  obs : List Observes
  picked : Instant
  trigger : Option Instant
  cls : Class
  inputs : Inputs F
  dispatched : Instant
  prevReceived : Option Instant

/-- Watched pool mids. -/
abbrev Mids (F : Type*) := List (String × F)

structure Cached (F : Type*) where
  leg : BuiltLeg
  obs : Observes
  /-- Watched pool mids when it was sent. -/
  mids : Mids F

structure InFlight (F : Type*) where
  jobs : List ℕ
  obs : Observes
  mids : Mids F
  index : ℕ
  sent : Instant

structure Core (F κ : Type*) where
  cfg : RouterConfig F
  defs : List RouteDef
  state : ℕ → RouteState F
  mids : Map String (F × Instant)
  oracles : String → Option F
  lastMean : Option (F × Instant)
  volRate : F
  triggered : Finset ℕ
  jobs : Map ℕ (Job F)
  nextJob : ℕ
  continuations : List ℕ
  ready : List ℕ
  inflight : Map κ (InFlight F)
  /-- Jobs that need a key in flight from before their trigger. -/
  blockedOn : Map κ (List ℕ)
  cache : κ → Option (Cached F)

inductive HotTick (F : Type*)
  | pool (dex : String) (mid : F) (received : Instant)
  | oracle (symbol : String) (price : F) (received : Instant)

def HotTick.received {F : Type*} : HotTick F → Instant
  | .pool _ _ t => t
  | .oracle _ _ t => t

/-- A route, with what its legs observe. -/
def RouteDef.ofPlan (observes : LegSpec → Observes) (oracleOf : Address → Option String)
    (plan : CandidatePlan) : RouteDef :=
  let obs := plan.legs.map observes
  let dexOf : Observes → Option String
    | .dexes [d] => some d
    | _ => none
  { plan
    obs
    signal := match obs.head?.bind dexOf, obs.getLast?.bind dexOf with
      | some a, some b => if obs.length = 2 ∧ a ≠ b then some (a, b) else none
      | _, _ => none
    pools := (obs.flatMap fun
      | .dexes d => d
      | _ => []).reverse.dedup.reverse
    -- price moves are no news for a round trip over the best route both ways
    anyPool := !(obs.all fun o => o = .allPools) && obs.any fun
      | .dexes _ => false
      | _ => true
    oracles := (plan.legs.flatMap fun l => [l.input, l.output].filterMap oracleOf).reverse.dedup.reverse }

variable {F : Type*} [FloatOps F] {ρ κ : Type*} [DecidableEq κ]

def Core.new (cfg : RouterConfig F) (plans : List CandidatePlan) (observes : LegSpec → Observes)
    (oracleOf : Address → Option String) : Core F κ where
  cfg
  defs := plans.map (.ofPlan observes oracleOf)
  state := fun _ => .default
  mids := ∅
  oracles := fun _ => none
  lastMean := none
  volRate := lit 0
  triggered := ∅
  jobs := ∅
  nextJob := 1
  continuations := []
  ready := []
  inflight := ∅
  blockedOn := ∅
  cache := fun _ => none

def movedBp (now then_ : Option F) : F :=
  match now, then_ with
  | some a, some b => if isZero b then lit 0 else abs (a / b - lit 1) * lit 10000
  | _, _ => lit 0

/-- A pool that moved less than this since a quote was sent counts as unchanged. -/
def unchangedBp : F := lit (1 / 10)

def ewma : F := lit (2 / 10)

namespace Core

variable (c : Core F κ)

/-- The definition of route `r`. -/
def route (r : ℕ) : RouteDef := c.defs.getD r default

def setState (r : ℕ) (st : RouteState F) : Core F κ := { c with state := Function.update c.state r st }

omit [FloatOps F] [DecidableEq κ] in
@[simp] theorem setState_state (r : ℕ) (st : RouteState F) :
    (c.setState r st).state = Function.update c.state r st := rfl

omit [FloatOps F] [DecidableEq κ] in
@[simp] theorem setState_triggered (r : ℕ) (st : RouteState F) : (c.setState r st).triggered = c.triggered := rfl

/-! ### What the market looks like -/

def freshMid (dex : String) (now : Instant) : Option F :=
  ((c.mids.lookup dex).filter fun m => now - m.2 < midFresh).map Prod.fst

/-- The mids of the pools heard of lately. -/
def freshMids (now : Instant) : List F :=
  (c.mids.entries.filter fun e => now - e.2.2 < midFresh).map fun e => e.2.1

def mean (now : Instant) : Option F :=
  match c.freshMids now with
  | [] => none
  | v => some (v.foldl (· + ·) (lit 0) / lit v.length)

def inputs (r : ℕ) (now : Instant) : Inputs F where
  gapBp := (c.route r).signal.bind fun (a, b) =>
    (c.freshMid a now).bind fun ma => (c.freshMid b now).map fun mb => (ma - mb) / mb * lit 10000
  mean := c.mean now
  pools := (c.route r).pools.map fun p => c.freshMid p now
  oracles := (c.route r).oracles.map c.oracles

/-- Largest relevant move of route `r` from `reference`: of the gap when both
pools of a cross-dex route are watched, else of any input. -/
def changeFrom (r : ℕ) (reference : Inputs F) (now : Instant) : F :=
  let cur := c.inputs r now
  match cur.gapBp, reference.gapBp with
  | some g, some g₀ => abs (g - g₀)
  | _, _ =>
    let m := (cur.pools.zip reference.pools).foldl (fun m p => maximum m (movedBp p.1 p.2)) (lit 0)
    let m := if (c.route r).anyPool then maximum m (movedBp cur.mean reference.mean) else m
    (cur.oracles.zip reference.oracles).foldl (fun m p => maximum m (movedBp p.1 p.2)) m

/-- Largest relevant move since the route's reference. -/
def changeBp (r : ℕ) (now : Instant) : F :=
  match (c.state r).reference with
  | none => infinity
  | some reference => c.changeFrom r reference now

/-! ### A tick -/

/-- Re-check a route that reads a changed input. -/
def touchOne (at_ now : Instant) (r : ℕ) : Core F κ :=
  let st := c.state r
  -- never decided: calibration handles it
  if st.reference.isNone then c
  else if le c.cfg.changeBp (c.changeBp r now) then
    { c.setState r { st with trigger := st.trigger.or (some at_) } with triggered := insert r c.triggered }
  else if st.trigger.isSome && st.job.isNone then
    -- reverted before we spent anything on it
    { c.setState r { st with trigger := none } with triggered := c.triggered.erase r }
  else c

def touch (routes : List ℕ) (at_ now : Instant) : Core F κ :=
  routes.foldl (fun c r => c.touchOne at_ now r) c

/-- The running mean and the volatility after a pool's mid. -/
def observeMean (received now : Instant) : Core F κ :=
  match c.mean now with
  | none => c
  | some m =>
    let vol := match c.lastMean with
      | none => c.volRate
      | some (m₀, t₀) =>
        let dt := maximum (ofNanos (received - t₀)) (lit (5 / 100))
        let bp := movedBp (some m) (some m₀)
        (lit 1 - ewma) * c.volRate + ewma * (bp * bp / dt)
    { c with lastMean := some (m, received), volRate := vol }

/-- Drop the cached legs that read `dex` and were sent at another price. -/
def invalidate (dex : String) (mid : F) : Core F κ :=
  { c with cache := fun k => (c.cache k).filter fun e =>
      e.mids.all fun (d, m₀) => d ≠ dex || lt (movedBp (some mid) (some m₀)) c.cfg.changeBp }

/-- Apply one market tick: only the routes that read this input are re-checked. -/
def onTick (t : HotTick F) (now : Instant) : Core F κ :=
  match t with
  | .pool dex mid received =>
    let c := { c with mids := c.mids.insert dex (mid, received) }
    let c := (c.observeMean received now).invalidate dex mid
    let routes := (List.range c.defs.length).filter fun r => dex ∈ (c.route r).pools || (c.route r).anyPool
    c.touch routes received now
  | .oracle symbol price received =>
    let c := { c with oracles := Function.update c.oracles symbol (some price) }
    let routes := (List.range c.defs.length).filter fun r => symbol ∈ (c.route r).oracles
    c.touch routes received now

/-! ### Cached legs and the change a quote shows -/

/-- Longest reuse of a leg: of one nothing observes, about the time the
market takes to move 1 bp. -/
def ttl : Observes → ℕ
  | .unobservable =>
    let bpPerS := sqrt c.volRate
    let t := if lt (lit 0) bpPerS then toNanos (lit 1 / bpPerS) else c.cfg.unobservableTtl
    max 300000000 (min t c.cfg.unobservableTtl)
  | _ => c.cfg.legTtl

/-- The cached leg of `key`, when it is young enough at the reading `clock`. -/
def cached (key : κ) (clock : Instant) : Option BuiltLeg :=
  (c.cache key).bind fun e => if clock - e.leg.sent < c.ttl e.obs then some e.leg else none

/-- How many pools a quote must have seen; `none` when nothing observes it. -/
def covered (obs : Observes) (now : Instant) : Option ℕ :=
  match obs with
  | .unobservable => none
  | .dexes d => some d.length
  | .allPools => some (c.freshMids now).length

/-- The pools a quote saw when it was sent are all it observes, and none has moved since. -/
def unmoved (obs : Observes) (midsAtSend : Mids F) (now : Instant) : Bool :=
  c.covered obs now = some midsAtSend.length &&
    midsAtSend.all fun (d, m₀) =>
      match c.freshMid d now with
      | some m => lt (movedBp (some m) (some m₀)) unchangedBp
      | none => false

/-- Does a quote sent at `sent` reflect the market this job must see? No
trigger: yes. Otherwise it must be newer than the trigger, or read only
watched pools that have not moved since it was sent. -/
def reflects (sent : Instant) (obs : Observes) (midsAtSend : Mids F) (trigger : Option Instant)
    (now : Instant) : Bool :=
  match trigger with
  | none => true
  | some t => t ≤ sent || c.unmoved obs midsAtSend now

/-- The fresh mids of the pools a quote reflects. -/
def midsFor (obs : Observes) (now : Instant) : Mids F :=
  let dexes := match obs with
    | .dexes d => d
    | .allPools => c.mids.entries.map Sigma.fst
    | .unobservable => []
  dexes.filterMap fun d => (c.freshMid d now).map fun m => (d, m)

end Core

end Router
end MobiusSearcher
