/-
# The router in its shell

The scheduler task of `crates/execution/src/router.rs` (`run`) calls the router:
with each market tick, with each answer, when a job was priced, and for the
next thing to do. A job that `next` hands out is taken for pricing, and each
taken job is decided once. The order of the events is arbitrary.

Key definitions: `Sys`, `Event`, `Sys.step`.
Key theorem: `step_next`.
-/
import MobiusSearcher.Router.Moves

set_option linter.unusedSectionVars false

namespace MobiusSearcher
namespace Router

open Keyed Relation

/-- The router, its budget, the jobs `next` handed out and the jobs being priced. -/
structure Sys (F κ : Type*) where
  core : Core F κ
  budget : WindowLimiter
  handed : List ℕ
  taken : Map ℕ (ReadyJob F)

/-- What happens to the router. -/
inductive Event (F κ : Type*)
  | tick (t : HotTick F) (now : Instant)
  | next (now : Instant) (reads : Reads F)
  /-- A request answered: the leg, or whether the error is a rate limit. -/
  | leg (key : κ) (result : Except Bool BuiltLeg) (now : Instant)
  | takeReady (job : ℕ)
  | decided (job : ℕ) (grossBp netBp : F) (now : Instant)
  /-- Others use the limiter. -/
  | limiter (budget : WindowLimiter)

variable {F : Type*} [FloatOps F] {ρ κ : Type*} [DecidableEq κ]

/-- One event; `none` when the shell never raises it. -/
def Sys.step (q : Requests ρ κ) (s : Sys F κ) : Event F κ → Option (Sys F κ)
  | .tick t now => some { s with core := s.core.onTick t now }
  | .next now reads =>
    let (core, budget, step) := s.core.next q now reads s.budget
    some { s with
      core
      budget
      handed := match step with
        | .finish job => job :: s.handed
        | _ => s.handed }
  | .leg key result now => some { s with core := s.core.onLeg key result now }
  | .takeReady job =>
    if job ∈ s.handed then
      match s.core.takeReady job with
      | (core, some r) => some { s with core, handed := s.handed.erase job, taken := s.taken.insert job r }
      | (core, none) => some { s with core, handed := s.handed.erase job }
    else none
  | .decided job grossBp netBp now =>
    (s.taken.lookup job).map fun r =>
      { s with
        core := s.core.onDecided r.route grossBp netBp r.inputs r.picked now
        taken := s.taken.erase job }
  | .limiter budget => some { s with budget }

/-- The router as it starts. -/
def Sys.new (cfg : RouterConfig F) (plans : List CandidatePlan) (observes : LegSpec → Observes)
    (oracleOf : Address → Option String) (budget : WindowLimiter) : Sys F κ :=
  ⟨.new cfg plans observes oracleOf, budget, [], ∅⟩

variable {q : Requests ρ κ} {now : Instant}

/-- A call of `next` is moves; what it leaves in hand was handed out. -/
theorem step_next {s t : Sys F κ} {reads : Reads F} (hs : s.step q (.next now reads) = some t) :
    ∃ h, ReflTransGen (Move q now) (s.core, none) (t.core, h) ∧ t.handed = h.toList ++ s.handed ∧
      t.taken = s.taken := by
  have hc := @next_moves _ _ _ _ _ q now reads s.core s.budget
  simp only [Sys.step, Option.some.injEq] at hs
  rcases hn : s.core.next q now reads s.budget with ⟨c, budget, step⟩
  rw [hn] at hc hs
  subst hs
  cases step with
  | finish j => exact ⟨some j, hc, rfl, rfl⟩
  | dispatch => exact ⟨none, hc, rfl, rfl⟩
  | wait => exact ⟨none, hc, rfl, rfl⟩

end Router
end MobiusSearcher
