/-
# What a call of `next` does to the jobs, one move at a time

`next` is loops inside loops; what an invariant needs of it is which single
changes it is made of. A `Move` is one: a job leaves a queue for the hand,
takes a cached leg, joins a request in flight, is put back, started, dropped.
`next_moves` says that a call of `next` is a sequence of moves that starts and
ends with an empty hand, but for a job it hands out; an invariant then needs
one lemma a move.

Key definition: `Move`.
Key theorems: `advance_moves`, `next_moves`.
-/
import MobiusSearcher.Router.Schedule
import Mathlib.Logic.Relation

set_option linter.unusedSectionVars false

namespace MobiusSearcher
namespace Router

open Keyed FloatOps Relation

variable {F : Type*} [FloatOps F] {ρ κ : Type*} [DecidableEq κ]

/-- A quiet move: nothing but the queues and the legs of the job in hand change. -/
inductive Carry (q : Requests ρ κ) (now : Instant) : Core F κ × Option ℕ → Core F κ × Option ℕ → Prop
  | finish {c : Core F κ} {job : ℕ} {ready : List ℕ} {j : Job F} :
      c.ready = job :: ready → c.jobs.lookup job = some j →
      Carry q now (c, none) ({ c with ready }, some job)
  | pick {c : Core F κ} {job : ℕ} {rest : List ℕ} :
      c.continuations = job :: rest → Carry q now (c, none) ({ c with continuations := rest }, some job)
  | putBack {c : Core F κ} {job : ℕ} :
      Carry q now (c, some job) ({ c with continuations := job :: c.continuations }, none)
  | cacheLeg {c : Core F κ} {job index : ℕ} {req : ρ} {j : Job F} {e : Cached F} :
      c.jobs.lookup job = some j → c.nextReq q job = some (index, req) → c.cache (q.key req) = some e →
      c.reflects e.leg.sent e.obs e.mids j.trigger now = true →
      Carry q now (c, some job) ({ c with jobs := c.jobs.insert job (j.pushCached e.leg e.obs now) }, some job)
  | complete {c : Core F κ} {job : ℕ} :
      c.nextReq q job = none → Carry q now (c, some job) ({ c with ready := c.ready ++ [job] }, none)
  | coalesce {c : Core F κ} {job index : ℕ} {req : ρ} {j : Job F} {f : InFlight F} :
      c.jobs.lookup job = some j → c.nextReq q job = some (index, req) →
      c.inflight.lookup (q.key req) = some f → c.reflects f.sent f.obs f.mids j.trigger now = true →
      Carry q now (c, some job)
        ({ c with inflight := c.inflight.insert (q.key req) { f with jobs := f.jobs ++ [job] } }, none)
  | block {c : Core F κ} {job index : ℕ} {req : ρ} {j : Job F} {f : InFlight F} :
      c.jobs.lookup job = some j → c.nextReq q job = some (index, req) →
      c.inflight.lookup (q.key req) = some f → c.reflects f.sent f.obs f.mids j.trigger now = false →
      Carry q now (c, some job)
        ({ c with blockedOn :=
          c.blockedOn.insert (q.key req) ((c.blockedOn.lookup (q.key req)).getD [] ++ [job]) }, none)
  | dispatch {c : Core F κ} {job index : ℕ} {req : ρ} {j : Job F} :
      c.jobs.lookup job = some j → c.nextReq q job = some (index, req) →
      c.inflight.lookup (q.key req) = none →
      Carry q now (c, some job) ((c.dispatch job (q.key req) index req now).1, none)

/-- One change of the jobs. -/
inductive Move (q : Requests ρ κ) (now : Instant) : Core F κ × Option ℕ → Core F κ × Option ℕ → Prop
  | carry {s t : Core F κ × Option ℕ} : Carry q now s t → Move q now s t
  /-- A job that is gone leaves the ready queue. -/
  | skip {c : Core F κ} {h : Option ℕ} {job : ℕ} {ready : List ℕ} :
      c.ready = job :: ready → c.jobs.lookup job = none → Move q now (c, h) ({ c with ready }, h)
  | suppress {c : Core F κ} {h : Option ℕ} {job : ℕ} {ready : List ℕ} {j : Job F} :
      c.ready = job :: ready → c.jobs.lookup job = some j → c.repeats j = true →
      Move q now (c, h) ({ c.suppress job j with ready }, h)
  | start {c : Core F κ} {r : ℕ} {cls : Class} :
      (c.state r).job = none → (cls = .urgent → r ∈ c.triggered) → cls ≠ .continuation →
      Move q now (c, none) ((c.startJob r cls now).1, some (c.startJob r cls now).2)
  /-- The job just started is undone. -/
  | abandon {c : Core F κ} {job : ℕ} {j : Job F} :
      c.jobs.lookup job = some j → Move q now (c, some job) (c.abandon job, none)

variable {q : Requests ρ κ} {now : Instant}

theorem Carry.moves {s t : Core F κ × Option ℕ} (h : Carry q now s t) :
    ReflTransGen (Move q now) s t := ReflTransGen.single (.carry h)

/-! ### Advancing a job -/

theorem nextReq_index {c : Core F κ} {job index : ℕ} {req : ρ} {j : Job F} (hj : c.jobs.lookup job = some j)
    (h : c.nextReq q job = some (index, req)) :
    index = j.legs.length ∧ j.legs.length < (c.route j.route).plan.legs.length := by
  simp only [Core.nextReq, hj, Option.bind_some, Option.map_eq_some_iff, Prod.mk.injEq] at h
  obtain ⟨spec, hs, rfl, -⟩ := h
  exact ⟨rfl, (List.getElem?_eq_some_iff.mp hs).1⟩

theorem usable_some {c : Core F κ} {key : κ} {trigger : Option Instant} {clock : Instant × Instant} {e : Cached F}
    (h : c.usable key trigger now clock = some e) :
    c.cache key = some e ∧ c.reflects e.leg.sent e.obs e.mids trigger now = true := by
  simp only [Core.usable, Option.filter_eq_some_iff, Bool.and_eq_true] at h
  exact ⟨h.1, h.2.1.2⟩

/-- Taking a cached leg leaves one leg less to get. -/
theorem legsLeft_pushCached {c : Core F κ} {job index : ℕ} {req : ρ} {j : Job F} {e : Cached F}
    (hj : c.jobs.lookup job = some j) (h : c.nextReq q job = some (index, req)) :
    ({ c with jobs := c.jobs.insert job (j.pushCached e.leg e.obs now) } : Core F κ).legsLeft job + 1
      = c.legsLeft job := by
  obtain ⟨-, hlt⟩ := nextReq_index hj h
  simp only [Core.legsLeft, AList.lookup_insert, hj, Job.pushCached, List.length_append, List.length_singleton,
    Core.route] at hlt ⊢
  omega

/-- What a round of `advance` returns: the job was put somewhere, or is still
in hand with the request to be sent. -/
def Advanced (q : Requests ρ κ) (now : Instant) (job : ℕ) (s : Core F κ × Option ℕ) :
    Core F κ × Option (κ × ℕ × ρ) → Prop
  | (c, none) => ReflTransGen (Move q now) s (c, none)
  | (c, some (key, index, req)) => ReflTransGen (Move q now) s (c, some job) ∧
      c.nextReq q job = some (index, req) ∧ key = q.key req ∧ c.inflight.lookup key = none ∧
      (c.jobs.lookup job).isSome = true

theorem Advanced.after {job : ℕ} {s t : Core F κ × Option ℕ} {x : Core F κ × Option (κ × ℕ × ρ)}
    (ha : Advanced q now job t x) (h : ReflTransGen (Move q now) s t) : Advanced q now job s x := by
  rcases x with ⟨c, _ | ⟨key, index, req⟩⟩
  · exact h.trans ha
  · exact ⟨h.trans ha.1, ha.2⟩

/-- A job whose request is in flight waits for it, or for a newer one. -/
theorem advanced_inflight {c : Core F κ} {job index : ℕ} {req : ρ} {j : Job F} {f : InFlight F}
    (hj : c.jobs.lookup job = some j) (hr : c.nextReq q job = some (index, req))
    (hf : c.inflight.lookup (q.key req) = some f) :
    Advanced q now job (c, some job)
      (if c.reflects f.sent f.obs f.mids j.trigger now then
        ({ c with inflight := c.inflight.insert (q.key req) { f with jobs := f.jobs ++ [job] } }, none)
      else ({ c with blockedOn :=
        c.blockedOn.insert (q.key req) ((c.blockedOn.lookup (q.key req)).getD [] ++ [job]) }, none)) := by
  split
  · rename_i h
    exact (Carry.coalesce hj hr hf h).moves
  · rename_i h
    exact (Carry.block hj hr hf (Bool.not_eq_true _ ▸ h)).moves

/-- Where advancing a job leads. -/
theorem advanceLoop_moves {job : ℕ} {reads : Reads F} : ∀ {fuel : ℕ} {c : Core F κ}, c.legsLeft job ≤ fuel →
    Advanced q now job (c, some job) (Core.advanceLoop q job now reads fuel c) := by
  intro fuel
  induction fuel with
  | zero =>
    intro c hf
    unfold Core.advanceLoop
    cases hr : c.nextReq q job with
    | none => exact (Carry.complete hr).moves
    | some x =>
      obtain ⟨index, req⟩ := x
      cases hj : c.jobs.lookup job with
      | none => simp [Core.nextReq, hj] at hr
      | some j =>
        have hlt := (nextReq_index hj hr).2
        have hleft : c.legsLeft job = (c.route j.route).plan.legs.length - j.legs.length := by
          simp [Core.legsLeft, hj]
        omega
  | succ fuel ih =>
    intro c hf
    unfold Core.advanceLoop
    cases hr : c.nextReq q job with
    | none => exact (Carry.complete hr).moves
    | some x =>
      obtain ⟨index, req⟩ := x
      cases hj : c.jobs.lookup job with
      | none => simp [Core.nextReq, hj] at hr
      | some j =>
        simp only
        cases hu : c.usable (q.key req) j.trigger now (reads.leg job index) with
        | some e =>
          obtain ⟨hc, href⟩ := usable_some hu
          have hleft := @legsLeft_pushCached _ _ _ _ _ _ now _ _ _ _ _ e hj hr
          exact (ih (by omega)).after (Carry.cacheLeg hj hr hc href).moves
        | none =>
          cases hi : c.inflight.lookup (q.key req) with
          | some f => exact advanced_inflight hj hr hi
          | none => exact ⟨.refl, hr, rfl, hi, by simp [hj]⟩

theorem advance_moves {job : ℕ} {reads : Reads F} (c : Core F κ) :
    Advanced q now job (c, some job) (c.advance q job now reads) := advanceLoop_moves le_rfl

theorem continuations_nextReq {c : Core F κ} {l : List ℕ} {job : ℕ} :
    ({ c with continuations := l } : Core F κ).nextReq q job = c.nextReq q job := rfl

theorem continuations_usable {c : Core F κ} {l : List ℕ} {key : κ} {t : Option Instant} {clock : Instant × Instant} :
    ({ c with continuations := l } : Core F κ).usable key t now clock = c.usable key t now clock := rfl

theorem continuations_reflects {c : Core F κ} {l : List ℕ} {sent : Instant} {obs : Observes} {mids : Mids F}
    {t : Option Instant} :
    ({ c with continuations := l } : Core F κ).reflects sent obs mids t now = c.reflects sent obs mids t now := rfl

/-- Advancing a job does not look at the queue it came from. -/
theorem advanceLoop_continuations {job : ℕ} {reads : Reads F} {l : List ℕ} : ∀ {fuel : ℕ} {c : Core F κ},
    Core.advanceLoop q job now reads fuel { c with continuations := l } =
      ({ (Core.advanceLoop q job now reads fuel c).1 with continuations := l },
        (Core.advanceLoop q job now reads fuel c).2) := by
  intro fuel
  induction fuel with
  | zero =>
    intro c
    unfold Core.advanceLoop
    cases hr : c.nextReq q job with
    | none => simp only [continuations_nextReq, hr]
    | some x =>
      cases hj : c.jobs.lookup job with
      | none => simp only [continuations_nextReq, hr]
      | some j =>
        simp only [continuations_nextReq, hr]
        cases hu : c.usable (q.key x.2) j.trigger now (reads.leg job x.1) with
        | some e => simp only [continuations_usable, hu]
        | none =>
          simp only [continuations_usable, hu]
          cases hi : c.inflight.lookup (q.key x.2) with
          | some f =>
            cases hb : c.reflects f.sent f.obs f.mids j.trigger now <;>
              simp only [continuations_reflects, hb, Bool.false_eq_true, ↓reduceIte]
          | none => simp only
  | succ fuel ih =>
    intro c
    unfold Core.advanceLoop
    cases hr : c.nextReq q job with
    | none => simp only [continuations_nextReq, hr]
    | some x =>
      cases hj : c.jobs.lookup job with
      | none => simp only [continuations_nextReq, hr]
      | some j =>
        simp only [continuations_nextReq, hr]
        cases hu : c.usable (q.key x.2) j.trigger now (reads.leg job x.1) with
        | some e =>
          simp only [continuations_usable, hu]
          exact ih (c := { c with jobs := c.jobs.insert job (j.pushCached e.leg e.obs now) })
        | none =>
          simp only [continuations_usable, hu]
          cases hi : c.inflight.lookup (q.key x.2) with
          | some f =>
            cases hb : c.reflects f.sent f.obs f.mids j.trigger now <;>
              simp only [continuations_reflects, hb, Bool.false_eq_true, ↓reduceIte]
          | none => simp only

theorem advance_keeps {job : ℕ} {reads : Reads F} (c : Core F κ) :
    (c.advance q job now reads).1.continuations = c.continuations := by
  have h := @advanceLoop_continuations _ _ _ _ _ q now job reads c.continuations (c.legsLeft job) c
  exact congrArg (fun x => x.1.continuations) h

/-! ### The ready queue -/

/-- What popping the ready queue returns: it is empty, or the job handed out is in hand. -/
def Popped (q : Requests ρ κ) (now : Instant) (c : Core F κ) : Core F κ × Option ℕ → Prop
  | (c', none) => ∀ h, ReflTransGen (Move q now) (c, h) (c', h)
  | (c', some j) => ReflTransGen (Move q now) (c, none) (c', some j)

theorem Popped.after {c d : Core F κ} {x : Core F κ × Option ℕ} (hp : Popped q now d x)
    (h : ∀ o : Option ℕ, Move q now (c, o) (d, o)) : Popped q now c x := by
  rcases x with ⟨c', _ | j⟩
  · exact fun o => .head (h o) (hp o)
  · exact .head (h none) hp

theorem popReadyFrom_moves : ∀ {ready : List ℕ} {c : Core F κ},
    Popped q now { c with ready } (c.popReadyFrom ready) := by
  intro ready
  induction ready with
  | nil => intro c h; exact .refl
  | cons job ready ih =>
    intro c
    unfold Core.popReadyFrom
    cases hj : c.jobs.lookup job with
    | none => exact ih.after fun o => .skip rfl hj
    | some j =>
      simp only
      by_cases hr : c.repeats j = true
      · rw [if_pos hr]
        exact (ih (c := c.suppress job j)).after fun o =>
          Move.suppress (c := { c with ready := job :: ready }) rfl hj hr
      · rw [if_neg hr]
        exact (Carry.finish (c := { c with ready := job :: ready }) rfl hj).moves

theorem popReady_moves (c : Core F κ) : Popped q now c c.popReady := popReadyFrom_moves

/-! ### A call of `next` -/

/-- What a call of `next` returns: a job handed out is in hand, else the hand is empty. -/
def Called (q : Requests ρ κ) (now : Instant) (c : Core F κ) : Core F κ × WindowLimiter × Step ρ κ → Prop
  | (c', _, .finish j) => ReflTransGen (Move q now) (c, none) (c', some j)
  | (c', _, .dispatch ..) => ReflTransGen (Move q now) (c, none) (c', none)
  | (c', _, .wait _) => ReflTransGen (Move q now) (c, none) (c', none)

theorem Called.after {c d : Core F κ} {x : Core F κ × WindowLimiter × Step ρ κ} (hx : Called q now d x)
    (h : ReflTransGen (Move q now) (c, none) (d, none)) : Called q now c x := by
  rcases x with ⟨c', budget, _ | _ | _⟩ <;> exact h.trans hx

/-- The request of the job in hand goes out. -/
theorem called_dispatch {c d : Core F κ} {job : ℕ} {key : κ} {index : ℕ} {req : ρ} {budget : WindowLimiter}
    (ha : Advanced q now job (c, none) (d, some (key, index, req))) :
    Called q now c ((d.dispatch job key index req now).1, budget, (d.dispatch job key index req now).2) := by
  obtain ⟨hm, hr, rfl, hi, hs⟩ := ha
  obtain ⟨j, hj⟩ := Option.isSome_iff_exists.mp hs
  have hmove := (@Carry.dispatch _ _ _ _ _ _ now _ _ _ _ _ hj hr hi).moves
  have hstep : (d.dispatch job (q.key req) index req now).2 = .dispatch (q.key req) req index job := by
    simp [Core.dispatch, hj]
  rw [hstep]
  exact hm.trans hmove

/-- A job is picked from the front of the continuations and advanced. -/
theorem advance_continuation {c : Core F κ} {job : ℕ} {rest : List ℕ} {reads : Reads F}
    (hc : c.continuations = job :: rest) :
    Advanced q now job (c, none)
      ({ (c.advance q job now reads).1 with continuations := rest }, (c.advance q job now reads).2) := by
  have h := @advance_moves _ _ _ _ _ q now job reads ({ c with continuations := rest } : Core F κ)
  unfold Core.advance at h ⊢
  rw [advanceLoop_continuations] at h
  exact h.after (Carry.pick hc).moves

theorem nextContinuations_moves {reads : Reads F} {full : Bool} : ∀ {fuel : ℕ} {c : Core F κ} {budget : WindowLimiter},
    match Core.nextContinuations q now reads full fuel c budget with
    | (c', budget', some step) => Called q now c (c', budget', step)
    | (c', _, none) => ReflTransGen (Move q now) (c, none) (c', none) := by
  intro fuel
  induction fuel with
  | zero => intro c budget; exact .refl
  | succ fuel ih =>
    intro c budget
    unfold Core.nextContinuations
    cases hc : c.continuations with
    | nil => exact .refl
    | cons job rest =>
      have ha := @advance_continuation _ _ _ _ _ q now _ _ _ reads hc
      simp only
      rcases hadv : c.advance q job now reads with ⟨d, _ | ⟨key, index, req⟩⟩
      · rw [hadv] at ha
        have hp := @popReady_moves _ _ _ _ _ q now ({ d with continuations := rest } : Core F κ)
        simp only
        rcases hpop : ({ d with continuations := rest } : Core F κ).popReady with ⟨d', _ | j⟩
        · rw [hpop] at hp
          have hih := @ih d' budget
          simp only
          rcases hn : Core.nextContinuations q now reads full fuel d' budget with ⟨c', budget', _ | step⟩
          · rw [hn] at hih
            exact (ha.trans (hp none)).trans hih
          · rw [hn] at hih
            exact hih.after (ha.trans (hp none))
        · rw [hpop] at hp
          exact ha.trans hp
      · rw [hadv] at ha
        simp only
        have hwait : ReflTransGen (Move q now) (c, none) (d, none) := by
          have hd : d.continuations = job :: rest := by
            rw [← hc, ← @advance_keeps _ _ _ _ _ q now job reads c, hadv]
          have hback := (@Carry.putBack _ _ _ _ _ q now { d with continuations := rest } job).moves
          have hx := ha.1.trans hback
          rwa [← hd] at hx
        by_cases hfull : full = true
        · rw [if_pos hfull]
          exact hwait
        · rw [if_neg hfull]
          rcases budget.tryAcquire now 0 with ⟨e | _, budget'⟩
          · exact hwait
          · exact called_dispatch ha

/-- What a search over routes finds was found at one of them. -/
theorem foldl_pick {P : ℕ → Prop} {l : List ℕ} {op : Option ℕ → ℕ → Option ℕ}
    (hop : ∀ best, ∀ r ∈ l, op best r = best ∨ op best r = some r ∧ P r) {r : ℕ}
    (h : l.foldl op none = some r) : P r := by
  refine List.foldlRecOn (motive := fun best => ∀ r, best = some r → P r) l op ?_ ?_ r h
  · intro r h
    cases h
  · intro best ih r hr x hx
    rcases hop best r hr with he | ⟨he, hP⟩
    · exact ih x (he ▸ hx)
    · rw [he] at hx
      exact Option.some.inj hx ▸ hP

theorem bestTriggered_some {c : Core F κ} {score : ℕ → F} {r : ℕ} (h : c.bestTriggered now score = some r) :
    r ∈ c.triggered ∧ (c.state r).job = none := by
  refine foldl_pick (P := fun r => r ∈ c.triggered ∧ (c.state r).job = none) ?_ h
  intro best r _
  split
  · rename_i hr
    simp only [Bool.and_eq_true, decide_eq_true_eq, Option.isNone_iff_eq_none] at hr
    split
    · exact Or.inr ⟨rfl, hr.1⟩
    · split
      · exact Or.inr ⟨rfl, hr.1⟩
      · exact Or.inl rfl
  · exact Or.inl rfl

theorem calibrationDue_some {c : Core F κ} {r : ℕ} (h : c.calibrationDue now = some r) :
    (c.state r).job = none := by
  refine foldl_pick (P := fun r => (c.state r).job = none) ?_ h
  intro best r hr
  have hjob : (c.state r).job = none := by
    have hf := (List.mem_filter.mp hr).2
    simp only [Bool.and_eq_true, Option.isNone_iff_eq_none] at hf
    exact hf.1.1
  repeat' split
  all_goals first | exact Or.inr ⟨rfl, hjob⟩ | exact Or.inl rfl

/-- A job just started goes out, joins a request, or is undone. -/
theorem startOn_moves {c : Core F κ} {r reserve : ℕ} {cls : Class} {reads : Reads F} {budget : WindowLimiter}
    (hr : (c.state r).job = none) (ht : cls = .urgent → r ∈ c.triggered) (hc : cls ≠ .continuation) :
    Called q now c (c.startOn q r cls reserve now reads budget) := by
  have hs : ReflTransGen (Move q now) (c, none) ((c.startJob r cls now).1, some (c.startJob r cls now).2) :=
    .single (.start hr ht hc)
  have ha := (@advance_moves _ _ _ _ _ q now ((c.startJob r cls now).2) reads (c.startJob r cls now).1).after hs
  unfold Core.startOn
  simp only
  rcases hadv : (c.startJob r cls now).1.advance q (c.startJob r cls now).2 now reads with ⟨d, _ | ⟨key, index, req⟩⟩
  · rw [hadv] at ha
    have hp := @popReady_moves _ _ _ _ _ q now d
    simp only
    rcases hpop : d.popReady with ⟨d', _ | j⟩
    · rw [hpop] at hp
      exact ha.trans (hp none)
    · rw [hpop] at hp
      exact ha.trans hp
  · rw [hadv] at ha
    simp only
    rcases budget.tryAcquire now reserve with ⟨wait | _, budget'⟩
    · obtain ⟨j, hj⟩ := Option.isSome_iff_exists.mp ha.2.2.2.2
      exact ha.1.tail (.abandon hj)
    · exact called_dispatch ha

theorem nextStart_moves {reads : Reads F} (c : Core F κ) (budget : WindowLimiter) :
    Called q now c (c.nextStart q now reads budget) := by
  have hstart : ∀ (r reserve : ℕ) (cls : Class) (budget : WindowLimiter), (c.state r).job = none →
      (cls = .urgent → r ∈ c.triggered) → cls ≠ .continuation →
      Called q now c (c.startOn q r cls reserve now reads budget) := fun r reserve cls budget h1 h2 h3 =>
    startOn_moves h1 h2 h3
  unfold Core.nextStart
  cases hb : c.bestTriggered now reads.score with
  | some r =>
    obtain ⟨ht, hj⟩ := bestTriggered_some hb
    simp only
    rcases admission budget now 0 (c.requestsFor q r reads.requests + c.owed) with ⟨_ | t, budget'⟩
    · exact hstart r 0 .urgent budget' hj (fun _ => ht) (by decide)
    · exact ReflTransGen.refl
  | none =>
    simp only
    cases hd : c.calibrationDue now with
    | none => exact ReflTransGen.refl
    | some r =>
      simp only [Option.map_some]
      rcases admission budget now c.cfg.reserve (c.requestsFor q r reads.requests + c.owed) with ⟨_ | t, budget'⟩
      · exact hstart r c.cfg.reserve .background budget' (calibrationDue_some hd) (fun h => by cases h) (by decide)
      · exact ReflTransGen.refl

/-- **A call of `next` is a sequence of moves**, and what it hands out is in hand. -/
theorem next_moves {reads : Reads F} (c : Core F κ) (budget : WindowLimiter) :
    Called q now c (c.next q now reads budget) := by
  have hp := @popReady_moves _ _ _ _ _ q now c
  unfold Core.next
  rcases hpop : c.popReady with ⟨d, _ | j⟩
  · rw [hpop] at hp
    simp only
    have hn := @nextContinuations_moves _ _ _ _ _ q now reads (decide (d.cfg.maxInFlight ≤ d.inflight.entries.length)) d.continuations.length d budget
    rcases hcont : Core.nextContinuations q now reads (decide (d.cfg.maxInFlight ≤ d.inflight.entries.length))
      d.continuations.length d budget with ⟨c', budget', _ | step⟩
    · rw [hcont] at hn
      simp only
      split
      · exact (hp none).trans hn
      · exact (nextStart_moves c' budget').after ((hp none).trans hn)
    · rw [hcont] at hn
      exact hn.after (hp none)
  · rw [hpop] at hp
    exact hp

end Router
end MobiusSearcher
