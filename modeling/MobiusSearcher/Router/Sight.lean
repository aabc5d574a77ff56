/-
# A decision sees the change that triggered it

A job started for a change may use a quote only if the quote shows the
change: it was sent after it, or it observes only watched pools that did not
move since it was sent. Legs come to a job in five ways (its own request, the
cache, a request in flight, a wait for a stale one, another route's answer);
here they are followed through the whole run. A `Moment` is an event with the
states around it, and a run is a list of them, so that a statement can name
the moment a quote's request was sent, the one it was answered and the one
the leg was accepted for the job.

The clock of a run does not step back, and a client sends a request after
it was dispatched (`Clocked`).

Key definitions: `Moment`, `Clocked`, `Seen`, `Traced`.
Key theorems: `traced_step`, `finished_legs_see_trigger`, `stale_pool_accepted`.
-/
import MobiusSearcher.Router.Call
import MobiusSearcher.Router.Pace

set_option linter.unusedSectionVars false

namespace MobiusSearcher
namespace Router

open Keyed FloatOps Relation

variable {F : Type*} [FloatOps F] {ρ κ : Type*} [DecidableEq κ]

/-! ### Moments -/

/-- An event, with the states around it. -/
structure Moment (F κ : Type*) where
  before : Sys F κ
  event : Event F κ
  after : Sys F κ

/-- The run passes through the moment. -/
def Happens (q : Requests ρ κ) (s : Sys F κ) (x : Moment F κ) (t : Sys F κ) : Prop :=
  x.before = s ∧ x.after = t ∧ s.step q x.event = some t

/-- When a tick was received, or a decision made: the times triggers are set to. -/
def Event.stamp : Event F κ → Option Instant
  | .tick t _ => some t.received
  | .decided _ _ _ now => some now
  | _ => none

/-- No time read earlier is later than a call of `next`, and an answered
request was sent after it was dispatched. -/
def Clocked (T : List (Moment F κ)) (x : Moment F κ) : Prop :=
  match x.event with
  | .next now _ => ∀ y ∈ T, ∀ t ∈ y.event.stamp, t ≤ now
  | .leg key (.ok leg) _ => ∀ f ∈ x.before.core.inflight.lookup key, f.sent ≤ leg.sent
  | _ => True

instance (T : List (Moment F κ)) (x : Moment F κ) : Decidable (Clocked T x) :=
  match h : x.event with
  | .next now _ => decidable_of_iff (∀ y ∈ T, ∀ t ∈ y.event.stamp, t ≤ now) (by simp only [Clocked, h])
  | .leg key (.ok leg) _ =>
    decidable_of_iff (∀ f ∈ x.before.core.inflight.lookup key, f.sent ≤ leg.sent) (by simp only [Clocked, h])
  | .leg _ (.error _) _ => .isTrue (by simp only [Clocked, h])
  | .tick .. => .isTrue (by simp only [Clocked, h])
  | .takeReady _ => .isTrue (by simp only [Clocked, h])
  | .decided .. => .isTrue (by simp only [Clocked, h])
  | .limiter _ => .isTrue (by simp only [Clocked, h])

namespace Moment

/-- The request of `key` goes out. -/
def Sends (x : Moment F κ) (key : κ) (now : Instant) : Prop :=
  (∃ reads, x.event = .next now reads) ∧ key ∉ x.before.core.inflight ∧ key ∈ x.after.core.inflight

/-- The request of `key` is answered with `leg`. -/
def Answers (x : Moment F κ) (key : κ) (leg : BuiltLeg) : Prop := ∃ now, x.event = .leg key (.ok leg) now

/-- Job `j` accepts leg `i`, or the request in flight that will bring it. -/
def Accepts (x : Moment F κ) (j i : ℕ) (now : Instant) : Prop :=
  (∃ reads, x.event = .next now reads) ∧ ¬ x.before.core.Held j i ∧ x.after.core.Held j i

end Moment

/-- No answer to `key` between the moments `a` and `b`. -/
def Unanswered (T : List (Moment F κ)) (key : κ) (a b : ℕ) : Prop :=
  ∀ m, a < m → m < b → ∀ w, T[m]? = some w → ∀ result now, w.event ≠ .leg key result now

/-- `leg` answers the request of `key` that went out at moment `a`, which is `x`. -/
def Quoted (T : List (Moment F κ)) (key : κ) (leg : BuiltLeg) (a : ℕ) (x : Moment F κ) (sent : Instant) : Prop :=
  T[a]? = some x ∧ x.Sends key sent ∧
    ∃ b y, a < b ∧ T[b]? = some y ∧ y.Answers key leg ∧ Unanswered T key a b

/-- After moment `a`, which is `x`, the job accepted leg `i`, and what it observes had not changed. -/
def Shown (T : List (Moment F κ)) (j i : ℕ) (obs : Observes) (a : ℕ) (x : Moment F κ) (sent : Instant) : Prop :=
  ∃ b y now, a < b ∧ T[b]? = some y ∧ y.Accepts j i now ∧ Unchanged obs x.before.core sent y.before.core now

/-- The call returns the request of `key`, for a job: it is for a leg of the
plan of the job's route, and `obs` is what that leg observes. -/
def SentFor (q : Requests ρ κ) (plans : List CandidatePlan) (observes : LegSpec → Observes) (x : Moment F κ)
    (key : κ) (sent : Instant) (obs : Observes) : Prop :=
  ∃ reads req index job j plan spec amount, x.event = .next sent reads ∧
    (x.before.core.next q sent reads x.before.budget).2.2 = .dispatch key req index job ∧
    x.after.core.jobs.lookup job = some j ∧ plans[j.route]? = some plan ∧ plan.legs[index]? = some spec ∧
    req = q.makeReq spec amount ∧ key = q.key req ∧ obs = observes spec

/-- What the leg observes did not change from the moment its request went out
to the moment the job accepted it. -/
def Seen (q : Requests ρ κ) (plans : List CandidatePlan) (observes : LegSpec → Observes) (T : List (Moment F κ))
    (j i : ℕ) (leg : BuiltLeg) (obs : Observes) : Prop :=
  ∃ key a x sent, SentFor q plans observes x key sent obs ∧ Quoted T key leg a x sent ∧ Shown T j i obs a x sent

/-- `f` is the request of `key` that went out at moment `a` and is still open. -/
def Pending (q : Requests ρ κ) (plans : List CandidatePlan) (observes : LegSpec → Observes) (T : List (Moment F κ))
    (key : κ) (f : InFlight F) (a : ℕ) (x : Moment F κ) : Prop :=
  T[a]? = some x ∧ x.Sends key f.sent ∧ f.mids = x.before.core.midsFor f.obs f.sent ∧ Unanswered T key a T.length ∧
    SentFor q plans observes x key f.sent f.obs

variable {q : Requests ρ κ} {plans : List CandidatePlan} {observes : LegSpec → Observes}
variable {T : List (Moment F κ)} {s u : Sys F κ} {key : κ} {f : InFlight F} {leg : BuiltLeg}
  {a j i : ℕ} {x y : Moment F κ} {sent : Instant} {obs : Observes}

/-! ### A longer run -/

theorem getElem?_snoc {n : ℕ} (h : T[n]? = some x) : (T ++ [y])[n]? = some x := by
  rw [List.getElem?_append_left (List.getElem?_eq_some_iff.mp h).1]
  exact h

theorem Unanswered.snoc {b : ℕ} (h : Unanswered T key a b) (hb : b ≤ T.length) : Unanswered (T ++ [y]) key a b := by
  intro m h1 h2 w hw
  rw [List.getElem?_append_left (by omega)] at hw
  exact h m h1 h2 w hw

theorem Quoted.snoc (h : Quoted T key leg a x sent) : Quoted (T ++ [y]) key leg a x sent := by
  obtain ⟨h1, h2, b, z, h3, h4, h5, h6⟩ := h
  exact ⟨getElem?_snoc h1, h2, b, z, h3, getElem?_snoc h4, h5,
    h6.snoc (List.getElem?_eq_some_iff.mp h4).1.le⟩

theorem Shown.snoc (h : Shown T j i obs a x sent) : Shown (T ++ [y]) j i obs a x sent := by
  obtain ⟨b, z, now, h1, h2, h3⟩ := h
  exact ⟨b, z, now, h1, getElem?_snoc h2, h3⟩

theorem Seen.snoc (h : Seen q plans observes T j i leg obs) : Seen q plans observes (T ++ [y]) j i leg obs := by
  obtain ⟨key, a, x, sent, h0, h1, h2⟩ := h
  exact ⟨key, a, x, sent, h0, h1.snoc, h2.snoc⟩

theorem Pending.snoc (h : Pending q plans observes T key f a x) (hy : ∀ result now, y.event ≠ .leg key result now) :
    Pending q plans observes (T ++ [y]) key f a x := by
  obtain ⟨h1, h2, h3, h4, h5⟩ := h
  refine ⟨getElem?_snoc h1, h2, h3, fun m hm1 hm2 w hw => ?_, h5⟩
  rcases lt_or_ge m T.length with hm | hm
  · rw [List.getElem?_append_left hm] at hw
    exact h4 m hm1 hm w hw
  · have hlen : m = T.length := by
      rw [List.length_append, List.length_singleton] at hm2
      omega
    subst hlen
    rw [List.getElem?_concat_length] at hw
    cases hw
    exact hy

/-- The answer to an open request. -/
theorem Pending.answered (h : Pending q plans observes T key f a x) (hy : y.Answers key leg) :
    Quoted (T ++ [y]) key leg a x f.sent := by
  obtain ⟨h1, h2, -, h4, -⟩ := h
  exact ⟨getElem?_snoc h1, h2, T.length, y, (List.getElem?_eq_some_iff.mp h1).1, List.getElem?_concat_length, hy,
    h4.snoc le_rfl⟩

/-- The job accepts the leg at the moment that ends the run. -/
theorem Shown.last {now : Instant} (hx : T[a]? = some x) (hy : y.Accepts j i now)
    (hu : Unchanged obs x.before.core sent y.before.core now) : Shown (T ++ [y]) j i obs a x sent :=
  ⟨T.length, y, now, (List.getElem?_eq_some_iff.mp hx).1, List.getElem?_concat_length, hy, hu⟩

/-- The request goes out at the moment that ends the run. -/
theorem Pending.last (hs : y.Sends key f.sent) (hm : f.mids = y.before.core.midsFor f.obs f.sent)
    (hfor : SentFor q plans observes y key f.sent f.obs) : Pending q plans observes (T ++ [y]) key f T.length y := by
  refine ⟨List.getElem?_concat_length, hs, hm, fun m h1 h2 => ?_, hfor⟩
  rw [List.length_append, List.length_singleton] at h2
  omega

theorem Pending.quote {f' : InFlight F} (h : Pending q plans observes T key f a x) (hq : f'.quote = f.quote) :
    Pending q plans observes T key f' a x := by
  simp only [InFlight.quote, Prod.mk.injEq] at hq
  obtain ⟨h1, h2, -, h4⟩ := hq
  unfold Pending
  rw [h1, h2, h4]
  exact h

/-! ### The account of a run -/

/-- Where the triggers, the requests, the cached legs and the legs of the jobs come from. -/
structure Traced (q : Requests ρ κ) (plans : List CandidatePlan) (observes : LegSpec → Observes)
    (T : List (Moment F κ)) (s : Sys F κ) : Prop where
  tidy : Tidy s.core s.handed s.taken
  routes : ∃ oracleOf, s.core.defs = plans.map (.ofPlan observes oracleOf)
  stamps : ∀ r t, (s.core.state r).trigger = some t → ∃ x ∈ T, t ∈ x.event.stamp
  jobStamps : ∀ j job t, s.core.jobs.lookup j = some job → job.trigger = some t → ∃ x ∈ T, t ∈ x.event.stamp
  paired : ∀ j job, s.core.jobs.lookup j = some job → job.obs.length = job.legs.length
  requests : ∀ key f, s.core.inflight.lookup key = some f → ∃ a x, Pending q plans observes T key f a x
  cached : ∀ key e, s.core.cache key = some e → ∃ a x sent, SentFor q plans observes x key sent e.obs ∧
    Quoted T key e.leg a x sent ∧ e.mids = x.before.core.midsFor e.obs sent
  legs : ∀ j job t, s.core.jobs.lookup j = some job → job.trigger = some t →
    ∀ i leg obs, job.legs[i]? = some leg → job.obs[i]? = some obs →
      t ≤ leg.sent ∨ Seen q plans observes T j i leg obs
  waits : ∀ key f, s.core.inflight.lookup key = some f → ∀ j ∈ f.jobs, ∀ job t, s.core.jobs.lookup j = some job →
    job.trigger = some t → t ≤ f.sent ∨
      ∃ a x, Pending q plans observes T key f a x ∧ Shown T j job.legs.length f.obs a x f.sent

theorem stamp_snoc {t : Instant} (h : ∃ x ∈ T, t ∈ x.event.stamp) : ∃ x ∈ T ++ [y], t ∈ x.event.stamp := by
  obtain ⟨x, hx, ht⟩ := h
  exact ⟨x, List.mem_append_left _ hx, ht⟩

/-- Events that bring no leg: jobs and cached legs may go, triggers may be set to the event's time. -/
theorem Traced.quiet (h : Traced q plans observes T s) (ht : Tidy u.core u.handed u.taken)
    (hdefs : u.core.defs = s.core.defs)
    (hstate : ∀ r t, (u.core.state r).trigger = some t → (s.core.state r).trigger = some t ∨ t ∈ y.event.stamp)
    (hjobs : ∀ j job, u.core.jobs.lookup j = some job → s.core.jobs.lookup j = some job)
    (hin : ∀ key f, u.core.inflight.lookup key = some f → s.core.inflight.lookup key = some f)
    (hcache : ∀ key e, u.core.cache key = some e → s.core.cache key = some e)
    (hy : ∀ key f, u.core.inflight.lookup key = some f → ∀ result now, y.event ≠ .leg key result now) :
    Traced q plans observes (T ++ [y]) u where
  tidy := ht
  routes := hdefs ▸ h.routes
  stamps r t hr := by
    rcases hstate r t hr with h1 | h1
    · exact stamp_snoc (h.stamps r t h1)
    · exact ⟨y, by simp, h1⟩
  jobStamps j job t hj htr := stamp_snoc (h.jobStamps j job t (hjobs j job hj) htr)
  paired j job hj := h.paired j job (hjobs j job hj)
  requests key f hf := by
    obtain ⟨a, x, h1⟩ := h.requests key f (hin key f hf)
    exact ⟨a, x, h1.snoc (hy key f hf)⟩
  cached key e he := by
    obtain ⟨a, x, sent, h1, h2, h3⟩ := h.cached key e (hcache key e he)
    exact ⟨a, x, sent, h1, h2.snoc, h3⟩
  legs j job t hj htr i leg obs hl ho := (h.legs j job t (hjobs j job hj) htr i leg obs hl ho).imp_right Seen.snoc
  waits key f hf j hm job t hj htr := by
    refine (h.waits key f (hin key f hf) j hm job t (hjobs j job hj) htr).imp_right ?_
    rintro ⟨a, x, h1, h2⟩
    exact ⟨a, x, h1.snoc (hy key f hf), h2.snoc⟩

/-! ### A call of `next` -/

theorem prefix_getElem? {α : Type*} {l l' : List α} (h : l <+: l') {n : ℕ} (hn : n < l.length) : l[n]? = l'[n]? := by
  obtain ⟨t, rfl⟩ := h
  exact (List.getElem?_append_left hn).symm

theorem reflects_cases {c : Core F κ} {mids : Mids F} {t now : Instant}
    (h : c.reflects sent obs mids (some t) now = true) : t ≤ sent ∨ c.unmoved obs mids now = true := by
  simpa [Core.reflects] using h

/-- A request that goes out in the call is the one it returns, for a leg of a plan. -/
theorem Traced.sentFor {now : Instant} {reads : Reads F} (h : Traced q plans observes T s)
    (hcore : u.core = (s.core.next q now reads s.budget).1) (hdefs : u.core.defs = s.core.defs)
    (hnone : s.core.inflight.lookup key = none) (hf : u.core.inflight.lookup key = some f) :
    SentFor q plans observes ⟨s, .next now reads, u⟩ key now f.obs := by
  have hout : key ∉ s.core.inflight := AList.lookup_eq_none.mp hnone
  have hin : key ∈ u.core.inflight := AList.lookup_isSome.mp (by rw [hf]; rfl)
  have hsent := @next_sent _ _ _ _ _ q now reads s.budget s.core
  rcases hn : s.core.next q now reads s.budget with ⟨d, budget, ⟨key', req, index, job⟩ | _ | _⟩
  · rw [hn] at hsent hcore
    obtain ⟨rfl, ⟨f', hf', j, spec, amount, hj, hspec, hreq, hobs⟩, hkeys⟩ := hsent
    obtain rfl : d = u.core := hcore.symm
    obtain rfl := (hkeys key hin).resolve_right hout
    rw [hf] at hf'
    obtain rfl := Option.some.inj hf'
    obtain ⟨oracleOf, hroutes⟩ := h.routes
    have hroute : u.core.route j.route = (plans[j.route]?.map (.ofPlan observes oracleOf)).getD default := by
      rw [Core.route, hdefs, hroutes, List.getD_eq_getElem?_getD, List.getElem?_map]
    rw [hroute] at hspec hobs
    cases hplan : plans[j.route]? with
    | none =>
      -- no such route: its plan has no leg
      rw [hplan] at hspec
      cases hspec
    | some plan =>
      rw [hplan] at hspec hobs
      have hspec : plan.legs[index]? = some spec := hspec
      refine ⟨reads, req, index, job, j, plan, spec, amount, rfl, by rw [hn], hj, hplan, hspec, hreq, rfl, ?_⟩
      rw [hobs]
      show (plan.legs.map observes).getD index .unobservable = observes spec
      rw [List.getD_eq_getElem?_getD, List.getElem?_map, hspec]
      rfl
  · rw [hn] at hsent hcore
    obtain rfl : d = u.core := hcore.symm
    exact absurd (hsent key hin) hout
  · rw [hn] at hsent hcore
    obtain rfl : d = u.core := hcore.symm
    exact absurd (hsent key hin) hout

/-- **A call of `next` keeps the account**: what it accepts reflects the market. -/
theorem Traced.called {now : Instant} {reads : Reads F} (h : Traced q plans observes T s) (hs : Since s.core now u.core)
    (hcore : u.core = (s.core.next q now reads s.budget).1) (hdefs : u.core.defs = s.core.defs)
    (ht : Tidy u.core u.handed u.taken) (hclock : ∀ y ∈ T, ∀ t ∈ y.event.stamp, t ≤ now) :
    Traced q plans observes (T ++ [⟨s, .next now reads, u⟩]) u := by
  have hevent : ∀ key result n, (Moment.mk s (.next now reads) u).event ≠ .leg key result n := fun _ _ _ he => by
    cases he
  have hjob : ∀ j job t, u.core.jobs.lookup j = some job → job.trigger = some t → ∃ x ∈ T, t ∈ x.event.stamp := by
    intro j job t hj htr
    cases h₀ : s.core.jobs.lookup j with
    | none =>
      obtain ⟨r, hr⟩ := hs.newer j job t hj h₀ htr
      exact h.stamps r t hr
    | some job₀ => exact h.jobStamps j job₀ t h₀ ((hs.older j job job₀ hj h₀).1.trans htr)
  refine ⟨ht, hdefs ▸ h.routes, fun r t hr => stamp_snoc (h.stamps r t (hs.trigger r t hr)),
    fun j job t hj htr => stamp_snoc (hjob j job t hj htr), hs.paired, fun key f hf => ?_, fun key e he => ?_,
    fun j job t hj htr i leg obs hl ho => ?_, fun key f hf j hm job t hj htr => ?_⟩
  · rcases hs.quotes key f hf with ⟨f₀, h1, h2⟩ | ⟨h1, h2, h3⟩
    · obtain ⟨a, x, h4⟩ := h.requests key f₀ h1
      exact ⟨a, x, (h4.quote h2).snoc (hevent key)⟩
    · refine ⟨T.length, _, Pending.last ⟨⟨reads, by rw [h2]⟩, AList.lookup_eq_none.mp h1, ?_⟩ (by rw [h2, h3])
        (by rw [h2]; exact h.sentFor hcore hdefs h1 hf)⟩
      exact AList.lookup_isSome.mp (by rw [hf]; rfl)
  · rw [hs.cache] at he
    obtain ⟨a, x, sent, h1, h2, h3⟩ := h.cached key e he
    exact ⟨a, x, sent, h1, h2.snoc, h3⟩
  · rcases hs.legs j job hj i leg obs hl ho with ⟨job₀, h₀, hi⟩ | ⟨hheld, key, e, he, rfl, rfl, href⟩
    · -- a leg it had before the call
      obtain ⟨h1, h2, h3⟩ := hs.older j job job₀ hj h₀
      refine (h.legs j job₀ t h₀ (h1.trans htr) i leg obs ?_ ?_).imp_right Seen.snoc
      · rw [prefix_getElem? h2 hi]
        exact hl
      · rw [prefix_getElem? h3 ((h.paired j job₀ h₀).symm ▸ hi)]
        exact ho
    · -- a leg from the cache
      rw [htr] at href
      refine (reflects_cases href).imp_right fun hun => ?_
      obtain ⟨a, x, sent, h0, h1, h2⟩ := h.cached key e he
      rw [h2] at hun
      refine ⟨key, a, x, sent, h0, h1.snoc, Shown.last h1.1 ⟨⟨reads, rfl⟩, hheld, job, hj, Or.inl ?_⟩
        (unmoved_unchanged hun)⟩
      exact (List.getElem?_eq_some_iff.mp hl).1
  · rcases hs.waits key f hf j hm job hj with ⟨f₀, job₀, h1, h2, h₀, hlen⟩ | ⟨hheld, hnew⟩
    · -- it waited before the call
      have hq : f.quote = f₀.quote := by
        rcases hs.quotes key f hf with ⟨f', h3, h4⟩ | ⟨h3, -⟩
        · rw [h1] at h3
          cases h3
          exact h4
        · rw [h1] at h3
          cases h3
      have htr₀ := (hs.older j job job₀ hj h₀).1.trans htr
      have hsent : f.sent = f₀.sent := congrArg (fun x => x.2.2.2) hq
      have hobs : f.obs = f₀.obs := congrArg Prod.fst hq
      rw [hsent, hobs, ← hlen]
      refine (h.waits key f₀ h1 j h2 job₀ t h₀ htr₀).imp_right ?_
      rintro ⟨a, x, h3, h4⟩
      exact ⟨a, x, (h3.quote hq).snoc (hevent key), h4.snoc⟩
    · -- it joined the request, or sent it
      rcases hs.quotes key f hf with ⟨f₀, h1, h2⟩ | ⟨h1, h2, -⟩
      · have href : s.core.reflects f.sent f.obs f.mids (some t) now = true := by
          rcases hnew with h3 | h3
          · rw [h1] at h3
            cases h3
          · rwa [htr] at h3
        refine (reflects_cases href).imp_right fun hun => ?_
        obtain ⟨a, x, h3⟩ := h.requests key f₀ h1
        have h4 := h3.quote h2
        rw [h4.2.2.1] at hun
        have haccept : (Moment.mk s (.next now reads) u).Accepts j job.legs.length now :=
          ⟨⟨reads, rfl⟩, hheld, job, hj, Or.inr ⟨rfl, mem_held.mpr ⟨key, f, hf, hm⟩⟩⟩
        exact ⟨a, x, h4.snoc (hevent key), Shown.last h4.1 haccept (unmoved_unchanged hun)⟩
      · -- its own request went out after every change
        left
        obtain ⟨x, hx, hst⟩ := hjob j job t hj htr
        rw [h2]
        exact hclock x hx t hst

/-! ### Answers -/

/-- What handing out an answer does: a job is as it was, or has got the leg it waited for. -/
structure Delivered (c d : Core F κ) (leg : BuiltLeg) (f : InFlight F) (jobs : List ℕ) : Prop where
  state : d.state = c.state
  inflight : d.inflight = c.inflight
  cache : d.cache = c.cache
  jobs : ∀ j job, d.jobs.lookup j = some job → c.jobs.lookup j = some job ∨
    (j ∈ jobs ∧ ∃ job₀, c.jobs.lookup j = some job₀ ∧ job₀.legs.length = f.index ∧ job.trigger = job₀.trigger ∧
      job.legs = job₀.legs ++ [leg] ∧ job.obs = job₀.obs ++ [f.obs])

theorem deliver_delivered {now : Instant} (c : Core F κ) (job : ℕ) :
    Delivered c (c.deliver leg f.obs f.index now job) leg f [job] := by
  unfold Core.deliver
  cases hj : c.jobs.lookup job with
  | none => exact ⟨rfl, rfl, rfl, fun _ _ => Or.inl⟩
  | some j =>
    simp only
    split
    · exact ⟨rfl, rfl, rfl, fun _ _ => Or.inl⟩
    · rename_i hi
      have hlook : ∀ i k, (c.jobs.insert job { j with
          legs := j.legs ++ [leg], obs := j.obs ++ [f.obs], prevReceived := some now }).lookup i = some k →
          c.jobs.lookup i = some k ∨ (i ∈ [job] ∧ ∃ job₀, c.jobs.lookup i = some job₀ ∧ job₀.legs.length = f.index ∧
            k.trigger = job₀.trigger ∧ k.legs = job₀.legs ++ [leg] ∧ k.obs = job₀.obs ++ [f.obs]) := by
        intro i k hk
        by_cases hne : i = job
        · subst hne
          rw [AList.lookup_insert] at hk
          cases hk
          exact Or.inr ⟨List.mem_singleton_self _, j, hj, by simpa using hi, rfl, rfl, rfl⟩
        · rw [AList.lookup_insert_ne hne] at hk
          exact Or.inl hk
      split
      · exact ⟨rfl, rfl, rfl, hlook⟩
      · exact ⟨rfl, rfl, rfl, hlook⟩

/-- A job gets the leg once: afterwards it waits for another index. -/
theorem delivers_delivered {now : Instant} : ∀ (jobs : List ℕ) (c : Core F κ),
    Delivered c (jobs.foldl (fun c job => c.deliver leg f.obs f.index now job) c) leg f jobs
  | [], c => ⟨rfl, rfl, rfl, fun _ _ => Or.inl⟩
  | job :: jobs, c => by
    have h1 := @deliver_delivered _ _ _ _ f leg now c job
    have h2 := @delivers_delivered now jobs (c.deliver leg f.obs f.index now job)
    refine ⟨h2.state.trans h1.state, h2.inflight.trans h1.inflight, h2.cache.trans h1.cache, fun j k hk => ?_⟩
    rcases h2.jobs j k hk with h3 | ⟨h3, k₀, h4, h5, h6⟩
    · rcases h1.jobs j k h3 with h7 | ⟨h7, h8⟩
      · exact Or.inl h7
      · exact Or.inr ⟨List.mem_cons.mpr (Or.inl (List.mem_singleton.mp h7)), h8⟩
    · rcases h1.jobs j k₀ h4 with h7 | ⟨-, k₁, -, h8, -, h9, -⟩
      · exact Or.inr ⟨List.mem_cons_of_mem _ h3, k₀, h7, h5, h6⟩
      · rw [h9, List.length_append, List.length_singleton] at h5
        omega

/-- A failure takes jobs and triggers away, and nothing else of the account. -/
theorem fails_only {rateLimited : Bool} {now : Instant} : ∀ (jobs : List ℕ) (c : Core F κ),
    let d := jobs.foldl (fun c job => c.fail rateLimited now job) c
    d.inflight = c.inflight ∧ d.cache = c.cache ∧
      (∀ r t, (d.state r).trigger = some t → (c.state r).trigger = some t) ∧
      ∀ j job, d.jobs.lookup j = some job → c.jobs.lookup j = some job
  | [], c => ⟨rfl, rfl, fun _ _ => id, fun _ _ => id⟩
  | job :: jobs, c => by
    have h1 : (c.fail rateLimited now job).inflight = c.inflight ∧ (c.fail rateLimited now job).cache = c.cache ∧
        (∀ r t, ((c.fail rateLimited now job).state r).trigger = some t → (c.state r).trigger = some t) ∧
        ∀ j k, (c.fail rateLimited now job).jobs.lookup j = some k → c.jobs.lookup j = some k := by
      have herase : ∀ j k, (c.jobs.erase job).lookup j = some k → c.jobs.lookup j = some k := by
        intro j k hk
        by_cases hne : j = job
        · subst hne
          simp at hk
        · rwa [AList.lookup_erase_ne hne] at hk
      unfold Core.fail
      cases hj : c.jobs.lookup job with
      | none => exact ⟨rfl, rfl, fun _ _ => id, fun _ _ => id⟩
      | some j =>
        simp only
        split
        · exact ⟨rfl, rfl, setState_trigger fun t => id, herase⟩
        · refine ⟨rfl, rfl, fun r t ht => setState_trigger (c := c) (r := j.route) (fun t ht => ?_) r t ht, herase⟩
          cases ht
    obtain ⟨h2, h3, h4, h5⟩ := @fails_only rateLimited now jobs (c.fail rateLimited now job)
    exact ⟨h2.trans h1.1, h3.trans h1.2.1, fun r t ht => h1.2.2.1 r t (h4 r t ht), fun j k hk => h1.2.2.2 j k (h5 j k hk)⟩

/-- A job waits for one request at most. -/
theorem Tidy.one_request {c : Core F κ} {out : List ℕ} {taken : Map ℕ (ReadyJob F)} (h : Tidy c out taken)
    {key key' : κ} {f f' : InFlight F} (hf : c.inflight.lookup key = some f) (hf' : c.inflight.lookup key' = some f')
    (hj : j ∈ f.jobs) (hj' : j ∈ f'.jobs) : key' = key := by
  by_contra hne
  have h1 := h.once j
  have h2 := count_held_erase InFlight.jobs hf j
  have h3 := List.count_pos_iff.mpr hj
  have h4 : j ∈ held InFlight.jobs (c.inflight.erase key) :=
    mem_held.mpr ⟨key', f', by rw [AList.lookup_erase_ne hne]; exact hf', hj'⟩
  have h5 := List.count_pos_iff.mpr h4
  simp only [Core.places] at h1
  omega

/-- **An answer keeps the account**: a leg goes to the jobs that accepted its request. -/
theorem Traced.answered {now : Instant} (h : Traced q plans observes T s) (hf : s.core.inflight.lookup key = some f)
    (ht : Tidy u.core u.handed u.taken) (hsent : f.sent ≤ leg.sent)
    (hu : u.core = s.core.onLeg key (.ok leg) now) :
    Traced q plans observes (T ++ [⟨s, .leg key (.ok leg) now, u⟩]) u := by
  have hd := @delivers_delivered _ _ _ _ f leg now f.jobs { s.core.answered key with cache := Function.update s.core.cache key (some ⟨leg, f.obs, f.mids⟩) }
  have hcore : u.core = f.jobs.foldl (fun c job => c.deliver leg f.obs f.index now job)
      { s.core.answered key with cache := Function.update s.core.cache key (some ⟨leg, f.obs, f.mids⟩) } := by
    rw [hu]
    simp only [Core.onLeg, hf, Core.answered]
  rw [← hcore] at hd
  have hin : ∀ k f', u.core.inflight.lookup k = some f' → k ≠ key ∧ s.core.inflight.lookup k = some f' := by
    intro k f' hk
    rw [hd.inflight] at hk
    simp only [Core.answered] at hk
    by_cases hne : k = key
    · subst hne
      simp at hk
    · rw [AList.lookup_erase_ne hne] at hk
      exact ⟨hne, hk⟩
  have hevent : ∀ k f', u.core.inflight.lookup k = some f' →
      ∀ result n, (Moment.mk s (.leg key (.ok leg) now) u).event ≠ .leg k result n := by
    intro k f' hk result n he
    cases he
    exact (hin _ f' hk).1 rfl
  have hanswer : (Moment.mk s (.leg key (.ok leg) now) u).Answers key leg := ⟨now, rfl⟩
  have hdefs : u.core.defs = s.core.defs := by
    rw [hu]
    exact (@onLeg_kept _ _ _ _ now leg.sent key (.ok leg) (by rintro _ ⟨⟩; exact le_rfl) s.core).defs
  refine ⟨ht, hdefs ▸ h.routes, fun r t hr => ?_, fun j job t hj htr => ?_, fun j job hj => ?_, fun k f' hk => ?_,
    fun k e he => ?_, fun j job t hj htr i leg' obs hl ho => ?_, fun k f' hk j hm job t hj htr => ?_⟩
  · rw [hd.state] at hr
    exact stamp_snoc (h.stamps r t hr)
  · rcases hd.jobs j job hj with h1 | ⟨-, job₀, h1, -, h2, -⟩
    · exact stamp_snoc (h.jobStamps j job t h1 htr)
    · exact stamp_snoc (h.jobStamps j job₀ t h1 (h2 ▸ htr))
  · rcases hd.jobs j job hj with h1 | ⟨-, job₀, h1, -, -, h2, h3⟩
    · exact h.paired j job h1
    · have h4 := h.paired j job₀ h1
      simp [h2, h3, h4]
  · obtain ⟨a, x, h1⟩ := h.requests k f' (hin k f' hk).2
    exact ⟨a, x, h1.snoc (hevent k f' hk)⟩
  · rw [hd.cache] at he
    by_cases hne : k = key
    · subst hne
      simp only [Function.update_self, Option.some.injEq] at he
      subst he
      obtain ⟨a, x, h1⟩ := h.requests _ f hf
      exact ⟨a, x, f.sent, h1.2.2.2.2, h1.answered hanswer, h1.2.2.1⟩
    · simp only [Function.update_of_ne hne] at he
      obtain ⟨a, x, sent, h1, h2, h3⟩ := h.cached k e he
      exact ⟨a, x, sent, h1, h2.snoc, h3⟩
  · rcases hd.jobs j job hj with h1 | ⟨hm, job₀, h1, hidx, h2, h3, h4⟩
    · exact (h.legs j job t h1 htr i leg' obs hl ho).imp_right Seen.snoc
    · have hpair := h.paired j job₀ h1
      rw [h3] at hl
      rw [h4] at ho
      rcases lt_or_ge i job₀.legs.length with hi | hi
      · rw [List.getElem?_append_left hi] at hl
        rw [List.getElem?_append_left (hpair.symm ▸ hi)] at ho
        exact (h.legs j job₀ t h1 (h2 ▸ htr) i leg' obs hl ho).imp_right Seen.snoc
      · -- the leg it waited for
        have hlen := (List.getElem?_eq_some_iff.mp hl).1
        rw [List.length_append, List.length_singleton] at hlen
        obtain rfl : i = job₀.legs.length := by omega
        rw [List.getElem?_concat_length] at hl
        rw [← hpair, List.getElem?_concat_length] at ho
        cases hl
        cases ho
        rcases h.waits key f hf j hm job₀ t h1 (h2 ▸ htr) with h5 | ⟨a, x, h5, h6⟩
        · exact Or.inl (h5.trans hsent)
        · exact Or.inr ⟨key, a, x, f.sent, h5.2.2.2.2, h5.answered hanswer, h6.snoc⟩
  · obtain ⟨hne, hk'⟩ := hin k f' hk
    rcases hd.jobs j job hj with h1 | ⟨hm', -⟩
    · refine (h.waits k f' hk' j hm job t h1 htr).imp_right ?_
      rintro ⟨a, x, h2, h3⟩
      exact ⟨a, x, h2.snoc (hevent k f' hk), h3.snoc⟩
    · exact absurd (h.tidy.one_request hf hk' hm' hm) hne

/-! ### Ticks -/

/-- What a tick does to the account: cached legs may go, triggers may be set. -/
structure Ticked (c d : Core F κ) (at_ : Instant) : Prop where
  trigger : ∀ r t, (d.state r).trigger = some t → (c.state r).trigger = some t ∨ t = at_
  cache : ∀ key e, d.cache key = some e → c.cache key = some e

theorem Ticked.trans {c d e : Core F κ} {at_ : Instant} (h : Ticked c d at_) (h' : Ticked d e at_) :
    Ticked c e at_ where
  trigger r t ht := (h'.trigger r t ht).elim (h.trigger r t) Or.inr
  cache key e' he := h.cache key e' (h'.cache key e' he)

theorem touchOne_ticked {at_ now : Instant} (c : Core F κ) (r : ℕ) : Ticked c (c.touchOne at_ now r) at_ := by
  have hset : ∀ st : RouteState F, (∀ t, st.trigger = some t → (c.state r).trigger = some t ∨ t = at_) →
      ∀ r' t, (Function.update c.state r st r').trigger = some t → (c.state r').trigger = some t ∨ t = at_ := by
    intro st hst r' t ht
    by_cases hr : r' = r
    · subst hr
      exact hst t (by simpa using ht)
    · rw [Function.update_of_ne hr] at ht
      exact Or.inl ht
  unfold Core.touchOne
  simp only
  split
  · exact ⟨fun _ _ => Or.inl, fun _ _ => id⟩
  · split
    · refine ⟨hset _ fun t ht => ?_, fun _ _ => id⟩
      cases hs : (c.state r).trigger with
      | none =>
        rw [hs] at ht
        exact Or.inr (Option.some.inj ht).symm
      | some t' =>
        rw [hs] at ht
        exact Or.inl ht
    · split
      · exact ⟨hset _ fun t ht => (by cases ht), fun _ _ => id⟩
      · exact ⟨fun _ _ => Or.inl, fun _ _ => id⟩

theorem touch_ticked {at_ now : Instant} : ∀ (routes : List ℕ) (c : Core F κ),
    Ticked c (c.touch routes at_ now) at_
  | [], _ => ⟨fun _ _ => Or.inl, fun _ _ => id⟩
  | r :: routes, c => (touchOne_ticked c r).trans (touch_ticked routes (c.touchOne at_ now r))

theorem onTick_ticked (c : Core F κ) (tk : HotTick F) (now : Instant) : Ticked c (c.onTick tk now) tk.received := by
  cases tk with
  | pool dex mid received =>
    refine Ticked.trans ?_ (touch_ticked _ _)
    have hmean : ∀ d : Core F κ, (d.observeMean received now).state = d.state ∧
        (d.observeMean received now).cache = d.cache := fun d => by
      unfold Core.observeMean
      split
      · exact ⟨rfl, rfl⟩
      · exact ⟨rfl, rfl⟩
    obtain ⟨h1, h2⟩ := hmean { c with mids := c.mids.insert dex (mid, received) }
    refine ⟨fun r t ht => Or.inl ?_, fun key e he => ?_⟩
    · have ht' : ((({ c with mids := c.mids.insert dex (mid, received) } : Core F κ).observeMean received now).state
          r).trigger = some t := ht
      rwa [h1] at ht'
    · simp only [Core.invalidate, h2] at he
      exact (Option.filter_eq_some_iff.mp he).1
  | oracle symbol price received =>
    have h : Ticked c { c with oracles := Function.update c.oracles symbol (some price) } received :=
      ⟨fun _ _ => Or.inl, fun _ _ => id⟩
    exact h.trans (touch_ticked _ _)

/-! ### Pricing -/

/-- A trigger after a decision was there before, or is set to the decision's time. -/
theorem onDecided_trigger {c : Core F κ} {r : ℕ} {grossBp netBp : F} {inputs : Inputs F} {started now : Instant}
    (r' : ℕ) (t : Instant) (h : ((c.onDecided r grossBp netBp inputs started now).state r').trigger = some t) :
    (c.state r').trigger = some t ∨ t = now := by
  have htrigger : (Core.decided (c.state r) grossBp netBp inputs now).trigger = (c.state r).trigger := by
    unfold Core.decided Core.learn
    simp only
    split <;> rfl
  unfold Core.onDecided at h
  simp only at h
  split at h
  · unfold Core.recheck at h
    split at h
    · simp only [Core.setState_state] at h
      by_cases hr : r' = r
      · subst hr
        simp only [Function.update_self, Option.some.injEq] at h
        exact Or.inr h.symm
      · rw [Function.update_of_ne hr, Function.update_of_ne hr] at h
        exact Or.inl h
    · exact Or.inl (setState_trigger (fun t ht => by cases ht) r' t h)
  · exact Or.inl (setState_trigger (fun t ht => by rwa [htrigger] at ht) r' t h)

/-- The routes stay what they were made from. -/
theorem step_defs {e : Event F κ} (hs : s.step q e = some u) : u.core.defs = s.core.defs := by
  cases e with
  | tick t now =>
    cases hs
    exact (@onTick_kept _ _ _ _ now now s.core t).defs
  | next now reads =>
    obtain ⟨h', hm, -, -⟩ := step_next hs
    exact (@moves_kept _ _ _ _ _ q now now _ _ hm).defs
  | leg key result now =>
    cases hs
    cases result with
    | ok leg => exact (@onLeg_kept _ _ _ _ now leg.sent key (.ok leg) (by rintro _ ⟨⟩; exact le_rfl) s.core).defs
    | error rateLimited => exact (@onLeg_kept _ _ _ _ now now key (.error rateLimited) (by rintro _ ⟨⟩) s.core).defs
  | takeReady job =>
    simp only [Sys.step] at hs
    split at hs
    · have hdefs : (s.core.takeReady job).1.defs = s.core.defs := by
        unfold Core.takeReady
        split <;> rfl
      split at hs <;> (cases hs; simp_all)
    · cases hs
  | decided job grossBp netBp now =>
    obtain ⟨p, -, rfl⟩ := Option.map_eq_some_iff.mp hs
    simp only [Core.onDecided]
    split
    · exact (@recheck_kept _ _ _ _ now now _ p.route).defs
    · rfl
  | limiter budget =>
    cases hs
    rfl

theorem takeReady_only (c : Core F κ) (job : ℕ) :
    (∀ r t, ((c.takeReady job).1.state r).trigger = some t → (c.state r).trigger = some t) ∧
      (∀ j k, (c.takeReady job).1.jobs.lookup j = some k → c.jobs.lookup j = some k) ∧
      (c.takeReady job).1.inflight = c.inflight ∧ (c.takeReady job).1.cache = c.cache := by
  unfold Core.takeReady
  cases hj : c.jobs.lookup job with
  | none => exact ⟨fun _ _ => id, fun _ _ => id, rfl, rfl⟩
  | some j =>
    refine ⟨fun r t ht => @setState_trigger _ _ _ _ c j.route { c.state j.route with lastLegs := j.legs.map BuiltLeg.sent } (fun t => id) r t ht,
      fun i k hk => ?_, rfl, rfl⟩
    by_cases hne : i = job
    · subst hne
      simp at hk
    · rwa [AList.lookup_erase_ne hne] at hk

/-! ### Whole runs -/

/-- A tick sets triggers to its time, and brings no leg. -/
theorem Traced.ticked {tk : HotTick F} {now : Instant} (h : Traced q plans observes T s)
    (hcore : u.core = s.core.onTick tk now) (ht : Tidy u.core u.handed u.taken) (hdefs : u.core.defs = s.core.defs) :
    Traced q plans observes (T ++ [⟨s, .tick tk now, u⟩]) u := by
  have hd := onTick_ticked s.core tk now
  obtain ⟨-, hjobs, -, -, -, hin, -⟩ := @onTick_touched _ _ _ _ now s.core tk
  rw [← hcore] at hd hjobs hin
  refine h.quiet ht hdefs (fun r t hr => ?_) (fun j job hj => hjobs ▸ hj) (fun key f hf => hin ▸ hf) hd.cache
    fun key f _ result n he => by cases he
  exact (hd.trigger r t hr).imp_right fun he => by rw [he]; rfl

/-- An answer to no open request changes nothing. -/
theorem Traced.unasked {result : Except Bool BuiltLeg} {now : Instant} (h : Traced q plans observes T s)
    (hnone : s.core.inflight.lookup key = none) (hcore : u.core = s.core) (ht : Tidy u.core u.handed u.taken) :
    Traced q plans observes (T ++ [⟨s, .leg key result now, u⟩]) u := by
  refine h.quiet ht (by rw [hcore]) (fun r t hr => .inl ?_) (fun j job hj => ?_) (fun k f hk => ?_) (fun k e he => ?_)
    fun k f hk r n he => ?_
  · exact hcore ▸ hr
  · exact hcore ▸ hj
  · exact hcore ▸ hk
  · exact hcore ▸ he
  · cases he
    rw [hcore, hnone] at hk
    cases hk

/-- A request that failed is closed, and its jobs get no leg. -/
theorem Traced.failed {rateLimited : Bool} {now : Instant} (h : Traced q plans observes T s)
    (hcore : u.core = f.jobs.foldl (fun c job => c.fail rateLimited now job) (s.core.answered key))
    (ht : Tidy u.core u.handed u.taken) (hdefs : u.core.defs = s.core.defs) :
    Traced q plans observes (T ++ [⟨s, .leg key (.error rateLimited) now, u⟩]) u := by
  obtain ⟨hinflight, hcache, htrigger, hjobs⟩ := @fails_only _ _ _ _ rateLimited now f.jobs (s.core.answered key)
  rw [← hcore] at hinflight hcache htrigger hjobs
  have hin : ∀ k f', u.core.inflight.lookup k = some f' → k ≠ key ∧ s.core.inflight.lookup k = some f' := by
    intro k f' hk
    rw [hinflight] at hk
    simp only [Core.answered] at hk
    by_cases hne : k = key
    · subst hne
      simp at hk
    · rw [AList.lookup_erase_ne hne] at hk
      exact ⟨hne, hk⟩
  refine h.quiet ht hdefs (fun r t hr => .inl (htrigger r t hr)) hjobs (fun k f' hk => (hin k f' hk).2)
    (fun k e he => ?_) fun k f' hk r n he => ?_
  · rw [hcache] at he
    exact he
  · cases he
    exact (hin _ f' hk).1 rfl

/-- Taking up a ready job brings no leg. -/
theorem Traced.readied {job : ℕ} (h : Traced q plans observes T s) (hcore : u.core = (s.core.takeReady job).1)
    (ht : Tidy u.core u.handed u.taken) (hdefs : u.core.defs = s.core.defs) :
    Traced q plans observes (T ++ [⟨s, .takeReady job, u⟩]) u := by
  obtain ⟨htrigger, hjobs, hin, hcache⟩ := takeReady_only s.core job
  rw [← hcore] at htrigger hjobs hin hcache
  exact h.quiet ht hdefs (fun r t hr => .inl (htrigger r t hr)) hjobs (fun key f hf => hin ▸ hf)
    (fun key e he => hcache ▸ he) fun key f _ result n he => by cases he

/-- A decision may set its route's trigger to the time it was made, and brings no leg. -/
theorem Traced.judged {job r : ℕ} {grossBp netBp : F} {inputs : Inputs F} {picked now : Instant}
    (h : Traced q plans observes T s) (hcore : u.core = s.core.onDecided r grossBp netBp inputs picked now)
    (ht : Tidy u.core u.handed u.taken) (hdefs : u.core.defs = s.core.defs) :
    Traced q plans observes (T ++ [⟨s, .decided job grossBp netBp now, u⟩]) u := by
  obtain ⟨st, -, -, hjobs, -, -, -, hin, -⟩ := @onDecided_touched _ _ _ _ now s.core r grossBp netBp inputs picked
  have hcache : (s.core.onDecided r grossBp netBp inputs picked now).cache = s.core.cache := by
    unfold Core.onDecided Core.recheck
    simp only
    split
    · split <;> rfl
    · rfl
  rw [← hcore] at hcache hjobs hin
  refine h.quiet ht hdefs (fun r t hr => ?_) (fun j k hk => hjobs ▸ hk) (fun key f hf => hin ▸ hf)
    (fun key e he => hcache ▸ he) fun key f _ result n he => by cases he
  rw [hcore] at hr
  exact (onDecided_trigger r t hr).imp_right fun he => by rw [he]; rfl

/-- **One event keeps the account.** -/
theorem traced_step (h : Traced q plans observes T s) (hx : Happens q s x u) (hclock : Clocked T x) :
    Traced q plans observes (T ++ [x]) u := by
  obtain ⟨before, event, after⟩ := x
  obtain ⟨h1, h2, hs⟩ := hx
  simp only at h1 h2 hs
  subst h1 h2
  have hdefs := step_defs hs
  have ht := (tidy_step h.tidy hs).1
  cases event with
  | tick tk now =>
    cases hs
    exact h.ticked rfl ht hdefs
  | next now reads =>
    obtain ⟨h', hm, -, -⟩ := step_next hs
    have hcore : after.core = (before.core.next q now reads before.budget).1 := by
      simp only [Sys.step, Option.some.injEq] at hs
      rw [← hs]
    exact h.called (@moves_since _ _ _ _ _ _ _ _ _ _ before.handed _ hm h.tidy h.tidy.fresh (.refl h.paired)) hcore hdefs
      ht hclock
  | leg key result now =>
    cases hs
    cases hf : before.core.inflight.lookup key with
    | none => exact h.unasked hf (by simp only [Core.onLeg, hf]) ht
    | some f =>
      cases result with
      | ok leg => exact h.answered hf ht (hclock f hf) rfl
      | error rateLimited => exact h.failed (f := f) (by simp only [Core.onLeg, hf, Core.answered]) ht hdefs
  | takeReady job =>
    have hcore : after.core = (before.core.takeReady job).1 := by
      simp only [Sys.step] at hs
      split at hs
      · split at hs <;> (cases hs; simp_all)
      · cases hs
    exact h.readied hcore ht hdefs
  | decided job grossBp netBp now =>
    obtain ⟨p, hp, rfl⟩ := Option.map_eq_some_iff.mp hs
    exact h.judged rfl ht hdefs
  | limiter budget =>
    cases hs
    exact h.quiet ht hdefs (fun r t hr => Or.inl hr) (fun _ _ => id) (fun _ _ => id) (fun _ _ => id)
      fun key f _ result n he => by cases he

/-- The clock holds at every moment of the run. -/
def ClockedRun (T : List (Moment F κ)) : Prop := ∀ n, ∀ x ∈ T[n]?, Clocked (T.take n) x

theorem clockedRun_snoc (h : ClockedRun (T ++ [x])) : ClockedRun T ∧ Clocked T x := by
  refine ⟨fun n y hy => ?_, ?_⟩
  · have h1 := h n y (getElem?_snoc hy)
    rwa [List.take_append_of_le_length (List.getElem?_eq_some_iff.mp hy).1.le] at h1
  · have h1 := h T.length x List.getElem?_concat_length
    rwa [List.take_left'] at h1
    rfl

theorem run_traced {cfg : RouterConfig F} {oracleOf : Address → Option String} {budget : WindowLimiter}
    (hr : Run (Happens q) (Sys.new cfg plans observes oracleOf budget) T s) (hclock : ClockedRun T) :
    Traced q plans observes T s := by
  refine hr.history (P := fun T s => ClockedRun T → Traced q plans observes T s) (fun _ => ?_)
    (fun T s x t _ ih hx hc => ?_) hclock
  · refine ⟨(new_tidy ..).1, ⟨oracleOf, rfl⟩, fun r t h => ?_, fun j job t h => ?_, fun j job h => ?_, fun key f h => ?_,
      fun key e h => ?_, fun j job t h => ?_, fun key f h => ?_⟩
    · cases h
    · cases h
    · cases h
    · cases h
    · cases h
    · cases h
    · cases h
  · obtain ⟨h1, h2⟩ := clockedRun_snoc hc
    exact traced_step (ih h1) hx h2

/-- **A triggered decision sees the change that triggered it.** Each leg of a
job that `next` hands out was sent at or after the job's trigger, or what it
observes (`observes`, of the leg of the route its request went out for) did not
change from the moment that request went out to the moment the job accepted it. -/
theorem finished_legs_see_trigger {cfg : RouterConfig F} {plans : List CandidatePlan} {observes : LegSpec → Observes}
    {oracleOf : Address → Option String} {budget : WindowLimiter} {now : Instant} {reads : Reads F} {job : ℕ}
    (hr : Run (Happens q) (Sys.new cfg plans observes oracleOf budget) (T ++ [⟨s, .next now reads, u⟩]) u)
    (hclock : ClockedRun (T ++ [⟨s, .next now reads, u⟩]))
    (hf : (s.core.next q now reads s.budget).2.2 = .finish job) :
    ∃ j, u.core.jobs.lookup job = some j ∧ ∀ t, j.trigger = some t → ∀ i leg, j.legs[i]? = some leg →
      ∃ obs, j.obs[i]? = some obs ∧ (t ≤ leg.sent ∨
        Seen q plans observes (T ++ [⟨s, .next now reads, u⟩]) job i leg obs) := by
  have h := run_traced hr hclock
  obtain ⟨s', -, rfl, -, hs⟩ := hr.last
  have hhanded : job ∈ u.handed := by
    simp only [Sys.step, Option.some.injEq] at hs
    rw [← hs]
    simp only [hf]
    exact List.mem_cons_self
  have hm : job ∈ u.core.jobs := h.tidy.known job (by
    have h1 := List.count_pos_iff.mpr hhanded
    omega)
  obtain ⟨j, hj⟩ := Option.isSome_iff_exists.mp (AList.lookup_isSome.mpr hm)
  refine ⟨j, hj, fun t ht i leg hl => ?_⟩
  have hi : i < j.obs.length := by
    rw [h.paired job j hj]
    exact (List.getElem?_eq_some_iff.mp hl).1
  exact ⟨j.obs[i], List.getElem?_eq_getElem hi, h.legs job j t hj ht i leg _ hl (List.getElem?_eq_getElem hi)⟩

/-! ### A pool not heard of for long -/

/-- A triangle over the watched pair and a token with an oracle. -/
def trianglePlans : List CandidatePlan := [⟨1000, [plainLeg 1 2, plainLeg 2 3, plainLeg 3 1]⟩]

def watchedPair (l : LegSpec) : Observes := if l.input = ⟨1⟩ ∧ l.output = ⟨2⟩ then .allPools else .unobservable

def triangleStart : Sys ℚ (ℕ × ℕ × ℕ) :=
  Sys.new defaultConfig trianglePlans watchedPair
    (fun t => if t = ⟨3⟩ then some "oracle" else none) (.new 20 10000000000 1)

def readsAt (now : Instant) : Reads ℚ := ⟨fun _ _ => (now, now), now, fun _ => 0⟩

/-- The route is decided once, 30 s after the pool "old" was last heard of;
then the oracle moves, at 31 s. -/
def oracleMoves : List (Event ℚ (ℕ × ℕ × ℕ)) :=
  [.tick (.pool "old" 100 0) 0, .tick (.pool "live" 100 25000000000) 25000000000,
    .tick (.oracle "oracle" 1 25000000000) 25000000000,
    .next 30000000000 (readsAt 30000000000),
    .leg (1, 2, 1000) (.ok (builtLeg 5 30000000000)) 30100000000, .next 30200000000 (readsAt 30200000000),
    .leg (2, 3, 5) (.ok (builtLeg 7 30200000000)) 30250000000, .next 30300000000 (readsAt 30300000000),
    .leg (3, 1, 7) (.ok (builtLeg 999 30300000000)) 30400000000, .next 30400000000 (readsAt 30400000000),
    .takeReady 1, .decided 1 0 0 30500000000,
    .tick (.oracle "oracle" 2 31000000000) 31000000000]

/-- The urgent job starts with the cached quote of the watched pair. -/
def startsUrgent : Event ℚ (ℕ × ℕ × ℕ) := .next 31100000000 (readsAt 31100000000)

def otherLegs : List (Event ℚ (ℕ × ℕ × ℕ)) :=
  [.leg (2, 3, 5) (.ok (builtLeg 7 31100000000)) 31200000000, .next 31200000000 (readsAt 31200000000),
    .leg (3, 1, 7) (.ok (builtLeg 999 31200000000)) 31300000000]

def handsOut : Event ℚ (ℕ × ℕ × ℕ) := .next 31400000000 (readsAt 31400000000)

/-- The job takes a quote sent a second before its trigger, while a watched
pool is not fresh. -/
theorem stale_pool_accepted : ∃ s u v : Sys ℚ (ℕ × ℕ × ℕ),
    Run (fun s e t => s.step plainRequests e = some t) triangleStart oracleMoves s ∧
    s.step plainRequests startsUrgent = some u ∧
    Run (fun s e t => s.step plainRequests e = some t) u (otherLegs ++ [handsOut]) v ∧
    ¬ s.core.Held 2 0 ∧ u.core.Held 2 0 ∧ 2 ∈ v.handed ∧
    (v.core.jobs.lookup 2).map (fun j => (j.trigger, j.legs.map BuiltLeg.sent, j.obs)) =
      some (some 31000000000, [30000000000, 31100000000, 31200000000], [.allPools, .unobservable, .unobservable]) ∧
    "old" ∈ s.core.mids ∧ s.core.freshMid "old" 31100000000 = none := by
  have h : ((oracleMoves.foldlM (Sys.step plainRequests) triangleStart).bind fun s =>
      (s.step plainRequests startsUrgent).bind fun u =>
      ((otherLegs ++ [handsOut]).foldlM (Sys.step plainRequests) u).map fun v =>
      decide ((s.core.jobs.lookup 2).isNone ∧ (u.core.jobs.lookup 2).map (fun j => j.legs.length) = some 1 ∧
        2 ∈ v.handed ∧ (v.core.jobs.lookup 2).map (fun j => (j.trigger, j.legs.map BuiltLeg.sent, j.obs)) =
          some (some 31000000000, [30000000000, 31100000000, 31200000000], [.allPools, .unobservable, .unobservable]) ∧
        "old" ∈ s.core.mids ∧ s.core.freshMid "old" 31100000000 = none)) = some true := by decide +kernel
  obtain ⟨s, hs, h⟩ := Option.bind_eq_some_iff.mp h
  obtain ⟨u, hu, h⟩ := Option.bind_eq_some_iff.mp h
  obtain ⟨v, hv, h⟩ := Option.map_eq_some_iff.mp h
  obtain ⟨h1, h2, h3, h4, h5⟩ := of_decide_eq_true h
  refine ⟨s, u, v, Run.of_foldlM hs, hu, Run.of_foldlM hv, ?_, ?_, h3, h4, h5⟩
  · rintro ⟨job, hj, -⟩
    rw [hj] at h1
    cases h1
  · obtain ⟨j, hj, hlen⟩ := Option.map_eq_some_iff.mp h2
    exact ⟨j, hj, Or.inl (by rw [hlen]; exact Nat.one_pos)⟩

/-- The moments of a run, and its end. -/
def moments (q : Requests ρ κ) : Sys F κ → List (Event F κ) → Option (List (Moment F κ) × Sys F κ)
  | s, [] => some ([], s)
  | s, e :: es => (s.step q e).bind fun t => (moments q t es).map fun x => (⟨s, e, t⟩ :: x.1, x.2)

theorem run_moments : ∀ {es : List (Event F κ)} {s : Sys F κ} {x : List (Moment F κ) × Sys F κ},
    moments q s es = some x → Run (Happens q) s x.1 x.2
  | [], s, x, h => by
    obtain rfl : ([], s) = x := by simpa [moments] using h
    exact .nil
  | e :: es, s, x, h => by
    obtain ⟨t, ht, h⟩ := Option.bind_eq_some_iff.mp h
    obtain ⟨y, hy, rfl⟩ := Option.map_eq_some_iff.mp h
    exact (Run.single ⟨rfl, rfl, ht⟩).append (run_moments hy)

/-- The turn hands out job `n`. -/
def Finishes (n : ℕ) : Step ρ κ → Bool
  | .finish job => decide (job = n)
  | _ => false

theorem eq_of_finishes {n : ℕ} {x : Step ρ κ} (h : Finishes n x = true) : x = .finish n := by
  cases x with
  | finish job => rw [of_decide_eq_true h]
  | _ => cases h

/-- The cached quote of the run above did see the fresh pool unchanged. -/
theorem finished_legs_see_trigger_cached : ∃ (T : List (Moment ℚ (ℕ × ℕ × ℕ))) (leg : BuiltLeg),
    leg.sent = 30000000000 ∧ Seen plainRequests trianglePlans watchedPair T 2 0 leg .allPools := by
  have h : ((moments plainRequests triangleStart (oracleMoves ++ [startsUrgent] ++ otherLegs)).bind fun x =>
      (x.2.step plainRequests handsOut).map fun u =>
      decide ((∀ n < (x.1 ++ [Moment.mk x.2 handsOut u]).length, ∀ y ∈ (x.1 ++ [Moment.mk x.2 handsOut u])[n]?,
          Clocked ((x.1 ++ [Moment.mk x.2 handsOut u]).take n) y) ∧
        Finishes 2 (x.2.core.next plainRequests 31400000000 (readsAt 31400000000) x.2.budget).2.2 = true ∧
        (u.core.jobs.lookup 2).map (fun j => (j.trigger, j.legs.map BuiltLeg.sent, j.obs)) =
          some (some 31000000000, [30000000000, 31100000000, 31200000000], [.allPools, .unobservable, .unobservable]))) =
      some true := by decide +kernel
  obtain ⟨x, hx, h⟩ := Option.bind_eq_some_iff.mp h
  obtain ⟨u, hu, h⟩ := Option.map_eq_some_iff.mp h
  obtain ⟨hc, hf, hj⟩ := of_decide_eq_true h
  have hclock : ClockedRun (x.1 ++ [Moment.mk x.2 handsOut u]) := fun n y hy =>
    hc n (List.getElem?_eq_some_iff.mp hy).1 y hy
  obtain ⟨j, hlook, hsee⟩ :=
    finished_legs_see_trigger ((run_moments hx).snoc ⟨rfl, rfl, hu⟩) hclock (eq_of_finishes hf)
  rw [hlook] at hj
  simp only [Option.map_some, Option.some.injEq, Prod.mk.injEq] at hj
  obtain ⟨ht, hl, ho⟩ := hj
  have hlegs : (j.legs.map BuiltLeg.sent)[0]? = some 30000000000 := by rw [hl]; rfl
  rw [List.getElem?_map] at hlegs
  obtain ⟨leg, hleg, hsent⟩ := Option.map_eq_some_iff.mp hlegs
  obtain ⟨obs, hobs, hle | hseen⟩ := hsee _ ht 0 leg hleg
  · rw [hsent] at hle
    exact absurd hle (by decide)
  · rw [ho] at hobs
    cases hobs
    exact ⟨_, leg, hsent, hseen⟩

end Router
end MobiusSearcher
