/-
# Every job is in one place

A job of the router is in the ready queue, among the continuations, waiting
for one request in flight, blocked on one, or out: in hand or handed out. The
invariant `Tidy` says it is never in two, and that a route's job is one that
exists or is being priced; it holds in every run. That a job is in at least
one place (`Whole`) needs that an answer only meets jobs that wait for it as
that leg (`Aligned`): a job that joined a request in flight for another leg
index is skipped when the answer comes, and is nowhere from then on.

Key definitions: `Core.places`, `Tidy`, `Whole`, `Aligned`.
Key theorems: `Move.tidy`, `tidy_step`, `jobs_in_one_place`, `joined_job_lost`.
-/
import MobiusSearcher.Router.System
import MobiusSearcher.Lib.Run

set_option linter.unusedSectionVars false

namespace MobiusSearcher
namespace Router

open Keyed FloatOps Relation

variable {F : Type*} [FloatOps F] {ρ κ : Type*} [DecidableEq κ]

/-! ### The places -/

/-- How often a job is in the queues and lists of the router. -/
def Core.places (c : Core F κ) (j : ℕ) : ℕ :=
  c.ready.count j + c.continuations.count j + (held InFlight.jobs c.inflight).count j + (held id c.blockedOn).count j

/-- No job is in two places, and the routes' jobs are those that exist or are being priced. -/
structure Tidy (c : Core F κ) (out : List ℕ) (taken : Map ℕ (ReadyJob F)) : Prop where
  once : ∀ j, c.places j + out.count j ≤ 1
  known : ∀ j, 0 < c.places j + out.count j → j ∈ c.jobs
  fresh : ∀ j ∈ c.jobs, j < c.nextJob
  owner : ∀ j job, c.jobs.lookup j = some job → (c.state job.route).job = some j
  priced : ∀ j r, taken.lookup j = some r → j ∉ c.jobs ∧ j < c.nextJob ∧ (c.state r.route).job = some j
  job : ∀ r j, (c.state r).job = some j →
    (∃ job, c.jobs.lookup j = some job ∧ job.route = r) ∨ ∃ p, taken.lookup j = some p ∧ p.route = r
  blocked : ∀ k l, c.blockedOn.lookup k = some l → l ≠ [] → k ∈ c.inflight

/-- No job is lost. -/
def Whole (c : Core F κ) (out : List ℕ) : Prop := ∀ j ∈ c.jobs, 0 < c.places j + out.count j

variable {q : Requests ρ κ} {now : Instant}

/-! ### Quiet moves -/

/-- What a job was started for. -/
def Job.mark (j : Job F) : ℕ × Option Instant × Class := (j.route, j.trigger, j.cls)

/-- Only the queues and the legs of the jobs differ. -/
structure Same (c d : Core F κ) : Prop where
  state : d.state = c.state
  triggered : d.triggered = c.triggered
  nextJob : d.nextJob = c.nextJob
  mark : ∀ j, (d.jobs.lookup j).map Job.mark = (c.jobs.lookup j).map Job.mark

theorem lookup_insert_mark {jobs : Map ℕ (Job F)} {job : ℕ} {j j' : Job F} (hj : jobs.lookup job = some j)
    (hr : j'.mark = j.mark) (i : ℕ) :
    ((jobs.insert job j').lookup i).map Job.mark = (jobs.lookup i).map Job.mark := by
  by_cases hi : i = job
  · subst hi
    simp [hj, hr]
  · rw [AList.lookup_insert_ne hi]

theorem dispatch_fst {c : Core F κ} {job index : ℕ} {key : κ} {req : ρ} {j : Job F}
    (hj : c.jobs.lookup job = some j) : (c.dispatch job key index req now).1 =
      { c with
        jobs := if index = 0 then c.jobs.insert job { j with dispatched := now } else c.jobs
        inflight := c.inflight.insert key ⟨[job], (c.route j.route).obs.getD index .unobservable,
          c.midsFor ((c.route j.route).obs.getD index .unobservable) now, index, now⟩ } := by
  simp [Core.dispatch, hj]

theorem Carry.same {s t : Core F κ × Option ℕ} (h : Carry q now s t) : Same s.1 t.1 := by
  cases h with
  | finish => exact ⟨rfl, rfl, rfl, fun _ => rfl⟩
  | pick => exact ⟨rfl, rfl, rfl, fun _ => rfl⟩
  | putBack => exact ⟨rfl, rfl, rfl, fun _ => rfl⟩
  | cacheLeg hj => exact ⟨rfl, rfl, rfl, lookup_insert_mark hj rfl⟩
  | complete => exact ⟨rfl, rfl, rfl, fun _ => rfl⟩
  | coalesce => exact ⟨rfl, rfl, rfl, fun _ => rfl⟩
  | block => exact ⟨rfl, rfl, rfl, fun _ => rfl⟩
  | dispatch hj =>
    rw [dispatch_fst hj]
    refine ⟨rfl, rfl, rfl, fun i => ?_⟩
    simp only
    split
    · exact lookup_insert_mark hj (by rfl) i
    · rfl

/-- A quiet move takes a job from one place to another. -/
theorem Carry.places {s t : Core F κ × Option ℕ} (h : Carry q now s t) (i : ℕ) :
    t.1.places i + t.2.toList.count i = s.1.places i + s.2.toList.count i := by
  cases h with
  | finish hr hj => simp only [Core.places, hr, List.count_cons, Option.toList, List.count_nil]; omega
  | pick hc => simp only [Core.places, hc, List.count_cons, Option.toList, List.count_nil]; omega
  | putBack => simp only [Core.places, List.count_cons, Option.toList, List.count_nil]; omega
  | cacheLeg hj => rfl
  | complete hr => simp only [Core.places, List.count_append, List.count_cons, Option.toList, List.count_nil]; omega
  | @coalesce c job index req j f hj hr hf href =>
    have hu := count_held_update InFlight.jobs hf { f with jobs := f.jobs ++ [job] } i
    simp only [Core.places, Option.toList, List.count_nil, List.count_append] at hu ⊢
    omega
  | @block c job index req j f hj hr hf href =>
    have hp := count_held_push c.blockedOn (q.key req) job i
    simp only [Core.places, Option.toList, List.count_nil]
    omega
  | @dispatch c job index req j hj hr hf =>
    rw [dispatch_fst hj]
    have hn := count_held_insert_new InFlight.jobs hf ⟨[job], (c.route j.route).obs.getD index .unobservable,
      c.midsFor ((c.route j.route).obs.getD index .unobservable) now, index, now⟩ i
    simp only [Core.places, Option.toList, List.count_nil] at hn ⊢
    omega

/-- A blocked job's request stays in flight. -/
theorem Carry.blocked {s t : Core F κ × Option ℕ} (h : Carry q now s t)
    (hb : ∀ k l, s.1.blockedOn.lookup k = some l → l ≠ [] → k ∈ s.1.inflight) :
    ∀ k l, t.1.blockedOn.lookup k = some l → l ≠ [] → k ∈ t.1.inflight := by
  cases h with
  | finish => exact hb
  | pick => exact hb
  | putBack => exact hb
  | cacheLeg => exact hb
  | complete => exact hb
  | coalesce => exact fun k l hl hne => AList.mem_insert _ |>.mpr (Or.inr (hb k l hl hne))
  | @block c job index req j f hj hr hf href =>
    intro k l hl hne
    by_cases hk : k = q.key req
    · subst hk
      exact AList.lookup_isSome.mp (by rw [hf]; rfl)
    · rw [AList.lookup_insert_ne hk] at hl
      exact hb k l hl hne
  | dispatch hj hr hf =>
    rw [dispatch_fst hj]
    exact fun k l hl hne => AList.mem_insert _ |>.mpr (Or.inr (hb k l hl hne))

theorem Same.mem {c d : Core F κ} (h : Same c d) (j : ℕ) : j ∈ d.jobs ↔ j ∈ c.jobs := by
  rw [← AList.lookup_isSome, ← AList.lookup_isSome, ← Option.isSome_map (f := Job.mark), h.mark j,
    Option.isSome_map]

theorem Same.lookup {c d : Core F κ} (h : Same c d) {j : ℕ} {job : Job F} (hj : d.jobs.lookup j = some job) :
    ∃ job', c.jobs.lookup j = some job' ∧ job'.mark = job.mark := by
  have hr := h.mark j
  rw [hj] at hr
  obtain ⟨job', h1, h2⟩ := Option.map_eq_some_iff.mp hr.symm
  exact ⟨job', h1, h2⟩

theorem Same.symm {c d : Core F κ} (h : Same c d) : Same d c :=
  ⟨h.state.symm, h.triggered.symm, h.nextJob.symm, fun j => (h.mark j).symm⟩

/-- A change of the queues that keeps the count keeps `Tidy`. -/
theorem Tidy.same {c d : Core F κ} {out out' : List ℕ} {taken : Map ℕ (ReadyJob F)} (h : Tidy c out taken)
    (hs : Same c d) (hp : ∀ i, d.places i + out'.count i = c.places i + out.count i)
    (hb : ∀ k l, d.blockedOn.lookup k = some l → l ≠ [] → k ∈ d.inflight) : Tidy d out' taken where
  once j := hp j ▸ h.once j
  known j hj := (hs.mem j).mpr (h.known j (hp j ▸ hj))
  fresh j hj := hs.nextJob ▸ h.fresh j ((hs.mem j).mp hj)
  owner j job hj := by
    obtain ⟨job', h1, h2⟩ := hs.lookup hj
    rw [hs.state, ← show job'.route = job.route from congrArg Prod.fst h2]
    exact h.owner j job' h1
  priced j r hj := by
    obtain ⟨h1, h2, h3⟩ := h.priced j r hj
    exact ⟨fun hm => h1 ((hs.mem j).mp hm), hs.nextJob ▸ h2, hs.state ▸ h3⟩
  job r j hj := by
    rw [hs.state] at hj
    refine (h.job r j hj).imp_left ?_
    rintro ⟨job, h1, h2⟩
    obtain ⟨job', h3, h4⟩ := hs.symm.lookup h1
    exact ⟨job', h3, (congrArg Prod.fst h4).trans h2⟩
  blocked := hb

theorem Whole.same {c d : Core F κ} {out out' : List ℕ} (h : Whole c out) (hs : Same c d)
    (hp : ∀ i, d.places i + out'.count i = c.places i + out.count i) : Whole d out' :=
  fun j hj => hp j ▸ h j ((hs.mem j).mp hj)

/-! ### Jobs that start and jobs that go -/

/-- A job that was in one place is dropped with its route's mark. -/
theorem Tidy.drop {c d : Core F κ} {out out' : List ℕ} {taken : Map ℕ (ReadyJob F)} {j : ℕ} {job : Job F}
    (h : Tidy c out taken) (hj : c.jobs.lookup j = some job) (hjobs : d.jobs = c.jobs.erase j)
    (hnext : d.nextJob = c.nextJob)
    (hstate : ∀ r, (d.state r).job = if r = job.route then none else (c.state r).job)
    (hp : ∀ i, d.places i + out'.count i = c.places i + out.count i - [j].count i)
    (hb : ∀ k l, d.blockedOn.lookup k = some l → l ≠ [] → k ∈ d.inflight) : Tidy d out' taken where
  once i := by
    have h1 := h.once i
    rw [hp i]
    omega
  known i hi := by
    rw [hp i] at hi
    have h1 := h.once i
    have hne : i ≠ j := by
      rintro rfl
      simp at hi
      omega
    rw [hjobs]
    exact AList.mem_erase.mpr ⟨hne, h.known i (by omega)⟩
  fresh i hi := by
    rw [hjobs] at hi
    exact hnext ▸ h.fresh i (AList.mem_erase.mp hi).2
  owner i job' hi := by
    rw [hjobs] at hi
    have hne : i ≠ j := by
      rintro rfl
      simp at hi
    rw [AList.lookup_erase_ne hne] at hi
    have ho := h.owner i job' hi
    rw [hstate, if_neg]
    · exact ho
    · intro hr
      rw [hr, h.owner j job hj] at ho
      exact hne (Option.some.inj ho).symm
  priced i r hi := by
    obtain ⟨h1, h2, h3⟩ := h.priced i r hi
    refine ⟨fun hm => h1 ?_, hnext ▸ h2, ?_⟩
    · rw [hjobs] at hm
      exact (AList.mem_erase.mp hm).2
    · rw [hstate, if_neg]
      · exact h3
      · intro hr
        rw [hr, h.owner j job hj] at h3
        rw [← Option.some.inj h3] at h1
        exact h1 (AList.lookup_isSome.mp (by rw [hj]; rfl))
  job r i hi := by
    rw [hstate] at hi
    split at hi
    · cases hi
    · rename_i hr
      refine (h.job r i hi).imp_left ?_
      rintro ⟨job', h1, h2⟩
      refine ⟨job', ?_, h2⟩
      rw [hjobs, AList.lookup_erase_ne]
      · exact h1
      · rintro rfl
        rw [hj] at h1
        exact hr (by rw [← h2, Option.some.inj h1])
  blocked := hb

theorem Whole.drop {c d : Core F κ} {out out' : List ℕ} {j : ℕ} (h : Whole c out)
    (hjobs : d.jobs = c.jobs.erase j)
    (hp : ∀ i, d.places i + out'.count i = c.places i + out.count i - [j].count i) : Whole d out' := by
  intro i hi
  rw [hjobs] at hi
  obtain ⟨hne, hm⟩ := AList.mem_erase.mp hi
  have h1 := h i hm
  rw [hp i, List.count_singleton, if_neg (by simpa using Ne.symm hne)]
  omega

/-- A new job is out, with its route's mark. -/
theorem Tidy.start {c : Core F κ} {out : List ℕ} {taken : Map ℕ (ReadyJob F)} {r : ℕ} {cls : Class}
    (h : Tidy c out taken) (hr : (c.state r).job = none) :
    Tidy (c.startJob r cls now).1 ((c.startJob r cls now).2 :: out) taken := by
  have hnew : c.nextJob ∉ c.jobs := fun hm => lt_irrefl _ (h.fresh _ hm)
  have hzero : c.places c.nextJob + out.count c.nextJob = 0 := by
    by_contra h0
    exact hnew (h.known _ (Nat.pos_of_ne_zero h0))
  have hplaces : ∀ i, (c.startJob r cls now).1.places i = c.places i := fun i => rfl
  refine ⟨fun i => ?_, fun i hi => ?_, fun i hi => ?_, fun i job hi => ?_, fun i p hi => ?_, fun r' i hi => ?_, h.blocked⟩
  · have h1 := h.once i
    rw [hplaces]
    by_cases hi : i = c.nextJob
    · subst hi
      simp only [Core.startJob, List.count_cons_self]
      omega
    · rw [List.count_cons_of_ne (by simpa [Core.startJob] using Ne.symm hi)]
      exact h1
  · by_cases hne : i = c.nextJob
    · exact (AList.mem_insert _).mpr (Or.inl hne)
    · rw [hplaces, List.count_cons_of_ne (by simpa [Core.startJob] using Ne.symm hne)] at hi
      exact (AList.mem_insert _).mpr (Or.inr (h.known i hi))
  · rcases (AList.mem_insert _).mp hi with rfl | hi
    · exact Nat.lt_succ_self _
    · exact Nat.lt_succ_of_lt (h.fresh i hi)
  · simp only [Core.startJob, Core.setState_state] at hi ⊢
    by_cases hne : i = c.nextJob
    · subst hne
      rw [AList.lookup_insert] at hi
      cases hi
      simp
    · rw [AList.lookup_insert_ne hne] at hi
      have ho := h.owner i job hi
      rw [Function.update_of_ne]
      · exact ho
      · intro he
        rw [he, hr] at ho
        cases ho
  · obtain ⟨h1, h2, h3⟩ := h.priced i p hi
    refine ⟨fun hm => ?_, Nat.lt_succ_of_lt h2, ?_⟩
    · rcases (AList.mem_insert _).mp hm with rfl | hm
      · exact lt_irrefl _ h2
      · exact h1 hm
    · simp only [Core.startJob, Core.setState_state]
      rw [Function.update_of_ne]
      · exact h3
      · intro he
        rw [he, hr] at h3
        cases h3
  · simp only [Core.startJob, Core.setState_state] at hi ⊢
    by_cases he : r' = r
    · subst he
      rw [Function.update_self] at hi
      cases hi
      exact Or.inl ⟨_, AList.lookup_insert _, rfl⟩
    · rw [Function.update_of_ne he] at hi
      refine (h.job r' i hi).imp_left ?_
      rintro ⟨job, h1, h2⟩
      refine ⟨job, ?_, h2⟩
      rw [AList.lookup_insert_ne]
      · exact h1
      · rintro rfl
        exact hnew (AList.lookup_isSome.mp (by rw [h1]; rfl))

theorem Whole.start {c : Core F κ} {out : List ℕ} {r : ℕ} {cls : Class} (h : Whole c out) :
    Whole (c.startJob r cls now).1 ((c.startJob r cls now).2 :: out) := by
  intro i hi
  have hplaces : (c.startJob r cls now).1.places i = c.places i := rfl
  rw [hplaces]
  rcases (AList.mem_insert _).mp hi with rfl | hi
  · simp [Core.startJob]
  · have h1 := h i hi
    have h2 : out.count i ≤ ((c.startJob r cls now).2 :: out).count i := by
      rw [List.count_cons]
      omega
    omega

/-- Dropping a job's mark changes one route. -/
theorem setState_job {c : Core F κ} {r : ℕ} {st : RouteState F} (hst : st.job = none) (r' : ℕ) :
    ((c.setState r st).state r').job = if r' = r then none else (c.state r').job := by
  rw [Core.setState_state]
  by_cases h : r' = r
  · subst h
    simp [hst]
  · simp [h]

theorem count_filter_ne (l : List ℕ) (j i : ℕ) : (l.filter (· ≠ j)).count i = if i = j then 0 else l.count i := by
  split
  · rename_i h
    subst h
    exact List.count_eq_zero.mpr (by simp)
  · rename_i h
    exact List.count_filter (by simpa using h)

theorem count_held_filter_ne (m : Map κ (List ℕ)) (j i : ℕ) :
    (held id (mapValues (List.filter (· ≠ j)) m)).count i = if i = j then 0 else (held id m).count i := by
  rw [held_mapValues]
  simp only [held, id_eq, List.count_flatMap, Function.comp_def, count_filter_ne]
  split <;> simp

/-- Undoing a job takes it out of the queues. -/
theorem abandon_places {c : Core F κ} {job : ℕ} {j : Job F} (hj : c.jobs.lookup job = some j)
    (hzero : c.places job = 0) (i : ℕ) : (c.abandon job).places i = c.places i := by
  simp only [Core.abandon, hj, Core.places, Core.setState, count_filter_ne, count_held_filter_ne] at hzero ⊢
  split
  · rename_i h
    subst h
    omega
  · rfl

/-- **One move keeps the jobs in at most one place.** -/
theorem Move.tidy {s t : Core F κ × Option ℕ} {out : List ℕ} {taken : Map ℕ (ReadyJob F)}
    (hm : Move q now s t) (h : Tidy s.1 (s.2.toList ++ out) taken) : Tidy t.1 (t.2.toList ++ out) taken := by
  cases hm with
  | carry hc =>
    refine h.same hc.same (fun i => ?_) (hc.blocked h.blocked)
    have hp := hc.places i
    simp only [List.count_append]
    omega
  | @skip c h' job ready hr hj =>
    have hk := h.known job (by simp only [Core.places, hr, List.count_cons_self]; omega)
    exact absurd hk (AList.lookup_eq_none.mp hj)
  | @suppress c h' job ready j hr hj hrep =>
    refine h.drop hj rfl rfl (fun r => setState_job rfl r) (fun i => ?_) h.blocked
    simp only [Core.places, Core.suppress, Core.setState, hr, List.count_cons, List.count_nil]
    omega
  | start hr => exact h.start hr
  | @abandon c job j hj =>
    have hzero : c.places job = 0 := by
      have h1 := h.once job
      simp at h1
      omega
    refine h.drop hj ?_ ?_ ?_ (fun i => ?_) ?_
    · simp [Core.abandon, hj]
    · simp [Core.abandon, hj, Core.setState]
    · intro r
      simp only [Core.abandon, hj]
      exact setState_job rfl r
    · rw [abandon_places hj hzero]
      simp only [Option.toList, List.nil_append, List.count_append]
      omega
    · intro k l hl hne
      simp only [Core.abandon, hj, Core.setState, lookup_mapValues] at hl ⊢
      obtain ⟨l', hl', rfl⟩ := Option.map_eq_some_iff.mp hl
      exact h.blocked k l' hl' fun he => hne (by rw [he]; rfl)

theorem Move.whole {s t : Core F κ × Option ℕ} {out : List ℕ} {taken : Map ℕ (ReadyJob F)}
    (hm : Move q now s t) (h : Tidy s.1 (s.2.toList ++ out) taken) (hw : Whole s.1 (s.2.toList ++ out)) :
    Whole t.1 (t.2.toList ++ out) := by
  cases hm with
  | carry hc =>
    refine hw.same hc.same fun i => ?_
    have hp := hc.places i
    simp only [List.count_append]
    omega
  | @skip c h' job ready hr hj =>
    have hk := h.known job (by simp only [Core.places, hr, List.count_cons_self]; omega)
    exact absurd hk (AList.lookup_eq_none.mp hj)
  | @suppress c h' job ready j hr hj hrep =>
    refine hw.drop (j := job) rfl fun i => ?_
    simp only [Core.places, Core.suppress, Core.setState, hr, List.count_cons, List.count_nil]
    omega
  | start hr => exact hw.start
  | @abandon c job j hj =>
    have hzero : c.places job = 0 := by
      have h1 := h.once job
      simp at h1
      omega
    refine hw.drop (j := job) (by simp [Core.abandon, hj]) fun i => ?_
    rw [abandon_places hj hzero]
    simp only [Option.toList, List.nil_append, List.count_append]
    omega

/-- Every move of a call keeps both. -/
theorem moves_tidy {s t : Core F κ × Option ℕ} {out : List ℕ} {taken : Map ℕ (ReadyJob F)}
    (hm : ReflTransGen (Move q now) s t) (h : Tidy s.1 (s.2.toList ++ out) taken) :
    Tidy t.1 (t.2.toList ++ out) taken ∧
      (Whole s.1 (s.2.toList ++ out) → Whole t.1 (t.2.toList ++ out)) := by
  induction hm with
  | refl => exact ⟨h, id⟩
  | tail _ hm ih => exact ⟨hm.tidy ih.1, fun hw => hm.whole ih.1 (ih.2 hw)⟩

/-! ### Ticks -/

/-- Triggers differ, jobs do not. -/
structure Touched (c d : Core F κ) : Prop where
  job : ∀ r, (d.state r).job = (c.state r).job
  jobs : d.jobs = c.jobs
  nextJob : d.nextJob = c.nextJob
  queues : d.ready = c.ready ∧ d.continuations = c.continuations ∧ d.inflight = c.inflight ∧ d.blockedOn = c.blockedOn

theorem Touched.refl (c : Core F κ) : Touched c c := ⟨fun _ => rfl, rfl, rfl, rfl, rfl, rfl, rfl⟩

theorem Touched.trans {c d e : Core F κ} (h : Touched c d) (h' : Touched d e) : Touched c e := by
  obtain ⟨h1, h2, h3, h4, h5, h6, h7⟩ := h
  obtain ⟨g1, g2, g3, g4, g5, g6, g7⟩ := h'
  exact ⟨fun r => (g1 r).trans (h1 r), g2.trans h2, g3.trans h3, g4.trans h4, g5.trans h5, g6.trans h6, g7.trans h7⟩

theorem touchOne_touched (c : Core F κ) (at_ : Instant) (r : ℕ) : Touched c (c.touchOne at_ now r) := by
  have hset : ∀ st : RouteState F, st.job = (c.state r).job → ∀ r', ((c.setState r st).state r').job = (c.state r').job := by
    intro st hst r'
    rw [Core.setState_state]
    by_cases hr : r' = r
    · subst hr
      simpa using hst
    · rw [Function.update_of_ne hr]
  unfold Core.touchOne
  simp only
  split
  · exact .refl c
  · split
    · exact ⟨hset _ rfl, rfl, rfl, rfl, rfl, rfl, rfl⟩
    · split
      · exact ⟨hset _ rfl, rfl, rfl, rfl, rfl, rfl, rfl⟩
      · exact .refl c

theorem touch_touched (at_ : Instant) : ∀ (routes : List ℕ) (c : Core F κ), Touched c (c.touch routes at_ now)
  | [], c => .refl c
  | r :: routes, c => (touchOne_touched c at_ r).trans (touch_touched at_ routes (c.touchOne at_ now r))

theorem onTick_touched (c : Core F κ) (t : HotTick F) : Touched c (c.onTick t now) := by
  cases t with
  | pool dex mid received =>
    refine Touched.trans ?_ (touch_touched received _ _)
    have hmean : ∀ d : Core F κ, Touched d (d.observeMean received now) := fun d => by
      unfold Core.observeMean
      split
      · exact .refl d
      · exact ⟨fun _ => rfl, rfl, rfl, rfl, rfl, rfl, rfl⟩
    obtain ⟨h1, h2, h3, h4, h5, h6, h7⟩ := hmean { c with mids := c.mids.insert dex (mid, received) }
    exact ⟨h1, h2, h3, h4, h5, h6, h7⟩
  | oracle symbol price received =>
    have h : Touched c { c with oracles := Function.update c.oracles symbol (some price) } :=
      ⟨fun _ => rfl, rfl, rfl, rfl, rfl, rfl, rfl⟩
    exact h.trans (touch_touched received _ _)

theorem Touched.places {c d : Core F κ} (h : Touched c d) (i : ℕ) : d.places i = c.places i := by
  obtain ⟨-, -, -, h4, h5, h6, h7⟩ := h
  simp only [Core.places, h4, h5, h6, h7]

theorem Touched.tidy {c d : Core F κ} {out : List ℕ} {taken : Map ℕ (ReadyJob F)} (ht : Touched c d)
    (h : Tidy c out taken) : Tidy d out taken where
  once i := ht.places i ▸ h.once i
  known i hi := ht.jobs ▸ h.known i (ht.places i ▸ hi)
  fresh i hi := ht.nextJob ▸ h.fresh i (ht.jobs ▸ hi)
  owner i job hi := by
    rw [ht.job]
    exact h.owner i job (ht.jobs ▸ hi)
  priced i r hi := by
    rw [ht.job, ht.jobs, ht.nextJob]
    exact h.priced i r hi
  job r i hi := by
    rw [ht.job] at hi
    rw [ht.jobs]
    exact h.job r i hi
  blocked k l hl hne := by
    obtain ⟨-, -, -, -, -, h6, h7⟩ := ht
    rw [h7] at hl
    rw [h6]
    exact h.blocked k l hl hne

theorem Touched.whole {c d : Core F κ} {out : List ℕ} (ht : Touched c d) (h : Whole c out) : Whole d out := by
  intro i hi
  rw [ht.jobs] at hi
  rw [ht.places i]
  exact h i hi

/-! ### Answers -/

theorem Tidy.mono {c : Core F κ} {out out' : List ℕ} {taken : Map ℕ (ReadyJob F)} (h : Tidy c out taken)
    (ho : ∀ i, out'.count i ≤ out.count i) : Tidy c out' taken :=
  { h with
    once := fun i => (Nat.add_le_add_left (ho i) _).trans (h.once i)
    known := fun i hi => h.known i (lt_of_lt_of_le hi (Nat.add_le_add_left (ho i) _)) }

/-- The router while an answer is handed out: the waiting jobs are out, the
blocked ones try again. -/
def Core.answered (c : Core F κ) (key : κ) : Core F κ :=
  { c with
    inflight := c.inflight.erase key
    blockedOn := c.blockedOn.erase key
    continuations := c.continuations ++ (c.blockedOn.lookup key).getD [] }

theorem answered_places {c : Core F κ} {key : κ} {f : InFlight F} (hf : c.inflight.lookup key = some f) (i : ℕ) :
    (c.answered key).places i + f.jobs.count i = c.places i := by
  have h1 := count_held_erase InFlight.jobs hf i
  simp only [Core.places, Core.answered, List.count_append]
  cases hb : c.blockedOn.lookup key with
  | none =>
    rw [erase_of_lookup_none hb]
    simp only [Option.getD_none, List.count_nil]
    omega
  | some l =>
    have h2 := count_held_erase id hb i
    simp only [Option.getD_some, id_eq] at h2 ⊢
    omega

theorem answered_tidy {c : Core F κ} {key : κ} {f : InFlight F} {out : List ℕ} {taken : Map ℕ (ReadyJob F)}
    (h : Tidy c out taken) (hf : c.inflight.lookup key = some f) :
    Tidy (c.answered key) (f.jobs ++ out) taken := by
  refine h.same ⟨rfl, rfl, rfl, fun _ => rfl⟩ (fun i => ?_) fun k l hl hne => ?_
  · have hp := answered_places hf i
    rw [List.count_append]
    omega
  · by_cases hk : k = key
    · subst hk
      simp [Core.answered] at hl
    · simp only [Core.answered, AList.lookup_erase_ne hk] at hl
      exact AList.mem_erase.mpr ⟨hk, h.blocked k l hl hne⟩

theorem answered_whole {c : Core F κ} {key : κ} {f : InFlight F} {out : List ℕ} (h : Whole c out)
    (hf : c.inflight.lookup key = some f) : Whole (c.answered key) (f.jobs ++ out) := by
  refine h.same ⟨rfl, rfl, rfl, fun _ => rfl⟩ fun i => ?_
  have hp := answered_places hf i
  rw [List.count_append]
  omega

/-- A leg that comes for another index than the job's next leaves the job alone. -/
theorem deliver_skip {c : Core F κ} {leg : BuiltLeg} {obs : Observes} {index job : ℕ}
    (h : ∀ j, c.jobs.lookup job = some j → j.legs.length ≠ index) : c.deliver leg obs index now job = c := by
  unfold Core.deliver
  cases hj : c.jobs.lookup job with
  | none => rfl
  | some j => simp only [if_pos (h j hj)]

/-- The job's next leg puts it in a queue. -/
theorem deliver_takes {c : Core F κ} {leg : BuiltLeg} {obs : Observes} {index job : ℕ} {j : Job F}
    (hj : c.jobs.lookup job = some j) (hi : j.legs.length = index) :
    Same c (c.deliver leg obs index now job) ∧
      (∀ i, (c.deliver leg obs index now job).places i = c.places i + [job].count i) ∧
      (c.deliver leg obs index now job).inflight = c.inflight ∧
      (c.deliver leg obs index now job).blockedOn = c.blockedOn ∧
      ∀ i, i ≠ job → (c.deliver leg obs index now job).jobs.lookup i = c.jobs.lookup i := by
  unfold Core.deliver
  simp only [hj, hi, ne_eq, not_true_eq_false, if_false]
  split
  · refine ⟨⟨rfl, rfl, rfl, lookup_insert_mark hj (by rfl)⟩, fun i => ?_, rfl, rfl,
      fun i hne => AList.lookup_insert_ne hne⟩
    simp only [Core.places, List.count_append]
    omega
  · refine ⟨⟨rfl, rfl, rfl, lookup_insert_mark hj (by rfl)⟩, fun i => ?_, rfl, rfl,
      fun i hne => AList.lookup_insert_ne hne⟩
    simp only [Core.places, List.count_append]
    omega

theorem deliver_tidy {c : Core F κ} {leg : BuiltLeg} {obs : Observes} {index job : ℕ} {out : List ℕ}
    {taken : Map ℕ (ReadyJob F)} (h : Tidy c (job :: out) taken) :
    Tidy (c.deliver leg obs index now job) out taken := by
  by_cases hskip : ∀ j, c.jobs.lookup job = some j → j.legs.length ≠ index
  · rw [deliver_skip hskip]
    exact h.mono fun i => List.count_le_count_cons
  · push Not at hskip
    obtain ⟨j, hj, hi⟩ := hskip
    obtain ⟨hs, hp, hf, hb, -⟩ := @deliver_takes _ _ _ _ now _ leg obs _ _ _ hj hi
    refine h.same hs (fun i => ?_) fun k l hl hne => ?_
    · rw [hp i]
      simp only [List.count_cons, List.count_nil]
      omega
    · rw [hb] at hl
      rw [hf]
      exact h.blocked k l hl hne

/-- The jobs that wait for the answer wait for it as their next leg. -/
def NextLeg (c : Core F κ) (jobs : List ℕ) (index : ℕ) : Prop :=
  ∀ i ∈ jobs, ∀ j, c.jobs.lookup i = some j → j.legs.length = index

instance (c : Core F κ) (jobs : List ℕ) (index : ℕ) : Decidable (NextLeg c jobs index) :=
  inferInstanceAs (Decidable (∀ i ∈ jobs, ∀ j ∈ c.jobs.lookup i, j.legs.length = index))

theorem delivers_tidy {leg : BuiltLeg} {obs : Observes} {index : ℕ} {out : List ℕ} {taken : Map ℕ (ReadyJob F)} :
    ∀ {jobs : List ℕ} {c : Core F κ}, Tidy c (jobs ++ out) taken →
      Tidy (jobs.foldl (fun c job => c.deliver leg obs index now job) c) out taken ∧
      (NextLeg c jobs index → Whole c (jobs ++ out) →
        Whole (jobs.foldl (fun c job => c.deliver leg obs index now job) c) out) := by
  intro jobs
  induction jobs with
  | nil => intro c h; exact ⟨h, fun _ hw => hw⟩
  | cons job jobs ih =>
    intro c h
    obtain ⟨h1, h2⟩ := ih (@deliver_tidy _ _ _ _ now _ leg obs index _ _ _ h)
    refine ⟨h1, fun hn hw => ?_⟩
    have hm : job ∈ c.jobs := h.known job (by simp)
    obtain ⟨j, hj⟩ := Option.isSome_iff_exists.mp (AList.lookup_isSome.mpr hm)
    obtain ⟨hs, hp, -, -, hother⟩ :=
      @deliver_takes _ _ _ _ now _ leg obs _ _ _ hj (hn job List.mem_cons_self j hj)
    refine h2 (fun i hi k hk => ?_) (hw.same hs fun i => ?_)
    · have hne : i ≠ job := by
        rintro rfl
        have h3 := h.once i
        have h4 : 0 < (jobs ++ out).count i := List.count_pos_iff.mpr (List.mem_append_left _ hi)
        rw [List.cons_append, List.count_cons_self] at h3
        omega
      rw [hother i hne] at hk
      exact hn i (List.mem_cons_of_mem _ hi) k hk
    · rw [hp i]
      simp only [List.cons_append, List.count_cons, List.count_nil]
      omega

/-- A failed job leaves the router. -/
theorem fail_drops {c : Core F κ} {rateLimited : Bool} {job : ℕ} {j : Job F} (hj : c.jobs.lookup job = some j) :
    (c.fail rateLimited now job).jobs = c.jobs.erase job ∧
      (c.fail rateLimited now job).nextJob = c.nextJob ∧
      (∀ r, ((c.fail rateLimited now job).state r).job = if r = j.route then none else (c.state r).job) ∧
      (∀ i, (c.fail rateLimited now job).places i = c.places i) ∧
      (c.fail rateLimited now job).inflight = c.inflight ∧
      (c.fail rateLimited now job).blockedOn = c.blockedOn := by
  unfold Core.fail
  simp only [hj]
  split
  · exact ⟨rfl, rfl, fun r => setState_job rfl r, fun _ => rfl, rfl, rfl⟩
  · exact ⟨rfl, rfl, fun r => setState_job rfl r, fun _ => rfl, rfl, rfl⟩

theorem fails_tidy {rateLimited : Bool} {out : List ℕ} {taken : Map ℕ (ReadyJob F)} :
    ∀ {jobs : List ℕ} {c : Core F κ}, Tidy c (jobs ++ out) taken →
      Tidy (jobs.foldl (fun c job => c.fail rateLimited now job) c) out taken ∧
      (Whole c (jobs ++ out) → Whole (jobs.foldl (fun c job => c.fail rateLimited now job) c) out) := by
  intro jobs
  induction jobs with
  | nil => intro c h; exact ⟨h, id⟩
  | cons job jobs ih =>
    intro c h
    have hm : job ∈ c.jobs := h.known job (by simp)
    obtain ⟨j, hj⟩ := Option.isSome_iff_exists.mp (AList.lookup_isSome.mpr hm)
    obtain ⟨h1, h2, h3, h4, h5, h6⟩ := @fail_drops _ _ _ _ now _ rateLimited _ _ hj
    have hp : ∀ i, (c.fail rateLimited now job).places i + (jobs ++ out).count i =
        c.places i + (job :: jobs ++ out).count i - [job].count i := fun i => by
      rw [h4 i]
      simp only [List.cons_append, List.count_cons, List.count_nil]
      omega
    have hb : ∀ k l, (c.fail rateLimited now job).blockedOn.lookup k = some l → l ≠ [] →
        k ∈ (c.fail rateLimited now job).inflight := by
      rw [h5, h6]
      exact h.blocked
    obtain ⟨g1, g2⟩ := ih (h.drop hj h1 h2 h3 hp hb)
    exact ⟨g1, fun hw => g2 (hw.drop h1 hp)⟩

theorem onLeg_tidy {c : Core F κ} {key : κ} {result : Except Bool BuiltLeg} {out : List ℕ}
    {taken : Map ℕ (ReadyJob F)} (h : Tidy c out taken) :
    Tidy (c.onLeg key result now) out taken ∧
      ((∀ f leg, c.inflight.lookup key = some f → result = .ok leg → NextLeg c f.jobs f.index) →
        Whole c out → Whole (c.onLeg key result now) out) := by
  unfold Core.onLeg
  cases hf : c.inflight.lookup key with
  | none => exact ⟨h, fun _ hw => hw⟩
  | some f =>
    have ha := answered_tidy h hf
    cases result with
    | ok leg =>
      have ha' : Tidy ({ c.answered key with cache := Function.update c.cache key (some ⟨leg, f.obs, f.mids⟩) })
          (f.jobs ++ out) taken := ⟨ha.once, ha.known, ha.fresh, ha.owner, ha.priced, ha.job, ha.blocked⟩
      obtain ⟨h1, h2⟩ := @delivers_tidy _ _ _ _ now leg f.obs f.index _ _ _ _ ha'
      exact ⟨h1, fun hn hw => h2 (hn f leg rfl rfl) (answered_whole hw hf)⟩
    | error rateLimited =>
      obtain ⟨h1, h2⟩ := @fails_tidy _ _ _ _ now rateLimited _ _ _ _ ha
      exact ⟨h1, fun _ hw => h2 (answered_whole hw hf)⟩

/-! ### Pricing -/

/-- A job handed out leaves the router and is priced. -/
theorem takeReady_tidy {c : Core F κ} {job : ℕ} {j : Job F} {out : List ℕ} {taken : Map ℕ (ReadyJob F)}
    (h : Tidy c out taken) (hm : job ∈ out) (hj : c.jobs.lookup job = some j) :
    (c.takeReady job).2 = some j.toReady ∧
      Tidy (c.takeReady job).1 (out.erase job) (taken.insert job j.toReady) ∧
      (Whole c out → Whole (c.takeReady job).1 (out.erase job)) := by
  have hcore : (c.takeReady job).1 =
      { c.setState j.route { c.state j.route with lastLegs := j.legs.map BuiltLeg.sent } with
        jobs := c.jobs.erase job } := by
    simp [Core.takeReady, hj]
  have hstate : ∀ r, ((c.takeReady job).1.state r).job = (c.state r).job := by
    intro r
    rw [hcore]
    simp only [Core.setState_state]
    by_cases hr : r = j.route
    · subst hr
      simp
    · rw [Function.update_of_ne hr]
  have hplaces : ∀ i, (c.takeReady job).1.places i = c.places i := fun i => by rw [hcore]; rfl
  have hjobs : (c.takeReady job).1.jobs = c.jobs.erase job := by rw [hcore]
  have hout : ∀ i, (out.erase job).count i = out.count i - [job].count i := fun i => by
    rw [List.count_erase, List.count_singleton]
  have hpos : 0 < out.count job := List.count_pos_iff.mpr hm
  have hzero : c.places job + out.count job - 1 = 0 := by
    have h1 := h.once job
    omega
  refine ⟨by simp [Core.takeReady, hj], ⟨fun i => ?_, fun i hi => ?_, fun i hi => ?_, fun i k hi => ?_,
    fun i r hi => ?_, fun r i hi => ?_, ?_⟩, fun hw i hi => ?_⟩
  · have h1 := h.once i
    rw [hplaces, hout]
    omega
  · rw [hplaces, hout] at hi
    have hne : i ≠ job := by
      rintro rfl
      simp at hi
      omega
    rw [hjobs]
    exact AList.mem_erase.mpr ⟨hne, h.known i (by omega)⟩
  · rw [hjobs] at hi
    rw [hcore]
    exact h.fresh i (AList.mem_erase.mp hi).2
  · rw [hjobs] at hi
    rw [hstate]
    by_cases hne : i = job
    · subst hne
      simp at hi
    · rw [AList.lookup_erase_ne hne] at hi
      exact h.owner i k hi
  · rw [hstate, hjobs]
    by_cases hne : i = job
    · subst hne
      rw [AList.lookup_insert] at hi
      cases hi
      refine ⟨fun hm => (AList.mem_erase.mp hm).1 rfl, ?_, h.owner i j hj⟩
      rw [hcore]
      exact h.fresh i (AList.lookup_isSome.mp (by rw [hj]; rfl))
    · rw [AList.lookup_insert_ne hne] at hi
      obtain ⟨h1, h2, h3⟩ := h.priced i r hi
      refine ⟨fun hm => h1 (AList.mem_erase.mp hm).2, ?_, h3⟩
      rw [hcore]
      exact h2
  · rw [hstate] at hi
    rw [hjobs]
    by_cases hne : i = job
    · subst hne
      refine Or.inr ⟨_, AList.lookup_insert _, ?_⟩
      rcases h.job r i hi with ⟨k, h1, h2⟩ | ⟨p, h1, h2⟩
      · rw [hj] at h1
        cases h1
        exact h2
      · exact absurd (AList.lookup_isSome.mp (by rw [hj]; rfl)) (h.priced i p h1).1
    · rw [AList.lookup_erase_ne hne, AList.lookup_insert_ne hne]
      exact h.job r i hi
  · rw [hcore]
    exact h.blocked
  · rw [hjobs] at hi
    obtain ⟨hne, hm⟩ := AList.mem_erase.mp hi
    have h1 := hw i hm
    rw [hplaces, hout, List.count_singleton, if_neg (by simpa using Ne.symm hne)]
    exact h1

theorem recheck_touched (c : Core F κ) (r : ℕ) : Touched c (c.recheck r now) := by
  unfold Core.recheck
  split
  · refine ⟨fun r' => ?_, rfl, rfl, rfl, rfl, rfl, rfl⟩
    simp only [Core.setState_state]
    by_cases hr : r' = r
    · subst hr
      simp
    · rw [Function.update_of_ne hr]
  · exact .refl c

theorem decided_job (st : RouteState F) (grossBp netBp : F) (inputs : Inputs F) :
    (Core.decided st grossBp netBp inputs now).job = none := by
  unfold Core.decided Core.learn
  simp only
  split <;> rfl

/-- A decision clears the route's mark and touches no job. -/
theorem onDecided_touched (c : Core F κ) (r : ℕ) (grossBp netBp : F) (inputs : Inputs F) (started : Instant) :
    ∃ st : RouteState F, st.job = none ∧ Touched (c.setState r st) (c.onDecided r grossBp netBp inputs started now) := by
  have hjob := @decided_job _ _ now (c.state r) grossBp netBp inputs
  unfold Core.onDecided
  simp only
  split
  · exact ⟨{ Core.decided (c.state r) grossBp netBp inputs now with trigger := none }, hjob, recheck_touched _ r⟩
  · exact ⟨Core.decided (c.state r) grossBp netBp inputs now, hjob, fun _ => rfl, rfl, rfl, rfl, rfl, rfl, rfl⟩

/-- A priced job is decided, and its route is free. -/
theorem decided_tidy {c : Core F κ} {job : ℕ} {p : ReadyJob F} {out : List ℕ} {taken : Map ℕ (ReadyJob F)}
    {st : RouteState F} (h : Tidy c out taken) (hp : taken.lookup job = some p) (hst : st.job = none) :
    Tidy (c.setState p.route st) out (taken.erase job) := by
  obtain ⟨hgone, -, hjob⟩ := h.priced job p hp
  have hstate := setState_job (c := c) (r := p.route) hst
  refine ⟨h.once, h.known, h.fresh, fun i k hi => ?_, fun i r hi => ?_, fun r i hi => ?_, h.blocked⟩
  · have ho := h.owner i k hi
    rw [hstate, if_neg]
    · exact ho
    · intro hr
      rw [hr, hjob] at ho
      cases ho
      have hi' : c.jobs.lookup job = some k := hi
      exact hgone (AList.lookup_isSome.mp (by rw [hi']; rfl))
  · have hne : i ≠ job := by
      rintro rfl
      simp at hi
    rw [AList.lookup_erase_ne hne] at hi
    obtain ⟨h1, h2, h3⟩ := h.priced i r hi
    refine ⟨h1, h2, ?_⟩
    rw [hstate, if_neg]
    · exact h3
    · intro hr
      rw [hr, hjob] at h3
      exact hne (Option.some.inj h3).symm
  · rw [hstate] at hi
    split at hi
    · cases hi
    · rename_i hr
      refine (h.job r i hi).imp_right ?_
      rintro ⟨p', h1, h2⟩
      refine ⟨p', ?_, h2⟩
      rw [AList.lookup_erase_ne]
      · exact h1
      · rintro rfl
        rw [hp] at h1
        cases h1
        exact hr h2.symm

/-! ### Whole runs -/

/-- When an answer comes, the jobs that wait for it wait for it as their next leg. -/
def Aligned (s : Sys F κ) : Event F κ → Prop
  | .leg key (.ok _) _ => ∀ f, s.core.inflight.lookup key = some f → NextLeg s.core f.jobs f.index
  | _ => True

instance (s : Sys F κ) : (e : Event F κ) → Decidable (Aligned s e)
  | .leg key (.ok _) _ =>
    inferInstanceAs (Decidable (∀ f ∈ s.core.inflight.lookup key, NextLeg s.core f.jobs f.index))
  | .leg _ (.error _) _ => .isTrue trivial
  | .tick .. => .isTrue trivial
  | .next .. => .isTrue trivial
  | .takeReady .. => .isTrue trivial
  | .decided .. => .isTrue trivial
  | .limiter .. => .isTrue trivial

/-- **One event keeps the jobs in at most one place, and loses none when it is aligned.** -/
theorem tidy_step {s t : Sys F κ} {e : Event F κ} (h : Tidy s.core s.handed s.taken) (hs : s.step q e = some t) :
    Tidy t.core t.handed t.taken ∧
      (Aligned s e → Whole s.core s.handed → Whole t.core t.handed) := by
  cases e with
  | tick tk now =>
    cases hs
    exact ⟨(onTick_touched _ _).tidy h, fun _ hw => (onTick_touched _ _).whole hw⟩
  | next now reads =>
    obtain ⟨h', hm, hh, ht⟩ := step_next hs
    obtain ⟨h1, h2⟩ := @moves_tidy _ _ _ _ _ _ _ _ _ s.handed _ hm h
    rw [hh, ht]
    exact ⟨h1, fun _ hw => h2 hw⟩
  | leg key result now =>
    cases hs
    obtain ⟨h1, h2⟩ := @onLeg_tidy _ _ _ _ now _ key result _ _ h
    refine ⟨h1, fun ha hw => h2 ?_ hw⟩
    rintro f leg hf rfl
    exact ha f hf
  | takeReady job =>
    simp only [Sys.step] at hs
    split at hs
    · rename_i hm
      have hj : job ∈ s.core.jobs := h.known job (by
        have := List.count_pos_iff.mpr hm
        omega)
      obtain ⟨j, hj⟩ := Option.isSome_iff_exists.mp (AList.lookup_isSome.mpr hj)
      obtain ⟨h1, h2, h3⟩ := takeReady_tidy h hm hj
      rcases ht : s.core.takeReady job with ⟨c, _ | r⟩
      · rw [ht] at h1
        cases h1
      · rw [ht] at h1 h2 h3 hs
        cases hs
        cases h1
        exact ⟨h2, fun _ hw => h3 hw⟩
    · cases hs
  | decided job grossBp netBp now =>
    obtain ⟨p, hp, rfl⟩ := Option.map_eq_some_iff.mp hs
    obtain ⟨st, hst, ht⟩ := @onDecided_touched _ _ _ _ now s.core p.route grossBp netBp p.inputs p.picked
    have hw : Whole s.core s.handed → Whole (s.core.setState p.route st) s.handed := id
    exact ⟨ht.tidy (decided_tidy h hp hst), fun _ => ht.whole ∘ hw⟩
  | limiter budget =>
    cases hs
    exact ⟨h, fun _ hw => hw⟩

theorem new_tidy (cfg : RouterConfig F) (plans : List CandidatePlan) (observes : LegSpec → Observes)
    (oracleOf : Address → Option String) :
    Tidy (Core.new cfg plans observes oracleOf : Core F κ) [] ∅ ∧
      Whole (Core.new cfg plans observes oracleOf : Core F κ) [] := by
  refine ⟨⟨fun j => ?_, fun j h => ?_, fun j h => ?_, fun j job h => ?_, fun j r h => ?_, fun r j h => ?_,
    fun k l h => ?_⟩, fun j h => ?_⟩
  · simp [Core.places, Core.new]
  · simp [Core.places, Core.new] at h
  · exact absurd h (AList.notMem_empty j)
  · cases h
  · cases h
  · cases h
  · cases h
  · exact absurd h (AList.notMem_empty j)

/-- **Every job is in exactly one place** in every run whose answers meet the
jobs that wait for them as their next leg; a route's job exists or is being
priced; and a blocked job's request is in flight. -/
theorem jobs_in_one_place {cfg : RouterConfig F} {plans : List CandidatePlan} {observes : LegSpec → Observes}
    {oracleOf : Address → Option String} {budget : WindowLimiter} {es : List (Event F κ)} {s : Sys F κ}
    (hr : Run (fun s e t => Aligned s e ∧ s.step q e = some t) (Sys.new cfg plans observes oracleOf budget) es s) :
    (∀ j ∈ s.core.jobs, s.core.places j + s.handed.count j = 1) ∧
    (∀ r j, (s.core.state r).job = some j →
      j ∈ s.core.jobs ∨ ∃ p, s.taken.lookup j = some p ∧ p.route = r) ∧
    (∀ k l, s.core.blockedOn.lookup k = some l → l ≠ [] → k ∈ s.core.inflight) := by
  have h : Tidy s.core s.handed s.taken ∧ Whole s.core s.handed := by
    refine hr.invariant (P := fun s => Tidy s.core s.handed s.taken ∧ Whole s.core s.handed) (new_tidy ..) ?_
    rintro s e t ⟨h1, h2⟩ ⟨ha, hs⟩
    obtain ⟨g1, g2⟩ := tidy_step h1 hs
    exact ⟨g1, g2 ha h2⟩
  refine ⟨fun j hj => ?_, fun r j hj => (h.1.job r j hj).imp_left ?_, h.1.blocked⟩
  · have h1 := h.1.once j
    have h2 := h.2 j hj
    omega
  · rintro ⟨job, h1, -⟩
    exact AList.lookup_isSome.mp (by rw [h1]; rfl)

/-! ### A job that joins a request for another leg -/

/-- Requests that are their own keys: the tokens and the amount. -/
def plainRequests : Requests (ℕ × ℕ × ℕ) (ℕ × ℕ × ℕ) :=
  ⟨fun spec amount => (spec.input.id, spec.output.id, amount), id⟩

def plainLeg (input output : ℕ) : LegSpec := ⟨⟨input⟩, ⟨output⟩, .any, .fast, none⟩

/-- A triangle over tokens 1, 3, 2 and a round trip over 1, 2: both end with a
swap of token 2 into token 1. -/
def twoRoutes : List CandidatePlan :=
  [⟨1000, [plainLeg 1 3, plainLeg 3 2, plainLeg 2 1]⟩, ⟨2000, [plainLeg 1 2, plainLeg 2 1]⟩]

def defaultConfig : RouterConfig ℚ := ⟨3, 3, 1 / 2, 2500000000, 1500000000, 90000000000⟩

def twoRoutesStart : Sys ℚ (ℕ × ℕ × ℕ) :=
  Sys.new defaultConfig twoRoutes (fun _ => .unobservable) (fun _ => none) (.new 20 10000000000 1)

def builtLeg (out : ℕ) (sent : Instant) : BuiltLeg := ⟨⟨⟨0⟩, ⟨0⟩, 0, out, 0, 0, ⟨0⟩, none⟩, sent⟩

def plainReads : Reads ℚ := ⟨fun _ _ => (0, 0), 0, fun _ => 0⟩

/-- Both routes' last legs ask for a swap of 7 of token 2: the round trip's
second leg joins the triangle's third. -/
def joinedRun : List (Event ℚ (ℕ × ℕ × ℕ)) :=
  [.next 0 plainReads, .next 0 plainReads,
    .leg (1, 3, 1000) (.ok (builtLeg 5 0)) 1, .next 1 plainReads,
    .leg (3, 2, 5) (.ok (builtLeg 7 1)) 2, .next 2 plainReads,
    .leg (1, 2, 2000) (.ok (builtLeg 7 0)) 3, .next 3 plainReads,
    .leg (2, 1, 7) (.ok (builtLeg 1001 2)) 4]

/-- The round trip's job is nowhere after the answer, and its route is stuck. -/
theorem joined_job_lost : ∃ s : Sys ℚ (ℕ × ℕ × ℕ),
    Run (fun s e t => s.step plainRequests e = some t) twoRoutesStart joinedRun s ∧
      2 ∈ s.core.jobs ∧ (s.core.state 1).job = some 2 ∧ s.core.places 2 + s.handed.count 2 = 0 := by
  have h : (joinedRun.foldlM (Sys.step plainRequests) twoRoutesStart).map (fun s =>
      decide (2 ∈ s.core.jobs ∧ (s.core.state 1).job = some 2 ∧ s.core.places 2 + s.handed.count 2 = 0)) =
      some true := by decide +kernel
  obtain ⟨s, hs, hd⟩ := Option.map_eq_some_iff.mp h
  exact ⟨s, Run.of_foldlM hs, of_decide_eq_true hd⟩

/-- A step whose answer, if it is one, meets the jobs that wait for it as their next leg. -/
def Sys.alignedStep (s : Sys ℚ (ℕ × ℕ × ℕ)) (e : Event ℚ (ℕ × ℕ × ℕ)) : Option (Sys ℚ (ℕ × ℕ × ℕ)) :=
  if Aligned s e then s.step plainRequests e else none

theorem aligned_run {es : List (Event ℚ (ℕ × ℕ × ℕ))} {s t : Sys ℚ (ℕ × ℕ × ℕ)} (h : es.foldlM Sys.alignedStep s = some t) :
    Run (fun s e t => Aligned s e ∧ s.step plainRequests e = some t) s es t := by
  refine (Run.of_foldlM h).mono fun s e t he => ?_
  unfold Sys.alignedStep at he
  split at he
  · rename_i ha
    exact ⟨ha, he⟩
  · cases he

/-- Two routes started, and the first's first leg answered: its job waits for the second, in one place. -/
theorem jobs_in_one_place_answered : ∃ s : Sys ℚ (ℕ × ℕ × ℕ),
    (s.core.jobs.lookup 1).map (fun j => j.legs.length) = some 1 ∧ s.core.places 1 + s.handed.count 1 = 1 := by
  have h : ((joinedRun.take 4).foldlM Sys.alignedStep twoRoutesStart).map (fun s =>
      decide ((s.core.jobs.lookup 1).map (fun j => j.legs.length) = some 1)) = some true := by decide +kernel
  obtain ⟨s, hs, hd⟩ := Option.map_eq_some_iff.mp h
  have hlegs := of_decide_eq_true hd
  have hmem : 1 ∈ s.core.jobs := AList.lookup_isSome.mp (by
    obtain ⟨j, hj, -⟩ := Option.map_eq_some_iff.mp hlegs
    rw [hj]
    rfl)
  exact ⟨s, hlegs, (jobs_in_one_place (aligned_run hs)).1 1 hmem⟩

end Router
end MobiusSearcher
