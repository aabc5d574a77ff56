/-
# A call of `next`, seen from its start

Within one call of `next` the market does not change, legs are only added to
jobs, and jobs are only added to requests. `Since s now c` relates a state `c`
inside or at the end of a call to the state `s` it began in: every leg and every
wait of `c` was there at the start, or is new, and then the quote reflected
the market at the start of the call (`Core.reflects`) or its request went out
in this call. A call sends one request at most, the one it returns, for the next
leg of a job (`Sent`).

`Unchanged` says what it means that a quote shows the market of a later
moment: the pools it observes were fresh then and are now, and none moved.

Key definitions: `Core.Held`, `Unchanged`, `Since`, `Sent`.
Key theorems: `unmoved_unchanged`, `Move.since`, `moves_since`, `next_sent`.
-/
import MobiusSearcher.Router.Custody

set_option linter.unusedSectionVars false

namespace MobiusSearcher
namespace Router

open Keyed FloatOps Relation

variable {F : Type*} [FloatOps F] {ρ κ : Type*} [DecidableEq κ]

/-! ### Pools that have not moved -/

/-- The pool's mid was fresh at both moments, and did not move from one to the other. -/
def Still (c₀ : Core F κ) (n₀ : Instant) (c₁ : Core F κ) (n₁ : Instant) (p : String) : Prop :=
  ∃ m₀ m₁, c₀.freshMid p n₀ = some m₀ ∧ c₁.freshMid p n₁ = some m₁ ∧
    lt (movedBp (some m₁) (some m₀)) unchangedBp = true

/-- What a quote observes is watched, and did not move: every pool of a
dex-constrained quote; for the best route, every pool that is fresh at one of
the moments. -/
def Unchanged (obs : Observes) (c₀ : Core F κ) (n₀ : Instant) (c₁ : Core F κ) (n₁ : Instant) : Prop :=
  match obs with
  | .unobservable => False
  | .dexes d => ∀ p ∈ d, Still c₀ n₀ c₁ n₁ p
  | .allPools => ∀ p, (c₀.freshMid p n₀).isSome ∨ (c₁.freshMid p n₁).isSome → Still c₀ n₀ c₁ n₁ p

variable {c₀ c₁ : Core F κ} {n₀ n₁ : Instant}

theorem freshMid_some {c : Core F κ} {p : String} {n : Instant} {m : F} (h : c.freshMid p n = some m) :
    ∃ t, (⟨p, (m, t)⟩ : Sigma fun _ : String => F × Instant) ∈ c.mids.entries ∧ n - t < midFresh := by
  simp only [Core.freshMid, Option.map_eq_some_iff, Option.filter_eq_some_iff] at h
  obtain ⟨⟨m', t⟩, ⟨h1, h2⟩, rfl⟩ := h
  exact ⟨t, AList.mem_lookup_iff.mp h1, by simpa using h2⟩

theorem freshMid_of_mem {c : Core F κ} {p : String} {n t : Instant} {m : F}
    (h : (⟨p, (m, t)⟩ : Sigma fun _ : String => F × Instant) ∈ c.mids.entries) (ht : n - t < midFresh) :
    c.freshMid p n = some m := by
  have hl : c.mids.lookup p = some (m, t) := AList.mem_lookup_iff.mpr h
  simp [Core.freshMid, hl, Option.filter, ht]

/-- The pools with a fresh mid. -/
def freshPools (c : Core F κ) (n : Instant) : List String :=
  (c.mids.entries.filter fun e => n - e.2.2 < midFresh).map Sigma.fst

theorem mem_freshPools {c : Core F κ} {n : Instant} {p : String} :
    p ∈ freshPools c n ↔ (c.freshMid p n).isSome := by
  simp only [freshPools, List.mem_map, List.mem_filter, decide_eq_true_eq]
  constructor
  · rintro ⟨⟨p, m, t⟩, ⟨hm, ht⟩, rfl⟩
    rw [freshMid_of_mem hm ht]
    rfl
  · intro h
    obtain ⟨m, hm⟩ := Option.isSome_iff_exists.mp h
    obtain ⟨t, h1, h2⟩ := freshMid_some hm
    exact ⟨⟨p, m, t⟩, ⟨h1, h2⟩, rfl⟩

theorem freshPools_nodup (c : Core F κ) (n : Instant) : (freshPools c n).Nodup := by
  have hk : (c.mids.entries.map Sigma.fst).Nodup := c.mids.nodupKeys
  exact hk.sublist (List.filter_sublist.map Sigma.fst)

/-- The mids a best-route quote saw are those of the fresh pools. -/
theorem midsFor_allPools (c : Core F κ) (n : Instant) :
    (c.midsFor .allPools n).length = (freshPools c n).length := by
  have h : ∀ e ∈ c.mids.entries, ((c.freshMid e.1 n).map fun m => (e.1, m)).isSome =
      decide (n - e.2.2 < midFresh) := by
    rintro ⟨p, m, t⟩ he
    have hl : c.mids.lookup p = some (m, t) := AList.mem_lookup_iff.mpr he
    by_cases ht : n - t < midFresh
    · simp [freshMid_of_mem he ht, ht]
    · simp [Core.freshMid, hl, Option.filter, ht]
  simp only [Core.midsFor, freshPools, List.filterMap_map, List.length_map, List.length_filterMap_eq_countP,
    ← List.countP_eq_length_filter]
  exact List.countP_congr fun e he => by simp only [Function.comp_apply, h e he]

/-- **A quote that counts as unmoved shows the market of now.** -/
theorem unmoved_unchanged {obs : Observes} (h : c₁.unmoved obs (c₀.midsFor obs n₀) n₁ = true) :
    Unchanged obs c₀ n₀ c₁ n₁ := by
  simp only [Core.unmoved, Bool.and_eq_true, decide_eq_true_eq] at h
  obtain ⟨hcov, hall⟩ := h
  have hstill : ∀ p m₀, (p, m₀) ∈ c₀.midsFor obs n₀ → c₀.freshMid p n₀ = some m₀ → Still c₀ n₀ c₁ n₁ p := by
    intro p m₀ hm hp
    have hx := List.all_eq_true.mp hall _ hm
    simp only at hx
    split at hx
    · exact ⟨m₀, _, hp, ‹_›, hx⟩
    · cases hx
  cases obs with
  | unobservable => cases hcov
  | dexes d =>
    intro p hp
    have hlen : (d.filterMap fun d => (c₀.freshMid d n₀).map fun m => (d, m)).length = d.length :=
      (Option.some.inj hcov).symm
    have hsome := List.filterMap_length_eq_length.mp hlen p hp
    rw [Option.isSome_map] at hsome
    obtain ⟨m₀, hm⟩ := Option.isSome_iff_exists.mp hsome
    refine hstill p m₀ ?_ hm
    simp only [Core.midsFor, List.mem_filterMap]
    exact ⟨p, hp, by simp [hm]⟩
  | allPools =>
    have hthen : ∀ p, (c₀.freshMid p n₀).isSome → Still c₀ n₀ c₁ n₁ p := by
      intro p hp
      obtain ⟨m₀, hm⟩ := Option.isSome_iff_exists.mp hp
      obtain ⟨t, he, -⟩ := freshMid_some hm
      refine hstill p m₀ ?_ hm
      simp only [Core.midsFor, List.mem_filterMap, List.mem_map]
      exact ⟨p, ⟨_, he, rfl⟩, by simp [hm]⟩
    -- the pools that were fresh still are, and they are as many as those fresh now
    have hsub : freshPools c₀ n₀ ⊆ freshPools c₁ n₁ := by
      intro p hp
      obtain ⟨m₀, m₁, -, h1, -⟩ := hthen p (mem_freshPools.mp hp)
      exact mem_freshPools.mpr (by rw [h1]; rfl)
    have hlen : (freshPools c₁ n₁).length ≤ (freshPools c₀ n₀).length := by
      have hcount := Option.some.inj hcov
      rw [midsFor_allPools] at hcount
      simp only [Core.freshMids, List.length_map] at hcount
      simp only [freshPools, List.length_map] at hcount ⊢
      exact hcount.le
    have hback := (((freshPools_nodup c₀ n₀).subperm hsub).perm_of_length_le hlen).symm.subset
    rintro p (hp | hp)
    · exact hthen p hp
    · exact hthen p (mem_freshPools.mp (hback (mem_freshPools.mpr hp)))

theorem reflects_congr {c d : Core F κ} (h : d.mids = c.mids) (sent : Instant) (obs : Observes) (mids : Mids F)
    (trigger : Option Instant) (now : Instant) :
    d.reflects sent obs mids trigger now = c.reflects sent obs mids trigger now := by
  have h1 : ∀ p, d.freshMid p now = c.freshMid p now := fun p => by simp only [Core.freshMid, h]
  have h2 : d.freshMids now = c.freshMids now := by simp only [Core.freshMids, h]
  unfold Core.reflects Core.unmoved Core.covered
  simp only [h1, h2]

theorem midsFor_congr {c d : Core F κ} (h : d.mids = c.mids) (obs : Observes) (now : Instant) :
    d.midsFor obs now = c.midsFor obs now := by
  have h1 : ∀ p, d.freshMid p now = c.freshMid p now := fun p => by simp only [Core.freshMid, h]
  unfold Core.midsFor
  simp only [h1, h]

/-! ### What a call has come to -/

/-- Leg `i` is the job's, or the job waits for its request. -/
def Core.Held (c : Core F κ) (j i : ℕ) : Prop :=
  ∃ job, c.jobs.lookup j = some job ∧
    (i < job.legs.length ∨ i = job.legs.length ∧ j ∈ held InFlight.jobs c.inflight)

/-- What a request in flight says about its quote. -/
def InFlight.quote (f : InFlight F) : Observes × Mids F × ℕ × Instant := (f.obs, f.mids, f.index, f.sent)

/-- A call that began in `s` at `now` has come to `c`. -/
structure Since (s : Core F κ) (now : Instant) (c : Core F κ) : Prop where
  mids : c.mids = s.mids
  cache : c.cache = s.cache
  nextJob : s.nextJob ≤ c.nextJob
  trigger : ∀ r t, (c.state r).trigger = some t → (s.state r).trigger = some t
  keys : ∀ key ∈ s.inflight, key ∈ c.inflight
  waiting : ∀ j ∈ held InFlight.jobs s.inflight, j ∈ held InFlight.jobs c.inflight
  /-- A request was in flight, or went out in this call. -/
  quotes : ∀ key f, c.inflight.lookup key = some f →
    (∃ f₀, s.inflight.lookup key = some f₀ ∧ f.quote = f₀.quote) ∨
    (s.inflight.lookup key = none ∧ f.sent = now ∧ f.mids = s.midsFor f.obs now)
  paired : ∀ j job, c.jobs.lookup j = some job → job.obs.length = job.legs.length
  older : ∀ j job job₀, c.jobs.lookup j = some job → s.jobs.lookup j = some job₀ →
    job₀.trigger = job.trigger ∧ job₀.legs <+: job.legs ∧ job₀.obs <+: job.obs
  newer : ∀ j job t, c.jobs.lookup j = some job → s.jobs.lookup j = none → job.trigger = some t →
    ∃ r, (s.state r).trigger = some t
  /-- A leg was the job's, or comes from the cache and reflects the market. -/
  legs : ∀ j job, c.jobs.lookup j = some job → ∀ i leg obs, job.legs[i]? = some leg → job.obs[i]? = some obs →
    (∃ job₀, s.jobs.lookup j = some job₀ ∧ i < job₀.legs.length) ∨
    (¬ s.Held j i ∧ ∃ key e, s.cache key = some e ∧ e.leg = leg ∧ e.obs = obs ∧
      s.reflects e.leg.sent e.obs e.mids job.trigger now = true)
  /-- A job waited, or joined a request that reflects the market, or sent it. -/
  waits : ∀ key f, c.inflight.lookup key = some f → ∀ j ∈ f.jobs, ∀ job, c.jobs.lookup j = some job →
    (∃ f₀ job₀, s.inflight.lookup key = some f₀ ∧ j ∈ f₀.jobs ∧ s.jobs.lookup j = some job₀ ∧
      job₀.legs.length = job.legs.length) ∨
    (¬ s.Held j job.legs.length ∧
      (s.inflight.lookup key = none ∨ s.reflects f.sent f.obs f.mids job.trigger now = true))

variable {q : Requests ρ κ} {now : Instant} {s c d : Core F κ}

theorem Since.refl (hp : ∀ j job, s.jobs.lookup j = some job → job.obs.length = job.legs.length) : Since s now s where
  mids := rfl
  cache := rfl
  nextJob := le_rfl
  trigger _ _ := id
  keys _ := id
  waiting _ := id
  quotes _ f hf := Or.inl ⟨f, hf, rfl⟩
  paired := hp
  older j job job₀ h h₀ := by
    rw [h] at h₀
    cases h₀
    exact ⟨rfl, List.prefix_rfl, List.prefix_rfl⟩
  newer j job t h h₀ := by
    rw [h] at h₀
    cases h₀
  legs j job h i leg obs hl _ := Or.inl ⟨job, h, (List.getElem?_eq_some_iff.mp hl).1⟩
  waits key f hf j hm job hj := Or.inl ⟨f, job, hf, hm, hj, rfl⟩

/-- A job of `c` that does not wait has not held its next leg before. -/
theorem Since.not_held (h : Since s now c) {j : ℕ} {job : Job F} (hj : c.jobs.lookup j = some job)
    (hw : j ∉ held InFlight.jobs c.inflight) : ¬ s.Held j job.legs.length := by
  rintro ⟨job₀, h₀, hlt | ⟨-, hm⟩⟩
  · have hle := (h.older j job job₀ hj h₀).2.1.length_le
    omega
  · exact hw (h.waiting j hm)

/-- A job in hand waits for no request. -/
theorem Tidy.not_waiting {out : List ℕ} {taken : Map ℕ (ReadyJob F)} {j : ℕ} (h : Tidy c (j :: out) taken) :
    j ∉ held InFlight.jobs c.inflight := by
  intro hm
  have h1 := h.once j
  have h2 := List.count_pos_iff.mpr hm
  rw [List.count_cons_self, Core.places] at h1
  omega

/-- Queues may change, jobs may go, and their dispatch times may change. -/
theorem Since.rejob (h : Since s now c) (hm : d.mids = c.mids) (hc : d.cache = c.cache) (hn : d.nextJob = c.nextJob)
    (ht : ∀ r t, (d.state r).trigger = some t → (c.state r).trigger = some t) (hi : d.inflight = c.inflight)
    (hj : ∀ j job, d.jobs.lookup j = some job → ∃ job', c.jobs.lookup j = some job' ∧
      job'.trigger = job.trigger ∧ job'.legs = job.legs ∧ job'.obs = job.obs) : Since s now d where
  mids := hm.trans h.mids
  cache := hc.trans h.cache
  nextJob := hn ▸ h.nextJob
  trigger r t hr := h.trigger r t (ht r t hr)
  keys := hi ▸ h.keys
  waiting := hi ▸ h.waiting
  quotes := hi ▸ h.quotes
  paired j job hjob := by
    obtain ⟨job', h1, -, h3, h4⟩ := hj j job hjob
    rw [← h3, ← h4]
    exact h.paired j job' h1
  older j job job₀ hjob h₀ := by
    obtain ⟨job', h1, h2, h3, h4⟩ := hj j job hjob
    rw [← h2, ← h3, ← h4]
    exact h.older j job' job₀ h1 h₀
  newer j job t hjob h₀ htr := by
    obtain ⟨job', h1, h2, -, -⟩ := hj j job hjob
    exact h.newer j job' t h1 h₀ (h2.trans htr)
  legs j job hjob i leg obs hl ho := by
    obtain ⟨job', h1, h2, h3, h4⟩ := hj j job hjob
    rw [← h2]
    exact h.legs j job' h1 i leg obs (h3 ▸ hl) (h4 ▸ ho)
  waits key f hf j hm' job hjob := by
    obtain ⟨job', h1, h2, h3, -⟩ := hj j job hjob
    rw [← h2, ← h3]
    exact h.waits key f (hi ▸ hf) j hm' job' h1

/-- Only queues change. -/
theorem Since.queues (h : Since s now c) (ready continuations : List ℕ) (blockedOn : Map κ (List ℕ)) :
    Since s now { c with ready, continuations, blockedOn } :=
  h.rejob rfl rfl rfl (fun _ _ => id) rfl fun _ job hj => ⟨job, hj, rfl, rfl, rfl⟩

/-- A job that waits for no request joins one, or sends it. -/
theorem Since.join (h : Since s now c) {job : ℕ} {j : Job F} {key : κ} {f : InFlight F}
    (hj : c.jobs.lookup job = some j) (hw : job ∉ held InFlight.jobs c.inflight)
    (hjobs : ∀ i ∈ f.jobs, i = job ∨ ∃ f', c.inflight.lookup key = some f' ∧ i ∈ f'.jobs ∧ f.quote = f'.quote)
    (hold : ∀ f', c.inflight.lookup key = some f' → ∀ i ∈ f'.jobs, i ∈ f.jobs)
    (hq : (∃ f₀, s.inflight.lookup key = some f₀ ∧ f.quote = f₀.quote) ∨
      (s.inflight.lookup key = none ∧ f.sent = now ∧ f.mids = s.midsFor f.obs now))
    (href : s.inflight.lookup key = none ∨ s.reflects f.sent f.obs f.mids j.trigger now = true) :
    Since s now { c with inflight := c.inflight.insert key f } where
  mids := h.mids
  cache := h.cache
  nextJob := h.nextJob
  trigger := h.trigger
  keys k hk := (AList.mem_insert _).mpr (Or.inr (h.keys k hk))
  waiting i hi := by
    obtain ⟨k, f', hk, hm⟩ := mem_held.mp (h.waiting i hi)
    refine mem_held.mpr ?_
    by_cases he : k = key
    · exact ⟨key, f, AList.lookup_insert _, hold f' (he ▸ hk) i hm⟩
    · exact ⟨k, f', by rw [AList.lookup_insert_ne he]; exact hk, hm⟩
  quotes k f' hf := by
    by_cases he : k = key
    · subst he
      rw [AList.lookup_insert] at hf
      cases hf
      exact hq
    · rw [AList.lookup_insert_ne he] at hf
      exact h.quotes k f' hf
  paired := h.paired
  older := h.older
  newer := h.newer
  legs := h.legs
  waits k f' hf i hm job' hi := by
    by_cases he : k = key
    · subst he
      rw [AList.lookup_insert] at hf
      cases hf
      rcases hjobs i hm with rfl | ⟨f', h1, h2, h3⟩
      · have hjob : j = job' := Option.some.inj (hj.symm.trans hi)
        subst hjob
        exact Or.inr ⟨h.not_held hj hw, href⟩
      · simp only [InFlight.quote, Prod.mk.injEq] at h3
        obtain ⟨h3, h4, -, h5⟩ := h3
        rw [h3, h4, h5]
        exact h.waits k f' h1 i h2 job' hi
    · rw [AList.lookup_insert_ne he] at hf
      exact h.waits k f' hf i hm job' hi

/-- A job that waits for no request takes a leg that reflects the market. -/
theorem Since.pushCached (h : Since s now c) {job : ℕ} {j : Job F} {key : κ} {e : Cached F}
    (hj : c.jobs.lookup job = some j) (hw : job ∉ held InFlight.jobs c.inflight) (he : c.cache key = some e)
    (href : c.reflects e.leg.sent e.obs e.mids j.trigger now = true) :
    Since s now { c with jobs := c.jobs.insert job (j.pushCached e.leg e.obs now) } := by
  have hlook : ∀ i k, (c.jobs.insert job (j.pushCached e.leg e.obs now)).lookup i = some k →
      (i = job ∧ k = j.pushCached e.leg e.obs now) ∨ (i ≠ job ∧ c.jobs.lookup i = some k) := by
    intro i k hi
    by_cases hne : i = job
    · subst hne
      rw [AList.lookup_insert] at hi
      exact Or.inl ⟨rfl, (Option.some.inj hi).symm⟩
    · rw [AList.lookup_insert_ne hne] at hi
      exact Or.inr ⟨hne, hi⟩
  refine ⟨h.mids, h.cache, h.nextJob, h.trigger, h.keys, h.waiting, h.quotes, fun i k hi => ?_,
    fun i k k₀ hi h₀ => ?_, fun i k t hi h₀ ht => ?_, fun i k hi n leg obs hl ho => ?_, fun key' f hf i hm k hi => ?_⟩
  · rcases hlook i k hi with ⟨rfl, rfl⟩ | ⟨-, h1⟩
    · simp [Job.pushCached, h.paired i j hj]
    · exact h.paired i k h1
  · rcases hlook i k hi with ⟨rfl, rfl⟩ | ⟨-, h1⟩
    · obtain ⟨h1, h2, h3⟩ := h.older i j k₀ hj h₀
      exact ⟨h1, h2.trans (List.prefix_append _ _), h3.trans (List.prefix_append _ _)⟩
    · exact h.older i k k₀ h1 h₀
  · rcases hlook i k hi with ⟨rfl, rfl⟩ | ⟨-, h1⟩
    · exact h.newer i j t hj h₀ ht
    · exact h.newer i k t h1 h₀ ht
  · rcases hlook i k hi with ⟨rfl, rfl⟩ | ⟨-, h1⟩
    · rcases lt_or_ge n j.legs.length with hn | hn
      · -- a leg it already had
        refine h.legs i j hj n leg obs ?_ ?_
        · simpa [Job.pushCached, List.getElem?_append_left hn] using hl
        · simpa [Job.pushCached, List.getElem?_append_left ((h.paired i j hj).symm ▸ hn)] using ho
      · -- the leg from the cache
        have hlen := (List.getElem?_eq_some_iff.mp hl).1
        simp only [Job.pushCached, List.length_append, List.length_singleton] at hlen
        obtain rfl : n = j.legs.length := by omega
        simp only [Job.pushCached, List.getElem?_concat_length, Option.some.injEq] at hl
        simp only [Job.pushCached, ← h.paired i j hj, List.getElem?_concat_length, Option.some.injEq] at ho
        refine Or.inr ⟨h.not_held hj hw, key, e, h.cache ▸ he, hl, ho, ?_⟩
        rw [← reflects_congr h.mids]
        exact href
    · exact h.legs i k h1 n leg obs hl ho
  · rcases hlook i k hi with ⟨rfl, rfl⟩ | ⟨-, h1⟩
    · exact absurd (mem_held.mpr ⟨key', f, hf, hm⟩) hw
    · exact h.waits key' f hf i hm k h1

/-- A new job carries its route's trigger. -/
theorem Since.start (h : Since s now c) {r : ℕ} {cls : Class} (hs : ∀ j ∈ s.jobs, j < s.nextJob)
    (hw : c.nextJob ∉ held InFlight.jobs c.inflight) : Since s now (c.startJob r cls now).1 := by
  have hold : s.jobs.lookup c.nextJob = none := by
    refine AList.lookup_eq_none.mpr fun hm => ?_
    have h1 := hs _ hm
    have h2 := h.nextJob
    omega
  have hlook : ∀ i k, (c.startJob r cls now).1.jobs.lookup i = some k →
      (i = c.nextJob ∧ k.trigger = (c.state r).trigger ∧ k.legs = [] ∧ k.obs = []) ∨
      (i ≠ c.nextJob ∧ c.jobs.lookup i = some k) := by
    intro i k hi
    simp only [Core.startJob] at hi
    by_cases hne : i = c.nextJob
    · subst hne
      rw [AList.lookup_insert] at hi
      cases hi
      exact Or.inl ⟨rfl, rfl, rfl, rfl⟩
    · rw [AList.lookup_insert_ne hne] at hi
      exact Or.inr ⟨hne, hi⟩
  refine ⟨h.mids, h.cache, h.nextJob.trans (Nat.le_succ _), fun r' t ht => ?_, h.keys, h.waiting, h.quotes,
    fun i k hi => ?_, fun i k k₀ hi h₀ => ?_, fun i k t hi h₀ ht => ?_, fun i k hi n leg obs hl ho => ?_,
    fun key' f hf i hm k hi => ?_⟩
  · refine h.trigger r' t ?_
    simp only [Core.startJob, Core.setState_state] at ht
    by_cases hr : r' = r
    · subst hr
      simpa using ht
    · rwa [Function.update_of_ne hr] at ht
  · rcases hlook i k hi with ⟨-, -, h2, h3⟩ | ⟨-, h1⟩
    · rw [h2, h3]
      rfl
    · exact h.paired i k h1
  · rcases hlook i k hi with ⟨rfl, -⟩ | ⟨-, h1⟩
    · rw [hold] at h₀
      cases h₀
    · exact h.older i k k₀ h1 h₀
  · rcases hlook i k hi with ⟨-, h1, -, -⟩ | ⟨-, h1⟩
    · exact ⟨r, h.trigger r t (h1 ▸ ht)⟩
    · exact h.newer i k t h1 h₀ ht
  · rcases hlook i k hi with ⟨-, -, h2, -⟩ | ⟨-, h1⟩
    · rw [h2] at hl
      cases hl
    · exact h.legs i k h1 n leg obs hl ho
  · rcases hlook i k hi with ⟨rfl, -⟩ | ⟨-, h1⟩
    · exact absurd (mem_held.mpr ⟨key', f, hf, hm⟩) hw
    · exact h.waits key' f hf i hm k h1

theorem lookup_erase_same {jobs : Map ℕ (Job F)} {i j : ℕ} {job : Job F} (h : (jobs.erase i).lookup j = some job) :
    ∃ job', jobs.lookup j = some job' ∧ job'.trigger = job.trigger ∧ job'.legs = job.legs ∧ job'.obs = job.obs := by
  by_cases hj : j = i
  · subst hj
    simp at h
  · rw [AList.lookup_erase_ne hj] at h
    exact ⟨job, h, rfl, rfl, rfl⟩

/-- Dropping the mark of a route sets no trigger. -/
theorem setState_trigger {r : ℕ} {st : RouteState F} (hst : ∀ t, st.trigger = some t → (c.state r).trigger = some t)
    (r' : ℕ) (t : Instant) (h : (Function.update c.state r st r').trigger = some t) : (c.state r').trigger = some t := by
  by_cases hr : r' = r
  · subst hr
    exact hst t (by simpa using h)
  · rwa [Function.update_of_ne hr] at h

/-- **One move keeps the account of the call.** -/
theorem Move.since {x y : Core F κ × Option ℕ} {out : List ℕ} {taken : Map ℕ (ReadyJob F)} (hm : Move q now x y)
    (ht : Tidy x.1 (x.2.toList ++ out) taken) (hs : ∀ j ∈ s.jobs, j < s.nextJob) (h : Since s now x.1) :
    Since s now y.1 := by
  cases hm with
  | carry hc =>
    cases hc with
    | finish => exact h.queues _ _ _
    | pick => exact h.queues _ _ _
    | putBack => exact h.queues _ _ _
    | cacheLeg hj hr he href => exact h.pushCached hj (Tidy.not_waiting ht) he href
    | complete => exact h.queues _ _ _
    | @coalesce c job index req j f hj hr hf href =>
      refine h.join hj (Tidy.not_waiting ht) (fun i hi => ?_) (fun f' hf' i hi => ?_) (h.quotes _ f hf) ?_
      · rcases List.mem_append.mp hi with h1 | h1
        · exact Or.inr ⟨f, hf, h1, rfl⟩
        · exact Or.inl (List.mem_singleton.mp h1)
      · rw [hf] at hf'
        cases hf'
        exact List.mem_append_left _ hi
      · rw [← reflects_congr h.mids]
        exact Or.inr href
    | block => exact h.queues _ _ _
    | @dispatch c job index req j hj hr hf =>
      rw [dispatch_fst hj]
      have hnone : s.inflight.lookup (q.key req) = none :=
        AList.lookup_eq_none.mpr fun hk => AList.lookup_eq_none.mp hf (h.keys _ hk)
      have hjoin := @Since.join _ _ _ _ _ _ _ h _ _ (q.key req) ⟨[job], (c.route j.route).obs.getD index .unobservable,
          c.midsFor ((c.route j.route).obs.getD index .unobservable) now, index, now⟩ hj (Tidy.not_waiting ht)
        (fun i hi => Or.inl (List.mem_singleton.mp hi)) (fun f' hf' => by rw [hf] at hf'; cases hf')
        (Or.inr ⟨hnone, rfl, midsFor_congr h.mids _ _⟩) (Or.inl hnone)
      refine hjoin.rejob rfl rfl rfl (fun _ _ => id) rfl fun i k hi => ?_
      simp only at hi
      split at hi
      · by_cases hne : i = job
        · subst hne
          rw [AList.lookup_insert] at hi
          cases hi
          exact ⟨j, hj, rfl, rfl, rfl⟩
        · rw [AList.lookup_insert_ne hne] at hi
          exact ⟨k, hi, rfl, rfl, rfl⟩
      · exact ⟨k, hi, rfl, rfl, rfl⟩
  | skip => exact h.queues _ _ _
  | suppress =>
    exact h.rejob rfl rfl rfl (setState_trigger fun t ht => by cases ht) rfl fun _ _ => lookup_erase_same
  | @start c r cls hr =>
    refine h.start hs fun hw => ?_
    have h1 : 0 < (held InFlight.jobs c.inflight).count c.nextJob := List.count_pos_iff.mpr hw
    exact lt_irrefl _ (ht.fresh _ (ht.known c.nextJob (by simp only [Core.places]; omega)))
  | @abandon c job j hj =>
    refine h.rejob ?_ ?_ ?_ ?_ ?_ ?_
    · simp [Core.abandon, hj, Core.setState]
    · simp [Core.abandon, hj, Core.setState]
    · simp [Core.abandon, hj, Core.setState]
    · intro r t
      simp only [Core.abandon, hj]
      exact @setState_trigger _ _ _ _ _ j.route { c.state j.route with job := none } (fun t => id) r t
    · simp [Core.abandon, hj, Core.setState]
    · intro i k
      simp only [Core.abandon, hj]
      exact lookup_erase_same

/-- A whole call. -/
theorem moves_since {x y : Core F κ × Option ℕ} {out : List ℕ} {taken : Map ℕ (ReadyJob F)}
    (hm : ReflTransGen (Move q now) x y) (ht : Tidy x.1 (x.2.toList ++ out) taken)
    (hs : ∀ j ∈ s.jobs, j < s.nextJob) (h : Since s now x.1) : Since s now y.1 := by
  induction hm with
  | refl => exact h
  | tail hxy hm ih => exact hm.since (moves_tidy hxy ht).1 hs ih

/-! ### What a call sends -/

/-- `req` is for leg `index` of the job's route, and `obs` is what that leg observes. -/
def Core.Asks (q : Requests ρ κ) (c : Core F κ) (req : ρ) (index job : ℕ) (obs : Observes) : Prop :=
  ∃ j spec amount, c.jobs.lookup job = some j ∧ (c.route j.route).plan.legs[index]? = some spec ∧
    req = q.makeReq spec amount ∧ obs = (c.route j.route).obs.getD index .unobservable

/-- What is in flight at `d` was in flight at `c`. -/
def NoneSent (c d : Core F κ) : Prop := ∀ key ∈ d.inflight, key ∈ c.inflight

/-- A call sends the request it returns, and no other. -/
def Sent (q : Requests ρ κ) (c : Core F κ) : Core F κ × WindowLimiter × Step ρ κ → Prop
  | (d, _, .dispatch key req index job) => key = q.key req ∧
      (∃ f, d.inflight.lookup key = some f ∧ d.Asks q req index job f.obs) ∧
      ∀ k ∈ d.inflight, k = key ∨ k ∈ c.inflight
  | (d, _, .finish _) => NoneSent c d
  | (d, _, .wait _) => NoneSent c d

theorem NoneSent.refl (c : Core F κ) : NoneSent c c := fun _ => id

theorem NoneSent.trans (h : NoneSent c d) (h' : NoneSent s c) : NoneSent s d := fun key hk => h' key (h key hk)

theorem Sent.after {x : Core F κ × WindowLimiter × Step ρ κ} (hx : Sent q c x) (h : NoneSent s c) : Sent q s x := by
  rcases x with ⟨d, budget, _ | _ | _⟩
  · exact ⟨hx.1, hx.2.1, fun k hk => (hx.2.2 k hk).imp_right (h k)⟩
  · exact hx.trans h
  · exact hx.trans h

theorem popReadyFrom_inflight : ∀ (l : List ℕ) (c : Core F κ), (Core.popReadyFrom l c).1.inflight = c.inflight
  | [], _ => rfl
  | job :: l, c => by
    unfold Core.popReadyFrom
    split
    · exact popReadyFrom_inflight l c
    · split
      · exact popReadyFrom_inflight l _
      · rfl

/-- Finished jobs are no requests. -/
theorem popReady_noneSent (c : Core F κ) : NoneSent c c.popReady.1 := fun key hk => by
  rwa [Core.popReady, popReadyFrom_inflight] at hk

/-- A job that is advanced waits, or is left with a request to send. -/
theorem advanceLoop_noneSent {job : ℕ} {reads : Reads F} : ∀ (fuel : ℕ) (c : Core F κ),
    NoneSent c (Core.advanceLoop q job now reads fuel c).1 := by
  have hjoin : ∀ (c : Core F κ) {key : κ} {f f' : InFlight F}, c.inflight.lookup key = some f →
      NoneSent c { c with inflight := c.inflight.insert key f' } := by
    intro c key f f' hf k hk
    rcases (AList.mem_insert _).mp hk with rfl | hk
    · exact AList.lookup_isSome.mp (by rw [hf]; rfl)
    · exact hk
  intro fuel
  induction fuel with
  | zero =>
    intro c
    unfold Core.advanceLoop
    split
    · simp only
      split
      · exact .refl c
      · split
        · rename_i hf
          split
          · exact hjoin c hf
          · exact .refl c
        · exact .refl c
    · exact .refl c
  | succ fuel ih =>
    intro c
    unfold Core.advanceLoop
    split
    · simp only
      split
      · exact ih _
      · split
        · rename_i hf
          split
          · exact hjoin c hf
          · exact .refl c
        · exact .refl c
    · exact .refl c

/-- The request of the job in hand goes out, and is returned. -/
theorem dispatch_sent {job index : ℕ} {req : ρ} {j : Job F} {budget : WindowLimiter} (hj : d.jobs.lookup job = some j)
    (hr : d.nextReq q job = some (index, req)) (h : NoneSent c d) :
    Sent q c ((d.dispatch job (q.key req) index req now).1, budget, (d.dispatch job (q.key req) index req now).2) := by
  obtain ⟨spec, amount, hspec, hreq⟩ : ∃ spec amount, (d.route j.route).plan.legs[index]? = some spec ∧
      req = q.makeReq spec amount := by
    rw [Core.nextReq, hj, Option.bind_some] at hr
    obtain ⟨spec, hspec, heq⟩ := Option.map_eq_some_iff.mp hr
    obtain ⟨rfl, rfl⟩ := Prod.mk.inj heq
    exact ⟨spec, _, hspec, rfl⟩
  have hstep : (d.dispatch job (q.key req) index req now).2 = .dispatch (q.key req) req index job := by
    simp only [Core.dispatch, hj]
  rw [hstep, dispatch_fst hj]
  refine ⟨rfl, ⟨_, AList.lookup_insert _, ?_⟩, fun k hk => ?_⟩
  · have hjob : ∃ j', (if index = 0 then d.jobs.insert job { j with dispatched := now } else d.jobs).lookup job =
        some j' ∧ j'.route = j.route := by
      split
      · exact ⟨_, AList.lookup_insert _, rfl⟩
      · exact ⟨j, hj, rfl⟩
    obtain ⟨j', hj', hroute⟩ := hjob
    exact ⟨j', spec, amount, hj', hroute ▸ hspec, hreq, by rw [hroute]; rfl⟩
  · exact ((AList.mem_insert _).mp hk).imp_right (h k)

theorem nextContinuations_sent {reads : Reads F} {full : Bool} : ∀ (fuel : ℕ) (c : Core F κ) (budget : WindowLimiter),
    match Core.nextContinuations q now reads full fuel c budget with
    | (d, budget', some step) => Sent q c (d, budget', step)
    | (d, _, none) => NoneSent c d := by
  intro fuel
  induction fuel with
  | zero => exact fun c _ => .refl c
  | succ fuel ih =>
    intro c budget
    unfold Core.nextContinuations
    cases hc : c.continuations with
    | nil => exact .refl c
    | cons job rest =>
      have ha := @advance_continuation _ _ _ _ _ q now _ _ _ reads hc
      have hn : NoneSent c (c.advance q job now reads).1 := advanceLoop_noneSent _ c
      simp only
      rcases hadv : c.advance q job now reads with ⟨d, _ | ⟨key, index, req⟩⟩
      · rw [hadv] at hn
        have hp := popReady_noneSent ({ d with continuations := rest } : Core F κ)
        simp only
        rcases hpop : ({ d with continuations := rest } : Core F κ).popReady with ⟨d', _ | j⟩
        · rw [hpop] at hp
          have hih := ih d' budget
          simp only
          rcases hnext : Core.nextContinuations q now reads full fuel d' budget with ⟨e, budget', _ | step⟩
          · rw [hnext] at hih
            exact NoneSent.trans hih (hp.trans hn)
          · rw [hnext] at hih
            exact Sent.after hih (hp.trans hn)
        · rw [hpop] at hp
          exact hp.trans hn
      · rw [hadv] at ha hn
        simp only
        by_cases hfull : full = true
        · rw [if_pos hfull]
          exact hn
        · rw [if_neg hfull]
          rcases budget.tryAcquire now 0 with ⟨wait | _, budget'⟩
          · exact hn
          · obtain ⟨-, hr, rfl, -, hsome⟩ := ha
            obtain ⟨j, hj⟩ := Option.isSome_iff_exists.mp hsome
            exact dispatch_sent hj hr hn

theorem startOn_sent {r reserve : ℕ} {cls : Class} {reads : Reads F} {budget : WindowLimiter} (c : Core F κ) :
    Sent q c (c.startOn q r cls reserve now reads budget) := by
  have ha := @advance_moves _ _ _ _ _ q now ((c.startJob r cls now).2) reads (c.startJob r cls now).1
  have hn : NoneSent c ((c.startJob r cls now).1.advance q (c.startJob r cls now).2 now reads).1 :=
    advanceLoop_noneSent _ (c.startJob r cls now).1
  unfold Core.startOn
  simp only
  rcases hadv : (c.startJob r cls now).1.advance q (c.startJob r cls now).2 now reads with ⟨d, _ | ⟨key, index, req⟩⟩
  · rw [hadv] at hn
    have hp := popReady_noneSent d
    simp only
    rcases hpop : d.popReady with ⟨d', _ | j⟩
    · rw [hpop] at hp
      exact hp.trans hn
    · rw [hpop] at hp
      exact hp.trans hn
  · rw [hadv] at ha hn
    obtain ⟨-, hr, rfl, -, hsome⟩ := ha
    obtain ⟨j, hj⟩ := Option.isSome_iff_exists.mp hsome
    simp only
    rcases budget.tryAcquire now reserve with ⟨wait | _, budget'⟩
    · have hinflight : (d.abandon (c.startJob r cls now).2).inflight = d.inflight := by
        simp only [Core.abandon, hj, Core.setState]
      exact fun k hk => hn k (hinflight ▸ hk)
    · exact dispatch_sent hj hr hn

/-- **A call sends what it returns**: one request at most, for a leg of its job's route. -/
theorem next_sent {reads : Reads F} {budget : WindowLimiter} (c : Core F κ) : Sent q c (c.next q now reads budget) := by
  have hp := popReady_noneSent c
  unfold Core.next
  rcases hpop : c.popReady with ⟨d, _ | j⟩
  · rw [hpop] at hp
    have hc := @nextContinuations_sent _ _ _ _ _ q now reads (decide (d.cfg.maxInFlight ≤ d.inflight.entries.length))
      d.continuations.length d budget
    simp only
    rcases hnext : Core.nextContinuations q now reads (decide (d.cfg.maxInFlight ≤ d.inflight.entries.length))
      d.continuations.length d budget with ⟨e, budget', _ | step⟩
    · rw [hnext] at hc
      have hn : NoneSent c e := NoneSent.trans hc hp
      simp only
      split
      · exact hn
      · refine Sent.after ?_ hn
        unfold Core.nextStart
        simp only
        split
        · exact .refl e
        · split
          · exact .refl e
          · exact startOn_sent e
    · rw [hnext] at hc
      exact Sent.after hc hp
  · rw [hpop] at hp
    exact hp

end Router
end MobiusSearcher
