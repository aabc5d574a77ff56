/-
# A route starts when the window pays for it

`next` of `crates/execution/src/router.rs` starts a route when the window has
a slot for each request of the route that is still to be sent (`requestsFor`)
and for each still owed to the routes in progress (`owed`). Afterwards the
window should still pay for all that is owed.

It does so exactly when the first leg that was counted as free is one the new
job takes, or a slot was left over (`Starting.Backed`): a cached or in-flight
quote from before the job's trigger is counted, and then not taken.

Key definitions: `Starting`, `Core.starting`, `Starting.Backed`.
Key theorems: `next_starting`, `advanceLoop_spec`, `startOn_pays_iff`, `start_pays_iff`.
-/
import MobiusSearcher.Router.Custody
import MobiusSearcher.Telemetry.Limits
import Mathlib.Data.List.DropRight

set_option linter.unusedSectionVars false

namespace MobiusSearcher

/-! ### The window, before and after a slot is taken -/

namespace WindowLimiter

open Machine

variable {g g' : WindowLimiter} {now : Instant} {reserve : ℕ}

theorem prune_prune (g : WindowLimiter) (now : Instant) : (g.prune now).prune now = g.prune now := by
  have hsent : ((g.prune now).prune now).sent = (g.prune now).sent := List.dropWhile_idempotent _ g.sent
  exact congrArg (fun sent => { g with sent }) hsent

/-- Asking again says the same. -/
theorem available_again (g : WindowLimiter) (now : Instant) (reserve : ℕ) :
    ((g.available now reserve).2.available now reserve).1 = (g.available now reserve).1 := by
  cases hb : g.blocked now with
  | true =>
    have hg : g.available now reserve = (0, g) := by
      unfold available
      rw [if_pos hb]
    rw [hg, hg]
  | false =>
    rw [available_snd reserve hb]
    have hb' : (g.prune now).blocked now = false := hb
    have h : ¬g.blocked now = true := by rw [hb]; exact Bool.false_ne_true
    have h' : ¬(g.prune now).blocked now = true := by rw [hb']; exact Bool.false_ne_true
    unfold available
    rw [if_neg h, if_neg h', prune_prune]

theorem wrap_pred (x : ℤ) : wrapU32 (wrapI64 x).toNat ≤ wrapU32 (wrapI64 (x - 1)).toNat + 1 := by
  have hx := Int.emod_nonneg x (show (2 : ℤ) ^ 64 ≠ 0 by norm_num)
  unfold wrapU32 wrapI64 Int.bmod
  simp only
  omega

/-- A send more, or, when everything ages out at once, none. -/
theorem prune_snoc (g : WindowLimiter) (now : Instant) :
    let g' := { g.prune now with sent := (g.prune now).sent ++ [now] }
    g'.prune now = g' ∨ g'.prune now = { g.prune now with sent := [] } ∧ (g.prune now).sent = [] := by
  have hsent : (g.prune now).sent.dropWhile (fun t => g.window ≤ now - t) = (g.prune now).sent :=
    congrArg sent (prune_prune g now)
  have hdrop : ((g.prune now).sent ++ [now]).dropWhile (fun t => g.window ≤ now - t) =
      if (g.prune now).sent.isEmpty then [now].dropWhile (fun t => g.window ≤ now - t)
      else (g.prune now).sent ++ [now] := by
    rw [List.dropWhile_append, hsent]
  cases he : (g.prune now).sent with
  | cons t rest =>
    left
    rw [he] at hdrop
    exact congrArg (fun sent => { g.prune now with sent }) hdrop
  | nil =>
    rw [he] at hdrop
    by_cases hw : g.window ≤ now - now
    · right
      have hnil : [now].dropWhile (fun t => g.window ≤ now - t) = [] := by
        rw [List.dropWhile_cons_of_pos (by simpa using hw), List.dropWhile_nil]
      exact ⟨congrArg (fun sent => { g.prune now with sent }) (hdrop.trans hnil), rfl⟩
    · left
      have hone : [now].dropWhile (fun t => g.window ≤ now - t) = [now] :=
        List.dropWhile_cons_of_neg (by simpa using hw)
      exact congrArg (fun sent => { g.prune now with sent }) (hdrop.trans hone)

/-- What is free by our own count and by the gateway's, one send more in the log. -/
theorem free_snoc (g : WindowLimiter) (now reference : Instant) (remaining : ℤ) (reserve : ℕ) :
    let g' := { g with sent := g.sent ++ [now] }
    g.localFree reserve ≤ g'.localFree reserve + 1 ∧
      g.serverFree now reference remaining reserve ≤ g'.serverFree now reference remaining reserve + 1 := by
  simp only
  constructor
  · have hlen : wrapU32 (g.sent ++ [now]).length ≤ wrapU32 g.sent.length + 1 := by
      rw [List.length_append, List.length_singleton]
      unfold wrapU32
      omega
    unfold localFree headroom
    simp only
    omega
  · unfold serverFree headroom
    simp only [List.filter_append, List.length_append]
    by_cases hr : reference < now
    · have hone : ([now].filter fun t => reference < t).length = 1 := by simp [hr]
      rw [hone, Nat.cast_add, Nat.cast_one]
      refine (wrap_pred _).trans (Nat.add_le_add_right (le_of_eq ?_) 1)
      congr 3
      ring
    · have hnone : ([now].filter fun t => reference < t).length = 0 := by simp [hr]
      rw [hnone, Nat.add_zero]
      exact Nat.le_succ _

/-- Taking a slot leaves one less at most. -/
theorem available_taken (h : g.tryAcquire now reserve = (.ok (), g')) :
    (g.available now reserve).1 ≤ (g'.available now reserve).1 + 1 := by
  obtain ⟨hpos, rfl⟩ := tryAcquire_ok h
  have hb := (available_pos hpos).1
  have hn : ¬g.blocked now = true := by rw [hb]; exact Bool.false_ne_true
  have hn' : ¬({ g.prune now with sent := (g.prune now).sent ++ [now] } : WindowLimiter).blocked now = true := hn
  have hfree := free_snoc (g.prune now) now
  unfold available
  rw [if_neg hn, if_neg hn']
  simp only
  rcases prune_snoc g now with hp | ⟨hp, he⟩
  · rw [hp]
    simp only
    cases hs : (g.prune now).server with
    | none => exact (hfree 0 0 reserve).1
    | some k =>
      have hmin : ∀ a b c d : ℕ, a ≤ c + 1 → b ≤ d + 1 → min a b ≤ min c d + 1 := by omega
      obtain ⟨hl, hsf⟩ := hfree k.1 k.2 reserve
      rw [hs] at hl hsf
      simp only
      split
      · exact hmin _ _ _ _ hl hsf
      · exact hl
  · have hsame : ({ g.prune now with sent := [] } : WindowLimiter) = g.prune now := by
      rw [← he]
    rw [hp, hsame]
    exact Nat.le_succ _

end WindowLimiter

namespace Router

open Keyed FloatOps Relation

variable {F : Type*} [FloatOps F] {ρ κ : Type*} [DecidableEq κ]

/-! ### When `next` starts a route -/

/-- The router and the window when `next` starts a route, and which one it starts. -/
structure Starting (F κ : Type*) where
  core : Core F κ
  budget : WindowLimiter
  route : ℕ
  cls : Class
  /-- Slots kept: none for a triggered route, the reserve for calibration. -/
  reserve : ℕ

namespace Core

variable (q : Requests ρ κ) (c : Core F κ)

/-- The route that `nextStart` starts, when the window pays for it. -/
def startingOn (now : Instant) (reads : Reads F) (budget : WindowLimiter) : Option (Starting F κ) :=
  let choice : Option (ℕ × Class × ℕ) := match c.bestTriggered now reads.score with
    | some r => some (r, .urgent, 0)
    | none => (c.calibrationDue now).map fun r => (r, .background, c.cfg.reserve)
  choice.bind fun (route, cls, reserve) =>
    match admission budget now reserve (c.requestsFor q route reads.requests + c.owed) with
    | (some _, _) => none
    | (none, budget) => some ⟨c, budget, route, cls, reserve⟩

/-- The route that `next` starts, when it comes to starting one. -/
def starting (now : Instant) (reads : Reads F) (budget : WindowLimiter) : Option (Starting F κ) :=
  match c.popReady with
  | (_, some _) => none
  | (c, none) =>
    let full : Bool := c.cfg.maxInFlight ≤ c.inflight.entries.length
    match nextContinuations q now reads full c.continuations.length c budget with
    | (_, _, some _) => none
    | (c, budget, none) => if full then none else c.startingOn q now reads budget

/-- The key of a route's first leg. -/
def firstKey (r : ℕ) : Option κ :=
  (c.route r).plan.legs.head?.map fun spec => q.key (q.makeReq spec (c.route r).plan.amount)

/-- A new job on `r` takes its first leg from the cache, or waits for one in flight. -/
def takesFirst (r : ℕ) (now : Instant) (clock : Instant × Instant) : Bool :=
  (c.firstKey q r).any fun key =>
    (c.usable key (c.state r).trigger now clock).isSome ||
      (c.inflight.lookup key).any fun f => c.reflects f.sent f.obs f.mids (c.state r).trigger now

end Core

namespace Starting

variable (q : Requests ρ κ) (x : Starting F κ)

/-- What the window was asked to pay for. -/
def need (reads : Reads F) : ℕ := x.core.requestsFor q x.route reads.requests + x.core.owed

/-- The first leg was counted as free. -/
def counted (reads : Reads F) : Bool :=
  x.core.requestsFor q x.route reads.requests < (x.core.route x.route).plan.legs.length

/-- The window pays for one request more: now, when the first leg waits for the
one in flight, or once it was sent. -/
def spare (now : Instant) (reads : Reads F) : Prop :=
  if (x.core.firstKey q x.route).any fun key => (x.core.inflight.lookup key).isSome then
    x.need q reads < (x.budget.available now x.reserve).1
  else x.need q reads ≤ ((x.budget.tryAcquire now x.reserve).2.available now x.reserve).1

/-- The first leg that was counted as free is one the job takes, or a slot was left over. -/
def Backed (now : Instant) (reads : Reads F) : Prop :=
  x.counted q reads = true →
    x.core.takesFirst q x.route now (reads.leg x.core.nextJob 0) = false → x.spare q now reads

end Starting

variable {q : Requests ρ κ} {now : Instant} {reads : Reads F}

theorem popReadyFrom_ready : ∀ {l : List ℕ} {c d : Core F κ}, Core.popReadyFrom l c = (d, none) → d.ready = []
  | [], c, d, h => by
    unfold Core.popReadyFrom at h
    rw [← (Prod.mk.inj h).1]
  | job :: l, c, d, h => by
    unfold Core.popReadyFrom at h
    cases hj : c.jobs.lookup job with
    | none =>
      rw [hj] at h
      exact popReadyFrom_ready h
    | some j =>
      rw [hj] at h
      simp only at h
      split at h
      · exact popReadyFrom_ready h
      · exact absurd (Prod.mk.inj h).2 (Option.some_ne_none _)

/-- When no finished job is left, none is ready. -/
theorem popReady_ready {c d : Core F κ} (h : c.popReady = (d, none)) : d.ready = [] := popReadyFrom_ready h

theorem nextContinuations_ready {full : Bool} : ∀ {fuel : ℕ} {c d : Core F κ} {budget b : WindowLimiter},
    c.ready = [] → Core.nextContinuations q now reads full fuel c budget = (d, b, none) → d.ready = []
  | 0, c, d, budget, b, hc, h => by
    unfold Core.nextContinuations at h
    rw [← (Prod.mk.inj h).1]
    exact hc
  | fuel + 1, c, d, budget, b, hc, h => by
    unfold Core.nextContinuations at h
    cases hl : c.continuations with
    | nil =>
      rw [hl] at h
      rw [← (Prod.mk.inj h).1]
      exact hc
    | cons job rest =>
      rw [hl] at h
      simp only at h
      rcases hadv : c.advance q job now reads with ⟨e, _ | ⟨key, index, req⟩⟩
      · rw [hadv] at h
        simp only at h
        rcases hpop : ({ e with continuations := rest } : Core F κ).popReady with ⟨e', _ | j⟩
        · rw [hpop] at h
          exact nextContinuations_ready (popReady_ready hpop) h
        · rw [hpop] at h
          exact absurd (Prod.mk.inj (Prod.mk.inj h).2).2 (Option.some_ne_none _)
      · rw [hadv] at h
        simp only at h
        split at h
        · exact absurd (Prod.mk.inj (Prod.mk.inj h).2).2 (Option.some_ne_none _)
        · split at h
          · exact absurd (Prod.mk.inj (Prod.mk.inj h).2).2 (Option.some_ne_none _)
          · exact absurd (Prod.mk.inj (Prod.mk.inj h).2).2 (Option.some_ne_none _)

/-- **What `next` does when it starts a route**: it was come to by moves, no job
is ready, the window pays for what is needed, and the rest is `startOn`. -/
theorem next_starting {c : Core F κ} {budget : WindowLimiter} {x : Starting F κ}
    (h : c.starting q now reads budget = some x) :
    c.next q now reads budget = x.core.startOn q x.route x.cls x.reserve now reads x.budget ∧
      ReflTransGen (Move q now) (c, none) (x.core, none) ∧ x.core.ready = [] ∧
      (x.need q reads = 0 ∨ x.need q reads ≤ (x.budget.available now x.reserve).1) := by
  unfold Core.starting at h
  have hp := @popReady_moves _ _ _ _ _ q now c
  rcases hpop : c.popReady with ⟨d, _ | j⟩
  swap
  · rw [hpop] at h
    exact nomatch h
  rw [hpop] at h hp
  simp only at h
  have hn := @nextContinuations_moves _ _ _ _ _ q now reads (decide (d.cfg.maxInFlight ≤ d.inflight.entries.length))
    d.continuations.length d budget
  rcases hcont : Core.nextContinuations q now reads (decide (d.cfg.maxInFlight ≤ d.inflight.entries.length))
    d.continuations.length d budget with ⟨e, b, _ | step⟩
  swap
  · rw [hcont] at h
    exact nomatch h
  rw [hcont] at h hn
  simp only at h
  have hfull : ¬decide (d.cfg.maxInFlight ≤ d.inflight.entries.length) = true := fun hf => by
    rw [if_pos hf] at h
    exact nomatch h
  rw [if_neg hfull] at h
  have hnext : c.next q now reads budget = e.nextStart q now reads b := by
    unfold Core.next
    rw [hpop]
    simp only
    rw [hcont]
    simp only
    rw [if_neg hfull]
  have hready : e.ready = [] := nextContinuations_ready (popReady_ready hpop) hcont
  unfold Core.startingOn at h
  obtain ⟨⟨route, cls, reserve⟩, hchoice, hadm⟩ := Option.bind_eq_some_iff.mp h
  simp only at hadm
  rcases hb : admission b now reserve (e.requestsFor q route reads.requests + e.owed) with ⟨_ | t, b'⟩
  swap
  · rw [hb] at hadm
    exact nomatch hadm
  rw [hb] at hadm
  obtain rfl := Option.some.inj hadm
  refine ⟨?_, (hp none).trans hn, hready, ?_⟩
  · rw [hnext]
    unfold Core.nextStart
    cases hbest : e.bestTriggered now reads.score with
    | some r =>
      rw [hbest] at hchoice
      obtain ⟨rfl, rfl, rfl⟩ : r = route ∧ Class.urgent = cls ∧ 0 = reserve := by simpa using hchoice
      simp only [hb]
    | none =>
      rw [hbest] at hchoice
      obtain ⟨r, hr, he⟩ := Option.map_eq_some_iff.mp hchoice
      obtain ⟨rfl, rfl, rfl⟩ : r = route ∧ Class.background = cls ∧ e.cfg.reserve = reserve := by simpa using he
      simp only [hr, Option.map_some, hb]
  · unfold admission at hb
    show e.requestsFor q route reads.requests + e.owed = 0 ∨ _
    split at hb
    · rename_i hzero
      exact .inl hzero
    · simp only at hb
      split at hb
      · exact nomatch (Prod.mk.inj hb).1
      · rename_i hfree
        right
        obtain rfl := (Prod.mk.inj hb).2
        rw [WindowLimiter.available_again]
        exact Nat.le_of_not_lt hfree

/-! ### What is owed, a job at a time -/

/-- Slots owed to one job. -/
def Core.owes (c : Core F κ) (i : ℕ) (j : Job F) : ℕ :=
  let left := (c.route j.route).plan.legs.length - j.legs.length
  let waiting := if c.inflight.entries.any fun f => i ∈ f.2.jobs then 1 else 0
  left - min waiting left

/-- What is owed to all jobs but one. -/
def Core.owedBut (c : Core F κ) (job : ℕ) : ℕ := ((c.jobs.erase job).entries.map fun e => c.owes e.1 e.2).sum

theorem any_waits {c : Core F κ} {i : ℕ} :
    (c.inflight.entries.any fun f => i ∈ f.2.jobs) = true ↔ i ∈ held InFlight.jobs c.inflight := by
  unfold held
  rw [List.any_eq_true, List.mem_flatMap]
  exact exists_congr fun f => and_congr_right fun _ => decide_eq_true_iff

theorem owes_waiting {c : Core F κ} {i : ℕ} {j : Job F} (h : i ∈ held InFlight.jobs c.inflight) :
    c.owes i j = (c.route j.route).plan.legs.length - j.legs.length - 1 := by
  unfold Core.owes
  rw [if_pos (any_waits.mpr h)]
  simp only
  omega

theorem owes_alone {c : Core F κ} {i : ℕ} {j : Job F} (h : i ∉ held InFlight.jobs c.inflight) :
    c.owes i j = (c.route j.route).plan.legs.length - j.legs.length := by
  have hn : ¬(c.inflight.entries.any fun f => i ∈ f.2.jobs) = true := fun hw => h (any_waits.mp hw)
  unfold Core.owes
  rw [if_neg hn]
  simp only
  omega

theorem owed_split {c : Core F κ} {job : ℕ} {j : Job F} (hj : c.jobs.lookup job = some j) :
    c.owed = c.owes job j + c.owedBut job := by
  have hperm := (entries_erase_perm hj).map fun e => c.owes e.1 e.2
  exact hperm.sum_eq.trans (List.sum_cons ..)

theorem owedBut_of_not_mem {c : Core F κ} {job : ℕ} (h : job ∉ c.jobs) : c.owedBut job = c.owed := by
  unfold Core.owedBut
  rw [erase_of_lookup_none (AList.lookup_eq_none.mpr h)]
  rfl

/-- What becomes of one job leaves what is owed to the others. -/
structure Aside (job : ℕ) (c d : Core F κ) : Prop where
  defs : d.defs = c.defs
  jobs : d.jobs.erase job = c.jobs.erase job
  waits : ∀ i, i ≠ job → (i ∈ held InFlight.jobs d.inflight ↔ i ∈ held InFlight.jobs c.inflight)

theorem Aside.refl (job : ℕ) (c : Core F κ) : Aside job c c := ⟨rfl, rfl, fun _ _ => Iff.rfl⟩

theorem Aside.trans {job : ℕ} {c d e : Core F κ} (h : Aside job c d) (h' : Aside job d e) : Aside job c e :=
  ⟨h'.defs.trans h.defs, h'.jobs.trans h.jobs, fun i hi => (h'.waits i hi).trans (h.waits i hi)⟩

theorem owes_congr {c d : Core F κ} (hd : d.defs = c.defs) {i : ℕ}
    (hw : i ∈ held InFlight.jobs d.inflight ↔ i ∈ held InFlight.jobs c.inflight) (j : Job F) :
    d.owes i j = c.owes i j := by
  have hroute : d.route j.route = c.route j.route := congrArg (fun l => l.getD j.route default) hd
  by_cases h : i ∈ held InFlight.jobs c.inflight
  · rw [owes_waiting h, owes_waiting (hw.mpr h), hroute]
  · rw [owes_alone h, owes_alone (fun hd => h (hw.mp hd)), hroute]

theorem Aside.owedBut {job : ℕ} {c d : Core F κ} (h : Aside job c d) : d.owedBut job = c.owedBut job := by
  unfold Core.owedBut
  rw [h.jobs]
  congr 1
  refine List.map_congr_left fun e he => owes_congr h.defs (h.waits e.1 fun hi => ?_) e.2
  have hmem : e.1 ∈ c.jobs.erase job := List.mem_keys_of_mem he
  exact (AList.mem_erase.mp hmem).1 hi

theorem erase_insert (s : Map ℕ (Job F)) (job : ℕ) (j : Job F) : (s.insert job j).erase job = s.erase job := by
  refine AList.ext ?_
  show List.kerase job (⟨job, j⟩ :: List.kerase job s.entries) = List.kerase job s.entries
  exact List.kerase_cons_eq rfl

/-- The legs of the job change. -/
theorem Aside.rejob (c : Core F κ) (job : ℕ) (j : Job F) : Aside job c { c with jobs := c.jobs.insert job j } :=
  ⟨rfl, erase_insert c.jobs job j, fun _ _ => Iff.rfl⟩

/-- The job waits for a request, in flight or new. -/
theorem Aside.request (c : Core F κ) {job : ℕ} {key : κ} {f : InFlight F}
    (hf : ∀ i, i ≠ job → (i ∈ f.jobs ↔ ∃ f₀, c.inflight.lookup key = some f₀ ∧ i ∈ f₀.jobs)) :
    Aside job c { c with inflight := c.inflight.insert key f } := by
  refine ⟨rfl, rfl, fun i hi => ?_⟩
  show i ∈ held InFlight.jobs (c.inflight.insert key f) ↔ _
  rw [held_insert, List.mem_append, hf i hi]
  cases hk : c.inflight.lookup key with
  | none =>
    rw [erase_of_lookup_none hk]
    simp
  | some f₀ =>
    rw [(held_erase_perm InFlight.jobs hk).mem_iff, List.mem_append]
    simp

/-! ### A job that is advanced -/

/-- Where a job in hand, with `n` of its legs, is left: with all of them, waiting
for a request, blocked behind one, or with a request to send. -/
inductive Left (job total n : ℕ) (ready : List ℕ) (d : Core F κ) : Option (κ × ℕ × ρ) → Prop
  | complete : n = total → d.ready = ready ++ [job] → Left job total n ready d none
  | joined : n < total → job ∈ held InFlight.jobs d.inflight → d.ready = ready → Left job total n ready d none
  | blocked : n < total → job ∉ held InFlight.jobs d.inflight → d.ready = ready → Left job total n ready d none
  | send {key : κ} {index : ℕ} {req : ρ} : n < total → job ∉ held InFlight.jobs d.inflight →
      d.inflight.lookup key = none → Left job total n ready d (some (key, index, req))

/-- What advancing a job does: it may get legs, and is left somewhere; the others are as they were. -/
structure Went (job : ℕ) (c : Core F κ) (j : Job F) (x : Core F κ × Option (κ × ℕ × ρ)) (j' : Job F) : Prop where
  found : x.1.jobs.lookup job = some j'
  route : j'.route = j.route
  legs : j.legs.length ≤ j'.legs.length
  aside : Aside job c x.1
  left : Left job (c.route j.route).plan.legs.length j'.legs.length c.ready x.1 x.2

theorem waits_join {c : Core F κ} {job : ℕ} {key : κ} {f : InFlight F} (hf : c.inflight.lookup key = some f) :
    Aside job c { c with inflight := c.inflight.insert key { f with jobs := f.jobs ++ [job] } } ∧
      job ∈ held InFlight.jobs (c.inflight.insert key { f with jobs := f.jobs ++ [job] }) := by
  constructor
  · refine Aside.request c fun i hi => ?_
    rw [List.mem_append, List.mem_singleton]
    exact ⟨fun h => ⟨f, hf, h.resolve_right hi⟩, fun ⟨f₀, hf₀, h⟩ => .inl (Option.some.inj (hf.symm.trans hf₀) ▸ h)⟩
  · rw [held_insert]
    exact List.mem_append_left _ (List.mem_append_right _ (List.mem_singleton_self job))

/-- A round of `advance` that finds no usable leg in the cache. -/
def Core.joins (c : Core F κ) (job : ℕ) (j : Job F) (now : Instant) (key : κ) (index : ℕ) (req : ρ) :
    Core F κ × Option (κ × ℕ × ρ) :=
  match c.inflight.lookup key with
  | some f =>
    if c.reflects f.sent f.obs f.mids j.trigger now then
      ({ c with inflight := c.inflight.insert key { f with jobs := f.jobs ++ [job] } }, none)
    else ({ c with blockedOn := c.blockedOn.insert key ((c.blockedOn.lookup key).getD [] ++ [job]) }, none)
  | none => (c, some (key, index, req))

section Round

variable {c : Core F κ} {job index : ℕ} {req : ρ} {j : Job F}

theorem joins_went (hj : c.jobs.lookup job = some j) (hr : c.nextReq q job = some (index, req))
    (hw : job ∉ held InFlight.jobs c.inflight) : Went job c j (c.joins job j now (q.key req) index req) j := by
  have hlt := (nextReq_index hj hr).2
  unfold Core.joins
  cases hf : c.inflight.lookup (q.key req) with
  | none => exact ⟨hj, rfl, le_rfl, .refl job c, .send hlt hw hf⟩
  | some f =>
    simp only
    split
    · obtain ⟨haside, hin⟩ := waits_join hf
      exact ⟨hj, rfl, le_rfl, haside, .joined hlt hin rfl⟩
    · exact ⟨hj, rfl, le_rfl, ⟨rfl, rfl, fun _ _ => Iff.rfl⟩, .blocked hlt hw rfl⟩

/-- It waits for a request in flight that shows its change, and is left with one to send when none is in flight. -/
theorem joins_out (hw : job ∉ held InFlight.jobs c.inflight) (key : κ) :
    (job ∈ held InFlight.jobs (c.joins job j now key index req).1.inflight ↔
      (c.inflight.lookup key).any (fun f => c.reflects f.sent f.obs f.mids j.trigger now) = true) ∧
    (c.joins job j now key index req).2.isNone = (c.inflight.lookup key).isSome := by
  unfold Core.joins
  cases hf : c.inflight.lookup key with
  | none => exact ⟨⟨fun h => absurd h hw, nofun⟩, rfl⟩
  | some f =>
    simp only [Option.any_some]
    split
    · rename_i hc
      exact ⟨iff_of_true (waits_join hf).2 hc, rfl⟩
    · rename_i hc
      exact ⟨iff_of_false hw hc, rfl⟩

theorem advanceLoop_joins (hj : c.jobs.lookup job = some j) (hr : c.nextReq q job = some (index, req))
    (hu : c.usable (q.key req) j.trigger now (reads.leg job index) = none) (fuel : ℕ) :
    Core.advanceLoop q job now reads fuel c = c.joins job j now (q.key req) index req := by
  unfold Core.advanceLoop Core.joins
  cases hf : c.inflight.lookup (q.key req) with
  | none => simp only [hr, hj, hu, hf]
  | some f => simp only [hr, hj, hu, hf]

theorem advanceLoop_takes (hj : c.jobs.lookup job = some j) (hr : c.nextReq q job = some (index, req)) {e : Cached F}
    (hu : c.usable (q.key req) j.trigger now (reads.leg job index) = some e) (fuel : ℕ) :
    Core.advanceLoop q job now reads (fuel + 1) c = Core.advanceLoop q job now reads fuel
      { c with jobs := c.jobs.insert job (j.pushCached e.leg e.obs now) } := by
  conv_lhs => unfold Core.advanceLoop
  simp only [hr, hj, hu]

theorem advanceLoop_complete (hr : c.nextReq q job = none) (fuel : ℕ) :
    Core.advanceLoop q job now reads fuel c = ({ c with ready := c.ready ++ [job] }, none) := by
  unfold Core.advanceLoop
  simp only [hr]

theorem nextReq_eq (hj : c.jobs.lookup job = some j) : c.nextReq q job =
    (c.route j.route).plan.legs[j.legs.length]?.map fun spec => (j.legs.length, q.makeReq spec (match j.legs.getLast? with
      | none => (c.route j.route).plan.amount
      | some l => l.leg.outAmount)) := by
  unfold Core.nextReq
  rw [hj]
  rfl

end Round

/-- **What `advance` does with a job in hand.** -/
theorem advanceLoop_spec {job : ℕ} : ∀ {fuel : ℕ} {c : Core F κ} {j : Job F}, c.jobs.lookup job = some j →
    (c.route j.route).plan.legs.length = j.legs.length + fuel → job ∉ held InFlight.jobs c.inflight →
    ∃ j', Went job c j (Core.advanceLoop q job now reads fuel c) j' := by
  intro fuel
  induction fuel with
  | zero =>
    intro c j hj htotal hw
    have hr : c.nextReq q job = none := by
      rw [nextReq_eq hj, List.getElem?_eq_none (by omega)]
      rfl
    rw [advanceLoop_complete hr]
    exact ⟨j, hj, rfl, le_rfl, ⟨rfl, rfl, fun _ _ => Iff.rfl⟩, .complete htotal.symm rfl⟩
  | succ fuel ih =>
    intro c j hj htotal hw
    have hlt : j.legs.length < (c.route j.route).plan.legs.length := by omega
    obtain ⟨req, hr⟩ : ∃ req, c.nextReq q job = some (j.legs.length, req) := by
      rw [nextReq_eq hj, List.getElem?_eq_getElem hlt]
      exact ⟨_, rfl⟩
    cases hu : c.usable (q.key req) j.trigger now (reads.leg job j.legs.length) with
    | none =>
      rw [advanceLoop_joins hj hr hu]
      exact ⟨j, joins_went hj hr hw⟩
    | some e =>
      rw [advanceLoop_takes hj hr hu]
      have hlegs : (j.pushCached e.leg e.obs now).legs.length = j.legs.length + 1 := List.length_append
      obtain ⟨j', h⟩ := ih (c := { c with jobs := c.jobs.insert job (j.pushCached e.leg e.obs now) })
        (j := j.pushCached e.leg e.obs now) (AList.lookup_insert _) (by
          rw [hlegs]
          show (c.route j.route).plan.legs.length = _
          omega) hw
      have hl := h.legs
      exact ⟨j', h.found, h.route, by omega, (Aside.rejob c job _).trans h.aside, h.left⟩

/-! ### What is owed then -/

/-- Nothing is ready: nothing happens. -/
theorem popReady_none {d : Core F κ} (h : d.ready = []) : d.popReady = ({ d with ready := [] }, none) := by
  unfold Core.popReady
  rw [h]
  rfl

/-- A job that has all its legs is handed out, or dropped as a repeat. -/
theorem popReady_complete {d : Core F κ} {job : ℕ} {j : Job F} (hr : d.ready = [job]) (hj : d.jobs.lookup job = some j)
    (hl : j.legs.length = (d.route j.route).plan.legs.length) : d.popReady.1.owed = d.owedBut job := by
  unfold Core.popReady
  rw [hr]
  unfold Core.popReadyFrom
  rw [hj]
  simp only
  split
  · rfl
  · show d.owed = d.owedBut job
    have hzero : d.owes job j = 0 := by
      unfold Core.owes
      simp only
      omega
    rw [owed_split hj, hzero, Nat.zero_add]

theorem dispatch_owed {d : Core F κ} {job index : ℕ} {key : κ} {req : ρ} {j : Job F} (hj : d.jobs.lookup job = some j)
    (hk : d.inflight.lookup key = none) : (d.dispatch job key index req now).1.owed =
      (d.route j.route).plan.legs.length - j.legs.length - 1 + d.owedBut job := by
  obtain ⟨j', hj', hlegs, hroute⟩ : ∃ j', (d.dispatch job key index req now).1.jobs.lookup job = some j' ∧
      j'.legs = j.legs ∧ j'.route = j.route := by
    unfold Core.dispatch
    rw [hj]
    simp only
    split
    · exact ⟨{ j with dispatched := now }, AList.lookup_insert _, rfl, rfl⟩
    · exact ⟨j, hj, rfl, rfl⟩
  have haside : Aside job d (d.dispatch job key index req now).1 := by
    unfold Core.dispatch
    rw [hj]
    simp only
    have hrequest : ∀ f : InFlight F, f.jobs = [job] → Aside job d { d with inflight := d.inflight.insert key f } := by
      intro f hf
      refine Aside.request d fun i hi => ?_
      rw [hf, List.mem_singleton]
      refine ⟨fun h => absurd h hi, fun ⟨f₀, hf₀, _⟩ => ?_⟩
      exact nomatch hk.symm.trans hf₀
    refine ⟨rfl, ?_, (hrequest _ rfl).waits⟩
    simp only
    split
    · exact erase_insert d.jobs job _
    · rfl
  have hin : job ∈ held InFlight.jobs (d.dispatch job key index req now).1.inflight := by
    unfold Core.dispatch
    rw [hj]
    simp only
    rw [held_insert]
    exact List.mem_append_left _ (List.mem_singleton_self job)
  have hplan : (d.dispatch job key index req now).1.route j.route = d.route j.route :=
    congrArg (fun l => l.getD j.route default) haside.defs
  rw [owed_split hj', owes_waiting hin, haside.owedBut, hlegs, hroute, hplan]

theorem abandon_owed {d : Core F κ} {job : ℕ} {j : Job F} (hj : d.jobs.lookup job = some j) :
    (d.abandon job).owed = d.owedBut job := by
  unfold Core.abandon
  simp only [hj]
  rfl

/-! ### A job that is started -/

/-- A job without legs is advanced: it takes its first leg or waits for it when
`takesFirst` says so; otherwise it is blocked when the leg is in flight, and left
with the request when it is not. -/
theorem first_leg {c : Core F κ} {job : ℕ} {j : Job F} {spec : LegSpec} {rest : List LegSpec}
    (hj : c.jobs.lookup job = some j) (hlegs : j.legs = []) (hplan : (c.route j.route).plan.legs = spec :: rest)
    (hw : job ∉ held InFlight.jobs c.inflight) :
    let key := q.key (q.makeReq spec (c.route j.route).plan.amount)
    let takes := (c.usable key j.trigger now (reads.leg job 0)).isSome ||
      (c.inflight.lookup key).any fun f => c.reflects f.sent f.obs f.mids j.trigger now
    let out := Core.advanceLoop q job now reads (rest.length + 1) c
    ∃ j', Went job c j out j' ∧ (takes = true → 0 < j'.legs.length ∨ job ∈ held InFlight.jobs out.1.inflight) ∧
      (takes = false → j'.legs.length = 0 ∧ job ∉ held InFlight.jobs out.1.inflight ∧
        out.2.isNone = (c.inflight.lookup key).isSome) := by
  intro key takes out
  have hr : c.nextReq q job = some (0, q.makeReq spec (c.route j.route).plan.amount) := by
    rw [nextReq_eq hj, hlegs, hplan]
    rfl
  cases hu : c.usable key j.trigger now (reads.leg job 0) with
  | none =>
    have hout : out = c.joins job j now key 0 (q.makeReq spec (c.route j.route).plan.amount) :=
      advanceLoop_joins hj hr hu _
    have htakes : takes = (c.inflight.lookup key).any fun f => c.reflects f.sent f.obs f.mids j.trigger now := by
      show ((c.usable key j.trigger now (reads.leg job 0)).isSome || _) = _
      rw [hu]
      rfl
    obtain ⟨hin, hnone⟩ := @joins_out _ _ _ _ _ now c job 0
      (q.makeReq spec (c.route j.route).plan.amount) j hw key
    rw [← htakes] at hin
    rw [hout]
    refine ⟨j, joins_went hj hr hw, fun h => .inr (hin.mpr h), fun h => ⟨by rw [hlegs]; rfl, fun hm => ?_, hnone⟩⟩
    exact nomatch h.symm.trans (hin.mp hm)
  | some e =>
    have hlen : (j.pushCached e.leg e.obs now).legs.length = 1 := by
      show (j.legs ++ [e.leg]).length = 1
      rw [hlegs]
      rfl
    have hout : out = Core.advanceLoop q job now reads rest.length
        { c with jobs := c.jobs.insert job (j.pushCached e.leg e.obs now) } := advanceLoop_takes hj hr hu _
    have htakes : takes = true := by
      show ((c.usable key j.trigger now (reads.leg job 0)).isSome || _) = true
      rw [hu]
      rfl
    obtain ⟨j', h⟩ := @advanceLoop_spec _ _ _ _ _ q now reads job rest.length
      { c with jobs := c.jobs.insert job (j.pushCached e.leg e.obs now) }
      (j.pushCached e.leg e.obs now) (AList.lookup_insert _) (by
        rw [hlen]
        show (c.route j.route).plan.legs.length = _
        rw [hplan, List.length_cons, Nat.add_comm]) hw
    have hpos : 0 < j'.legs.length := by
      have hl := h.legs
      omega
    rw [hout]
    refine ⟨j', ⟨h.found, h.route, by rw [hlegs]; exact Nat.zero_le _, (Aside.rejob c job _).trans h.aside, h.left⟩,
      fun _ => .inl hpos, fun hf => ?_⟩
    exact nomatch hf.symm.trans htakes

/-- A job that is put somewhere owes what is left of it. -/
theorem popReady_owed {d : Core F κ} {job : ℕ} {j : Job F} (hj : d.jobs.lookup job = some j)
    (hl : @Left F ρ κ _ job (d.route j.route).plan.legs.length j.legs.length [] d none) :
    d.popReady.1.owed = d.owes job j + d.owedBut job := by
  have hnone : d.ready = [] → d.popReady.1.owed = d.owes job j + d.owedBut job := fun hr => by
    rw [popReady_none hr]
    exact owed_split hj
  cases hl with
  | complete hn hr =>
    have hzero : d.owes job j = 0 := by
      unfold Core.owes
      simp only
      omega
    rw [popReady_complete hr hj hn, hzero, Nat.zero_add]
  | joined _ _ hr => exact hnone hr
  | blocked _ _ hr => exact hnone hr

theorem startOn_put {c d : Core F κ} {r reserve : ℕ} {cls : Class} {budget : WindowLimiter}
    (h : (c.startJob r cls now).1.advance q c.nextJob now reads = (d, none)) :
    (c.startOn q r cls reserve now reads budget).1 = d.popReady.1 ∧
      (c.startOn q r cls reserve now reads budget).2.1 = budget := by
  have hid : (c.startJob r cls now).2 = c.nextJob := rfl
  unfold Core.startOn
  simp only [hid, h]
  rcases d.popReady with ⟨e, _ | i⟩
  · exact ⟨rfl, rfl⟩
  · exact ⟨rfl, rfl⟩

theorem startOn_send {c d : Core F κ} {r reserve index : ℕ} {cls : Class} {budget : WindowLimiter} {key : κ} {req : ρ}
    (h : (c.startJob r cls now).1.advance q c.nextJob now reads = (d, some (key, index, req))) :
    (c.startOn q r cls reserve now reads budget).2.1 = (budget.tryAcquire now reserve).2 ∧
      (c.startOn q r cls reserve now reads budget).1 = match (budget.tryAcquire now reserve).1 with
        | .ok _ => (d.dispatch c.nextJob key index req now).1
        | .error _ => d.abandon c.nextJob := by
  have hid : (c.startJob r cls now).2 = c.nextJob := rfl
  unfold Core.startOn
  simp only [hid, h]
  rcases budget.tryAcquire now reserve with ⟨_ | _, b⟩
  · exact ⟨rfl, rfl⟩
  · exact ⟨rfl, rfl⟩

/-- The first leg, if any, is counted as free when it is in flight. -/
theorem requestsFor_bounds (c : Core F κ) (r : ℕ) (clock : Instant) :
    (c.route r).plan.legs.length - 1 ≤ c.requestsFor q r clock ∧
      c.requestsFor q r clock ≤ (c.route r).plan.legs.length ∧
      ((c.firstKey q r).any (fun key => (c.inflight.lookup key).isSome) = true →
        c.requestsFor q r clock = (c.route r).plan.legs.length - 1) := by
  unfold Core.requestsFor Core.firstKey
  simp only
  refine ⟨by split <;> omega, by split <;> omega, fun h => ?_⟩
  obtain ⟨key, hk, hin⟩ := (Option.any_eq_true _ _).mp h
  rw [hk, Option.any_some, hin, Bool.or_true, if_pos rfl]

theorem tryAcquire_spec (g : WindowLimiter) (now : Instant) (reserve : ℕ) :
    (∃ b, g.tryAcquire now reserve = (.ok (), b)) ∨
      ∃ wait b, g.tryAcquire now reserve = (.error wait, b) ∧ (g.available now reserve).1 = 0 := by
  unfold WindowLimiter.tryAcquire
  simp only
  split
  · exact .inl ⟨_, rfl⟩
  · rename_i h
    exact .inr ⟨_, _, rfl, Nat.eq_zero_of_not_pos h⟩

/-- A job on a route without legs has nothing to do. -/
theorem no_legs {c : Core F κ} {job : ℕ} {j : Job F} (hj : c.jobs.lookup job = some j) (hlegs : j.legs = [])
    (hplan : (c.route j.route).plan.legs = []) : Went job c j (Core.advanceLoop q job now reads 0 c) j := by
  have hr : c.nextReq q job = none := by
    rw [nextReq_eq hj, hlegs, hplan]
    rfl
  have hlen : j.legs.length = (c.route j.route).plan.legs.length := by rw [hlegs, hplan]; rfl
  rw [advanceLoop_complete hr]
  exact ⟨hj, rfl, le_rfl, ⟨rfl, rfl, fun _ _ => Iff.rfl⟩, .complete hlen rfl⟩

/-- A job just started is advanced: with the first leg taken or waited for, or as
the first request leaves it. -/
theorem startJob_went {c : Core F κ} {r : ℕ} {cls : Class} (hnew : c.nextJob ∉ c.jobs)
    (hw : c.nextJob ∉ held InFlight.jobs c.inflight) {d : Core F κ} {out : Option (κ × ℕ × ρ)}
    (h : (c.startJob r cls now).1.advance q c.nextJob now reads = (d, out)) :
    ∃ j, d.jobs.lookup c.nextJob = some j ∧ d.route j.route = c.route r ∧ d.owedBut c.nextJob = c.owed ∧
      Left c.nextJob (c.route r).plan.legs.length j.legs.length c.ready d out ∧
      (c.takesFirst q r now (reads.leg c.nextJob 0) = true →
        0 < j.legs.length ∨ c.nextJob ∈ held InFlight.jobs d.inflight) ∧
      (c.takesFirst q r now (reads.leg c.nextJob 0) = false → 0 < (c.route r).plan.legs.length →
        j.legs.length = 0 ∧ c.nextJob ∉ held InFlight.jobs d.inflight ∧
        out.isNone = (c.firstKey q r).any fun key => (c.inflight.lookup key).isSome) := by
  obtain ⟨j₀, hj₀, hroute, hlegs, htrigger⟩ : ∃ j₀, (c.startJob r cls now).1.jobs.lookup c.nextJob = some j₀ ∧
      j₀.route = r ∧ j₀.legs = [] ∧ j₀.trigger = (c.state r).trigger := ⟨_, AList.lookup_insert _, rfl, rfl, rfl⟩
  have hplan₀ : (c.startJob r cls now).1.route j₀.route = c.route r := by rw [hroute]; rfl
  have hleft : (c.startJob r cls now).1.legsLeft c.nextJob = (c.route r).plan.legs.length := by
    unfold Core.legsLeft
    rw [hj₀]
    simp only [hplan₀, hlegs, List.length_nil, Nat.sub_zero]
  have hothers : (c.startJob r cls now).1.owedBut c.nextJob = c.owed := by
    have haside : Aside c.nextJob c (c.startJob r cls now).1 := ⟨rfl, erase_insert .., fun _ _ => Iff.rfl⟩
    rw [haside.owedBut, owedBut_of_not_mem hnew]
  -- the parts that any run of `advance` gives
  have hparts : ∀ {j : Job F}, Went c.nextJob (c.startJob r cls now).1 j₀ (d, out) j →
      d.jobs.lookup c.nextJob = some j ∧ d.route j.route = c.route r ∧ d.owedBut c.nextJob = c.owed ∧
        Left c.nextJob (c.route r).plan.legs.length j.legs.length c.ready d out := fun {j} hwent => by
    have hdefs : d.route j.route = (c.startJob r cls now).1.route j₀.route := by
      rw [hwent.route]
      exact congrArg (fun l => l.getD j₀.route default) hwent.aside.defs
    have hl := hwent.left
    rw [hplan₀] at hl
    exact ⟨hwent.found, hdefs.trans hplan₀, hwent.aside.owedBut.trans hothers, hl⟩
  unfold Core.advance at h
  rw [hleft] at h
  cases hp : (c.route r).plan.legs with
  | nil =>
    have hwent := @no_legs _ _ _ _ _ q now reads _ _ _ hj₀ hlegs (by rw [hplan₀, hp])
    have htakes : c.takesFirst q r now (reads.leg c.nextJob 0) = false := by
      unfold Core.takesFirst Core.firstKey
      rw [hp]
      rfl
    rw [hp] at h
    rw [List.length_nil] at h
    rw [h] at hwent
    obtain ⟨h₁, h₂, h₃, h₄⟩ := hparts hwent
    rw [hp] at h₄
    refine ⟨j₀, h₁, h₂, h₃, h₄, fun ht => ?_, fun _ hpos => ?_⟩
    · exact nomatch htakes.symm.trans ht
    · exact absurd hpos (lt_irrefl 0)
  | cons spec rest =>
    obtain ⟨j, hwent, htake, hno⟩ := @first_leg _ _ _ _ _ q now reads _ _ _ _ _ hj₀ hlegs
      (by rw [hplan₀]; exact hp) hw
    have hkey : c.firstKey q r = some (q.key (q.makeReq spec (c.route r).plan.amount)) := by
      unfold Core.firstKey
      rw [hp]
      rfl
    have htakes : c.takesFirst q r now (reads.leg c.nextJob 0) =
        (((c.startJob r cls now).1.usable (q.key (q.makeReq spec ((c.startJob r cls now).1.route j₀.route).plan.amount))
            j₀.trigger now (reads.leg c.nextJob 0)).isSome ||
          ((c.startJob r cls now).1.inflight.lookup
            (q.key (q.makeReq spec ((c.startJob r cls now).1.route j₀.route).plan.amount))).any fun f =>
              (c.startJob r cls now).1.reflects f.sent f.obs f.mids j₀.trigger now) := by
      unfold Core.takesFirst
      rw [hkey, hplan₀, htrigger]
      rfl
    rw [hp, List.length_cons] at h
    rw [h] at hwent htake hno
    rw [← htakes] at htake hno
    obtain ⟨h₁, h₂, h₃, h₄⟩ := hparts hwent
    rw [hp] at h₄
    refine ⟨j, h₁, h₂, h₃, h₄, htake, fun ht _ => ?_⟩
    obtain ⟨hzero, hnot, hout⟩ := hno ht
    refine ⟨hzero, hnot, ?_⟩
    rw [hkey, Option.any_some, hout, hplan₀]
    rfl

/-- **Starting a route leaves the window with what is owed exactly when the start is backed.** -/
theorem startOn_pays_iff {x : Starting F κ} (hnew : x.core.nextJob ∉ x.core.jobs)
    (hw : x.core.nextJob ∉ held InFlight.jobs x.core.inflight) (hready : x.core.ready = [])
    (hneed : x.need q reads = 0 ∨ x.need q reads ≤ (x.budget.available now x.reserve).1) :
    let y := x.core.startOn q x.route x.cls x.reserve now reads x.budget
    y.1.owed ≤ (y.2.1.available now x.reserve).1 ↔ x.Backed q now reads := by
  intro y
  obtain ⟨hlow, hhigh, hflight⟩ := @requestsFor_bounds _ _ _ _ _ q x.core x.route reads.requests
  have hneed_eq : x.need q reads = x.core.requestsFor q x.route reads.requests + x.core.owed := rfl
  have hcounted : x.counted q reads = true ↔
      x.core.requestsFor q x.route reads.requests < (x.core.route x.route).plan.legs.length := decide_eq_true_iff
  rcases hadv : (x.core.startJob x.route x.cls now).1.advance q x.core.nextJob now reads with ⟨d, out⟩
  obtain ⟨j, hj, hroute, hothers, hleft, htake, hno⟩ := startJob_went hnew hw hadv
  rw [hready] at hleft
  generalize htotal : (x.core.route x.route).plan.legs.length = total at *
  have hplan : (d.route j.route).plan.legs.length = total := by rw [hroute]; exact htotal
  cases out with
  | none =>
    obtain ⟨h₁, h₂⟩ := @startOn_put _ _ _ _ _ q now reads _ _ _ x.reserve _ x.budget hadv
    have howed : y.1.owed = d.owes x.core.nextJob j + x.core.owed := by
      show (x.core.startOn q x.route x.cls x.reserve now reads x.budget).1.owed = _
      rw [h₁, ← hothers]
      exact popReady_owed hj (hplan.symm ▸ hleft)
    have hbudget : y.2.1 = x.budget := h₂
    rw [howed, hbudget]
    cases ht : x.core.takesFirst q x.route now (reads.leg x.core.nextJob 0) with
    | true =>
      -- the leg counted as free, if it was, is the job's
      have howes : d.owes x.core.nextJob j ≤ total - 1 := by
        rcases htake ht with hpos | hin
        · unfold Core.owes
          simp only [hplan]
          omega
        · rw [owes_waiting hin, hplan]
          omega
      refine iff_of_true ?_ fun _ hf => (nomatch ht.symm.trans hf)
      omega
    | false =>
      rcases Nat.eq_zero_or_pos total with hz | hpos
      · have howes : d.owes x.core.nextJob j = 0 := by
          unfold Core.owes
          simp only [hplan]
          omega
        refine iff_of_true (by omega) fun hc _ => ?_
        have hlt := hcounted.mp hc
        omega
      · -- blocked behind the one in flight
        obtain ⟨hzero, hnot, hin⟩ := hno ht hpos
        have hin' := hin.symm
        rw [Option.isNone_none] at hin'
        have hreq := hflight hin'
        have howes : d.owes x.core.nextJob j = total := by rw [owes_alone hnot, hplan, hzero, Nat.sub_zero]
        have hspare : x.spare q now reads ↔ x.need q reads < (x.budget.available now x.reserve).1 := by
          unfold Starting.spare
          rw [if_pos hin']
        have hback : x.Backed q now reads ↔ x.spare q now reads :=
          ⟨fun h => h (hcounted.mpr (by omega)) ht, fun h _ _ => h⟩
        rw [hback, hspare, howes]
        omega
  | some req =>
    obtain ⟨key, index, req⟩ := req
    obtain ⟨h₁, h₂⟩ := @startOn_send _ _ _ _ _ q now reads _ _ _ x.reserve _ _ x.budget _ _ hadv
    have hbudget : y.2.1 = (x.budget.tryAcquire now x.reserve).2 := h₁
    rcases hleft with _ | _ | _ | ⟨hlt, hnot, hk⟩
    rcases tryAcquire_spec x.budget now x.reserve with ⟨b, hb⟩ | ⟨wait, b, hb, hempty⟩
    · have hafter := WindowLimiter.available_taken hb
      have howed : y.1.owed = total - j.legs.length - 1 + x.core.owed := by
        show (x.core.startOn q x.route x.cls x.reserve now reads x.budget).1.owed = _
        rw [h₂, hb, ← hothers, ← hplan]
        exact dispatch_owed hj hk
      rw [howed, hbudget, hb]
      cases ht : x.core.takesFirst q x.route now (reads.leg x.core.nextJob 0) with
      | true =>
        have hpos : 0 < j.legs.length := (htake ht).resolve_right hnot
        refine iff_of_true ?_ fun _ hf => (nomatch ht.symm.trans hf)
        simp only
        omega
      | false =>
        obtain ⟨hzero, -, hin⟩ := hno ht (by omega)
        have hin' := hin.symm
        rw [Option.isNone_some] at hin'
        have hspare : x.spare q now reads ↔ x.need q reads ≤ (b.available now x.reserve).1 := by
          unfold Starting.spare
          rw [if_neg (by rw [hin']; exact Bool.false_ne_true), hb]
        by_cases hc : x.counted q reads = true
        · have hback : x.Backed q now reads ↔ x.spare q now reads := ⟨fun h => h hc ht, fun h _ _ => h⟩
          have hreq := hcounted.mp hc
          rw [hback, hspare]
          simp only
          omega
        · have hreq : ¬x.core.requestsFor q x.route reads.requests < total := fun hlt => hc (hcounted.mpr hlt)
          refine iff_of_true ?_ fun hc' => absurd hc' hc
          simp only
          omega
    · -- undone: nothing is needed, so nothing is owed
      have howed : y.1.owed = x.core.owed := by
        show (x.core.startOn q x.route x.cls x.reserve now reads x.budget).1.owed = _
        rw [h₂, hb, ← hothers]
        exact abandon_owed hj
      have hnone : x.need q reads = 0 := by omega
      rw [howed]
      refine iff_of_true (by omega) fun _ _ => ?_
      unfold Starting.spare
      split
      · rename_i hin
        cases ht : x.core.takesFirst q x.route now (reads.leg x.core.nextJob 0) with
        | true =>
          have hpos : 0 < j.legs.length := (htake ht).resolve_right hnot
          omega
        | false =>
          obtain ⟨-, -, hout⟩ := hno ht (by omega)
          exact nomatch hout.trans hin
      · rw [hnone]
        exact Nat.zero_le _

/-- **When `next` starts a route, the window afterwards pays for all that is
owed exactly when the start is backed**, in every state the router comes to: the
first leg that was counted as free is one the job takes, or a slot was left over. -/
theorem start_pays_iff {cfg : RouterConfig F} {plans : List CandidatePlan} {observes : LegSpec → Observes}
    {oracleOf : Address → Option String} {budget : WindowLimiter} {es : List (Event F κ)} {s : Sys F κ}
    (hr : Run (fun s e t => s.step q e = some t) (Sys.new cfg plans observes oracleOf budget) es s)
    {x : Starting F κ} (hx : s.core.starting q now reads s.budget = some x) :
    let y := s.core.next q now reads s.budget
    y.1.owed ≤ (y.2.1.available now x.reserve).1 ↔ x.Backed q now reads := by
  have htidy : Tidy s.core s.handed s.taken :=
    hr.invariant (P := fun s => Tidy s.core s.handed s.taken) (new_tidy ..).1 fun _ _ _ h hs => (tidy_step h hs).1
  obtain ⟨hnext, hmoves, hready, hneed⟩ := next_starting hx
  have hthere := (@moves_tidy _ _ _ _ _ _ _ _ _ s.handed _ hmoves htidy).1
  have hnew : x.core.nextJob ∉ x.core.jobs := fun hm => lt_irrefl _ (hthere.fresh _ hm)
  have hw : x.core.nextJob ∉ held InFlight.jobs x.core.inflight := fun hm => by
    refine hnew (hthere.known _ ?_)
    have hpos : 0 < (held InFlight.jobs x.core.inflight).count x.core.nextJob := List.count_pos_iff.mpr hm
    unfold Core.places
    simp only
    omega
  rw [hnext]
  exact startOn_pays_iff hnew hw hready hneed

/-! ### A first leg that was counted and is not taken -/

/-- A triangle whose first leg nothing observes, and a window of five requests. -/
def unseenStart : Sys ℚ (ℕ × ℕ × ℕ) :=
  Sys.new ⟨3, 2, 1 / 2, 2500000000, 1500000000, 90000000000⟩
    [⟨1000, [plainLeg 1 2, plainLeg 2 3, plainLeg 3 1]⟩]
    (fun l => if l.input = ⟨1⟩ then .unobservable else .dexes ["pool"]) (fun _ => none) (.new 5 10000000000 0)

def clockAt (now : Instant) : Reads ℚ := ⟨fun _ _ => (now, now), now, fun _ => 0⟩

/-- The route is decided once; then the pool moves. -/
def unseenRun : List (Event ℚ (ℕ × ℕ × ℕ)) :=
  [.tick (.pool "pool" 100 1) 1, .next 2 (clockAt 2),
    .leg (1, 2, 1000) (.ok (builtLeg 5 2)) 3, .next 3 (clockAt 3),
    .leg (2, 3, 5) (.ok (builtLeg 7 3)) 4, .next 4 (clockAt 4),
    .leg (3, 1, 7) (.ok (builtLeg 999 4)) 5, .next 5 (clockAt 5), .takeReady 1, .decided 1 0 0 6,
    .tick (.pool "pool" 200 7) 7]

/-- The first leg's quote is from before the move: it is counted, and then sent
again, and the window does not pay for the two legs after it. -/
theorem start_unpaid : ∃ s : Sys ℚ (ℕ × ℕ × ℕ), ∃ x,
    Run (fun s e t => s.step plainRequests e = some t) unseenStart unseenRun s ∧
      s.core.starting plainRequests 8 (clockAt 8) s.budget = some x ∧ x.cls = .urgent ∧ x.reserve = 0 ∧
      let y := s.core.next plainRequests 8 (clockAt 8) s.budget
      (y.2.1.available 8 x.reserve).1 = 1 ∧ y.1.owed = 2 := by
  have h : (unseenRun.foldlM (Sys.step plainRequests) unseenStart).bind (fun s =>
      (s.core.starting plainRequests 8 (clockAt 8) s.budget).map fun x =>
        let y := s.core.next plainRequests 8 (clockAt 8) s.budget
        decide (x.cls = .urgent ∧ x.reserve = 0 ∧ (y.2.1.available 8 x.reserve).1 = 1 ∧ y.1.owed = 2)) =
      some true := by decide +kernel
  obtain ⟨s, hs, h⟩ := Option.bind_eq_some_iff.mp h
  obtain ⟨x, hx, hd⟩ := Option.map_eq_some_iff.mp h
  exact ⟨s, x, Run.of_foldlM hs, hx, of_decide_eq_true hd⟩

theorem start_pays_iff_first : ∃ s : Sys ℚ (ℕ × ℕ × ℕ), ∃ x,
    s.core.starting plainRequests 2 (clockAt 2) s.budget = some x ∧
      let y := s.core.next plainRequests 2 (clockAt 2) s.budget
      y.1.owed = 2 ∧ (y.1.owed ≤ (y.2.1.available 2 x.reserve).1 ↔ x.Backed plainRequests 2 (clockAt 2)) := by
  have h : ((unseenRun.take 1).foldlM (Sys.step plainRequests) unseenStart).bind (fun s =>
      (s.core.starting plainRequests 2 (clockAt 2) s.budget).map fun _ =>
        decide ((s.core.next plainRequests 2 (clockAt 2) s.budget).1.owed = 2)) = some true := by decide +kernel
  obtain ⟨s, hs, h⟩ := Option.bind_eq_some_iff.mp h
  obtain ⟨x, hx, hd⟩ := Option.map_eq_some_iff.mp h
  exact ⟨s, x, hx, of_decide_eq_true hd, start_pays_iff (Run.of_foldlM hs) hx⟩

end Router
end MobiusSearcher
