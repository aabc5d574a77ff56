/-
# What a route was last decided from

A decision is made after the quotes it was made from were sent, and until a
route is decided again nothing but the handing over of its next job changes
which quotes those were (`Paced`). It needs a clock that does not step back,
and answers to requests that were sent by then (`Timely`).

Key definitions: `Kept`, `Paced`, `Timely`.
Key theorems: `Move.kept`, `paced_step`.
-/
import MobiusSearcher.Router.Custody

set_option linter.unusedSectionVars false

namespace MobiusSearcher
namespace Router

open Keyed FloatOps Relation

variable {F : Type*} [FloatOps F] {ρ κ : Type*} [DecidableEq κ] {q : Requests ρ κ} {now clock : Instant} {c d e : Core F κ}

/-! ### What calls leave as it is -/

/-- Every cached leg and every leg of a job was sent by `clock`. -/
structure Core.SentBy (c : Core F κ) (clock : Instant) : Prop where
  cached : ∀ k e, c.cache k = some e → e.leg.sent ≤ clock
  legs : ∀ j job, c.jobs.lookup j = some job → ∀ l ∈ job.legs, l.sent ≤ clock

theorem Core.SentBy.mono (h : c.SentBy clock) (hle : clock ≤ now) : c.SentBy now :=
  ⟨fun k e he => (h.cached k e he).trans hle, fun j job hj l hl => (h.legs j job hj l hl).trans hle⟩

/-- A job's legs are replaced. -/
theorem Core.SentBy.rejob (h : c.SentBy clock) {i : ℕ} {job : Job F} (hjob : ∀ l ∈ job.legs, l.sent ≤ clock) :
    ∀ j job', (c.jobs.insert i job).lookup j = some job' → ∀ l ∈ job'.legs, l.sent ≤ clock := by
  intro j job' hj
  by_cases hi : j = i
  · subst hi
    rw [AList.lookup_insert] at hj
    exact Option.some.inj hj ▸ hjob
  · rw [AList.lookup_insert_ne hi] at hj
    exact h.legs j job' hj

/-- A job is dropped. -/
theorem Core.SentBy.erase (h : c.SentBy clock) {i : ℕ} :
    ∀ j job, (c.jobs.erase i).lookup j = some job → ∀ l ∈ job.legs, l.sent ≤ clock := by
  intro j job hj
  by_cases hi : j = i
  · subst hi
    rw [AList.lookup_erase] at hj
    exact absurd hj.symm (Option.some_ne_none job)
  · rw [AList.lookup_erase_ne hi] at hj
    exact h.legs j job hj

/-- The routes and what they were last decided from are as they were, and no leg is from after `clock`. -/
structure Kept (c d : Core F κ) (clock : Instant) : Prop where
  cfg : d.cfg = c.cfg
  defs : d.defs = c.defs
  last : ∀ r, (d.state r).last = (c.state r).last
  lastLegs : ∀ r, (d.state r).lastLegs = (c.state r).lastLegs
  sent : c.SentBy clock → d.SentBy clock

theorem Kept.refl (c : Core F κ) (clock : Instant) : Kept c c clock := ⟨rfl, rfl, fun _ => rfl, fun _ => rfl, id⟩

theorem Kept.trans (h : Kept c d clock) (h' : Kept d e clock) : Kept c e clock where
  cfg := h'.cfg.trans h.cfg
  defs := h'.defs.trans h.defs
  last r := (h'.last r).trans (h.last r)
  lastLegs r := (h'.lastLegs r).trans (h.lastLegs r)
  sent := h'.sent ∘ h.sent

/-- Another job or trigger of a route, with the jobs as they were or fewer. -/
theorem Kept.marks {r : ℕ} {st : RouteState F} (hstate : d.state = Function.update c.state r st)
    (hlast : st.last = (c.state r).last) (hlegs : st.lastLegs = (c.state r).lastLegs) (hcfg : d.cfg = c.cfg)
    (hdefs : d.defs = c.defs) (hsent : c.SentBy clock → d.SentBy clock) : Kept c d clock := by
  refine ⟨hcfg, hdefs, fun r' => ?_, fun r' => ?_, hsent⟩
  · rw [hstate]
    by_cases hr : r' = r
    · subst hr
      rw [Function.update_self, hlast]
    · rw [Function.update_of_ne hr]
  · rw [hstate]
    by_cases hr : r' = r
    · subst hr
      rw [Function.update_self, hlegs]
    · rw [Function.update_of_ne hr]

theorem Carry.kept {s t : Core F κ × Option ℕ} (h : Carry q now s t) : Kept s.1 t.1 clock := by
  cases h with
  | finish => exact ⟨rfl, rfl, fun _ => rfl, fun _ => rfl, fun h => ⟨h.cached, h.legs⟩⟩
  | pick => exact ⟨rfl, rfl, fun _ => rfl, fun _ => rfl, fun h => ⟨h.cached, h.legs⟩⟩
  | putBack => exact ⟨rfl, rfl, fun _ => rfl, fun _ => rfl, fun h => ⟨h.cached, h.legs⟩⟩
  | @cacheLeg c job index req j e hj hr hc =>
    refine ⟨rfl, rfl, fun _ => rfl, fun _ => rfl, fun h => ⟨h.cached, h.rejob fun l hl => ?_⟩⟩
    rcases List.mem_append.mp hl with hl | hl
    · exact h.legs job j hj l hl
    · rw [List.mem_singleton.mp hl]
      exact h.cached _ e hc
  | complete => exact ⟨rfl, rfl, fun _ => rfl, fun _ => rfl, fun h => ⟨h.cached, h.legs⟩⟩
  | coalesce => exact ⟨rfl, rfl, fun _ => rfl, fun _ => rfl, fun h => ⟨h.cached, h.legs⟩⟩
  | block => exact ⟨rfl, rfl, fun _ => rfl, fun _ => rfl, fun h => ⟨h.cached, h.legs⟩⟩
  | @dispatch c job index req j hj =>
    rw [dispatch_fst hj]
    refine ⟨rfl, rfl, fun _ => rfl, fun _ => rfl, fun h => ⟨h.cached, ?_⟩⟩
    simp only
    split
    · exact h.rejob (h.legs job j hj)
    · exact h.legs

/-- **A call of `next` leaves what the routes were last decided from**, one move at a time. -/
theorem Move.kept {s t : Core F κ × Option ℕ} (h : Move q now s t) : Kept s.1 t.1 clock := by
  cases h with
  | carry h => exact h.kept
  | skip => exact ⟨rfl, rfl, fun _ => rfl, fun _ => rfl, fun h => ⟨h.cached, h.legs⟩⟩
  | @suppress c h job ready j hr hj =>
    exact Kept.marks (r := j.route) rfl rfl rfl rfl rfl fun h => ⟨h.cached, h.erase⟩
  | @start c r cls hr =>
    exact Kept.marks (r := r) rfl rfl rfl rfl rfl fun h => ⟨h.cached, h.rejob fun l hl => absurd hl List.not_mem_nil⟩
  | @abandon c job j hj =>
    unfold Core.abandon
    simp only [hj]
    exact Kept.marks (r := j.route) rfl rfl rfl rfl rfl fun h => ⟨h.cached, h.erase⟩

theorem moves_kept {s t : Core F κ × Option ℕ} (h : ReflTransGen (Move q now) s t) : Kept s.1 t.1 clock := by
  induction h with
  | refl => exact .refl _ _
  | tail _ hm ih => exact ih.trans hm.kept

/-! ### Ticks and answers -/

theorem touchOne_kept (at_ : Instant) (r : ℕ) (c : Core F κ) : Kept c (c.touchOne at_ now r) clock := by
  unfold Core.touchOne
  simp only
  split
  · exact .refl _ _
  · split
    · exact Kept.marks (r := r) rfl rfl rfl rfl rfl fun h => ⟨h.cached, h.legs⟩
    · split
      · exact Kept.marks (r := r) rfl rfl rfl rfl rfl fun h => ⟨h.cached, h.legs⟩
      · exact .refl _ _

theorem touch_kept (at_ : Instant) : ∀ (routes : List ℕ) (c : Core F κ), Kept c (c.touch routes at_ now) clock
  | [], c => .refl c _
  | r :: routes, c => (touchOne_kept at_ r c).trans (touch_kept at_ routes (c.touchOne at_ now r))

theorem onTick_kept (c : Core F κ) (t : HotTick F) : Kept c (c.onTick t now) clock := by
  cases t with
  | pool dex mid received =>
    refine Kept.trans ?_ (touch_kept received _ _)
    have hmean : ∀ d : Core F κ, Kept d ((d.observeMean received now).invalidate dex mid) clock := fun d => by
      refine Kept.trans (d := d.observeMean received now) ?_ ⟨rfl, rfl, fun _ => rfl, fun _ => rfl, fun h => ⟨?_, h.legs⟩⟩
      · unfold Core.observeMean
        split
        · exact .refl _ _
        · exact ⟨rfl, rfl, fun _ => rfl, fun _ => rfl, fun h => ⟨h.cached, h.legs⟩⟩
      · intro k e he
        exact h.cached k e (Option.filter_eq_some_iff.mp he).1
    have hmids : Kept c { c with mids := c.mids.insert dex (mid, received) } clock :=
      ⟨rfl, rfl, fun _ => rfl, fun _ => rfl, fun h => ⟨h.cached, h.legs⟩⟩
    exact hmids.trans (hmean _)
  | oracle symbol price received =>
    have h : Kept c { c with oracles := Function.update c.oracles symbol (some price) } clock :=
      ⟨rfl, rfl, fun _ => rfl, fun _ => rfl, fun h => ⟨h.cached, h.legs⟩⟩
    exact h.trans (touch_kept received _ _)

theorem deliver_kept {leg : BuiltLeg} (hleg : leg.sent ≤ clock) (obs : Observes) (index job : ℕ) (c : Core F κ) :
    Kept c (c.deliver leg obs index now job) clock := by
  unfold Core.deliver
  cases hj : c.jobs.lookup job with
  | none => exact .refl _ _
  | some j =>
    simp only
    split
    · exact .refl _ _
    · have hjobs : c.SentBy clock → ∀ i job', (c.jobs.insert job { j with
          legs := j.legs ++ [leg], obs := j.obs ++ [obs], prevReceived := some now }).lookup i = some job' →
          ∀ l ∈ job'.legs, l.sent ≤ clock := fun h => h.rejob fun l hl => by
        rcases List.mem_append.mp hl with hl | hl
        · exact h.legs job j hj l hl
        · rw [List.mem_singleton.mp hl]
          exact hleg
      split
      · exact ⟨rfl, rfl, fun _ => rfl, fun _ => rfl, fun h => ⟨h.cached, hjobs h⟩⟩
      · exact ⟨rfl, rfl, fun _ => rfl, fun _ => rfl, fun h => ⟨h.cached, hjobs h⟩⟩

theorem fail_kept (rateLimited : Bool) (job : ℕ) (c : Core F κ) : Kept c (c.fail rateLimited now job) clock := by
  unfold Core.fail
  cases hj : c.jobs.lookup job with
  | none => exact .refl _ _
  | some j =>
    simp only
    split
    · exact Kept.marks (r := j.route) rfl rfl rfl rfl rfl fun h => ⟨h.cached, h.erase⟩
    · exact Kept.marks (r := j.route) rfl rfl rfl rfl rfl fun h => ⟨h.cached, h.erase⟩

theorem foldl_kept {f : Core F κ → ℕ → Core F κ} (hf : ∀ c i, Kept c (f c i) clock) :
    ∀ (jobs : List ℕ) (c : Core F κ), Kept c (jobs.foldl f c) clock
  | [], c => .refl c _
  | i :: jobs, c => (hf c i).trans (foldl_kept hf jobs (f c i))

theorem onLeg_kept {key : κ} {result : Except Bool BuiltLeg} (hleg : ∀ leg, result = .ok leg → leg.sent ≤ clock)
    (c : Core F κ) : Kept c (c.onLeg key result now) clock := by
  unfold Core.onLeg
  cases hf : c.inflight.lookup key with
  | none => exact .refl _ _
  | some f =>
    cases result with
    | ok leg =>
      refine Kept.trans ?_ (foldl_kept (fun c i => deliver_kept (hleg leg rfl) f.obs f.index i c) f.jobs _)
      refine ⟨rfl, rfl, fun _ => rfl, fun _ => rfl, fun h => ⟨fun k e he => ?_, h.legs⟩⟩
      change Function.update c.cache key (some ⟨leg, f.obs, f.mids⟩) k = some e at he
      by_cases hk : k = key
      · subst hk
        rw [Function.update_self] at he
        exact Option.some.inj he ▸ hleg leg rfl
      · rw [Function.update_of_ne hk] at he
        exact h.cached k e he
    | error rateLimited =>
      refine Kept.trans ?_ (foldl_kept (fun c i => fail_kept rateLimited i c) f.jobs _)
      exact ⟨rfl, rfl, fun _ => rfl, fun _ => rfl, fun h => ⟨h.cached, h.legs⟩⟩

theorem recheck_kept (c : Core F κ) (r : ℕ) : Kept c (c.recheck r now) clock := by
  unfold Core.recheck
  split
  · exact Kept.marks (r := r) rfl rfl rfl rfl rfl fun h => ⟨h.cached, h.legs⟩
  · exact .refl _ _

/-! ### Whole runs -/

/-- The last decision was made no sooner than its quotes were sent; before the first there are none. -/
def RouteState.Settled (st : RouteState F) : Prop :=
  match st.last with
  | none => st.lastLegs = []
  | some (t, _) => ∀ s ∈ st.lastLegs, s ≤ t

/-- What a route was priced from was sent by now, and before its decision unless that is to come. -/
structure Paced (s : Sys F κ) (clock : Instant) : Prop where
  sent : s.core.SentBy clock
  quotes : ∀ r, ∀ t ∈ (s.core.state r).lastLegs, t ≤ clock
  settled : ∀ r, (s.core.state r).Settled ∨ ∃ j p, s.taken.lookup j = some p ∧ p.route = r

theorem Paced.kept {s t : Sys F κ} (h : Paced s clock) (hle : clock ≤ now) (hk : Kept s.core t.core now)
    (ht : t.taken = s.taken) : Paced t now := by
  refine ⟨hk.sent (h.sent.mono hle), fun r u hu => ?_, fun r => ?_⟩
  · rw [hk.lastLegs] at hu
    exact (h.quotes r u hu).trans hle
  · unfold RouteState.Settled
    rw [hk.last, hk.lastLegs, ht]
    exact h.settled r

/-- When an event happens, by the clock. -/
def Event.time : Event F κ → Option Instant
  | .tick _ now => some now
  | .next now _ => some now
  | .leg _ _ now => some now
  | .decided _ _ _ now => some now
  | _ => none

/-- An answer comes after its request was sent. -/
def Event.Sent : Event F κ → Prop
  | .leg _ (.ok l) now => l.sent ≤ now
  | _ => True

/-- The clock does not step back, and answers come after their requests were sent. -/
def Timely (q : Requests ρ κ) (x : Sys F κ × Instant) (e : Event F κ) (y : Sys F κ × Instant) : Prop :=
  x.1.step q e = some y.1 ∧ y.2 = e.time.getD x.2 ∧ x.2 ≤ y.2 ∧ e.Sent

instance : (e : Event F κ) → Decidable e.Sent
  | .leg _ (.ok l) now => inferInstanceAs (Decidable (l.sent ≤ now))
  | .leg _ (.error _) _ => .isTrue trivial
  | .tick .. => .isTrue trivial
  | .next .. => .isTrue trivial
  | .takeReady _ => .isTrue trivial
  | .decided .. => .isTrue trivial
  | .limiter _ => .isTrue trivial

/-- One timely event, computed. -/
def Event.timed (q : Requests ρ κ) (x : Sys F κ × Instant) (e : Event F κ) : Option (Sys F κ × Instant) :=
  if x.2 ≤ e.time.getD x.2 ∧ e.Sent then (x.1.step q e).map fun s => (s, e.time.getD x.2) else none

theorem timely_of_timed {x y : Sys F κ × Instant} {e : Event F κ} (h : Event.timed q x e = some y) : Timely q x e y := by
  unfold Event.timed at h
  split at h
  · rename_i hclock
    obtain ⟨s, hs, rfl⟩ := Option.map_eq_some_iff.mp h
    exact ⟨hs, rfl, hclock.1, hclock.2⟩
  · exact absurd h.symm (Option.some_ne_none y)

/-- A job handed out for pricing: its legs are what the route is decided from next. -/
theorem takeReady_paced {s : Sys F κ} {job : ℕ} {j : Job F} (h : Paced s clock)
    (ht : Tidy s.core s.handed s.taken) (hj : s.core.jobs.lookup job = some j) :
    Paced ⟨(s.core.takeReady job).1, s.budget, s.handed.erase job, s.taken.insert job j.toReady⟩ clock := by
  have hcore : (s.core.takeReady job).1 =
      { s.core.setState j.route { s.core.state j.route with lastLegs := j.legs.map BuiltLeg.sent } with
        jobs := s.core.jobs.erase job } := by
    simp [Core.takeReady, hj]
  rw [hcore]
  refine ⟨⟨h.sent.cached, h.sent.erase⟩, fun r u hu => ?_, fun r => ?_⟩
  · by_cases hr : r = j.route
    · subst hr
      rw [Core.setState_state, Function.update_self] at hu
      obtain ⟨l, hl, rfl⟩ := List.mem_map.mp hu
      exact h.sent.legs job j hj l hl
    · rw [Core.setState_state, Function.update_of_ne hr] at hu
      exact h.quotes r u hu
  · by_cases hr : r = j.route
    · exact .inr ⟨job, j.toReady, AList.lookup_insert _, hr.symm⟩
    · rw [Core.setState_state, Function.update_of_ne hr]
      refine (h.settled r).imp_right ?_
      rintro ⟨i, p, hp, hroute⟩
      have hne : i ≠ job := by
        rintro rfl
        exact (ht.priced i p hp).1 (AList.lookup_isSome.mp (by rw [hj]; rfl))
      exact ⟨i, p, by rw [AList.lookup_insert_ne hne]; exact hp, hroute⟩

/-- A decision comes after the quotes it was made from. -/
theorem decided_paced {s : Sys F κ} {job : ℕ} {p : ReadyJob F} {grossBp netBp : F} (h : Paced s clock)
    (hle : clock ≤ now) (hp : s.taken.lookup job = some p) :
    Paced ⟨s.core.onDecided p.route grossBp netBp p.inputs p.picked now, s.budget, s.handed, s.taken.erase job⟩ now := by
  have hfields : (Core.decided (s.core.state p.route) grossBp netBp p.inputs now).last = some (now, grossBp, netBp) ∧
      (Core.decided (s.core.state p.route) grossBp netBp p.inputs now).lastLegs =
        (s.core.state p.route).lastLegs := by
    unfold Core.decided Core.learn
    split
    · exact ⟨rfl, rfl⟩
    · exact ⟨rfl, rfl⟩
  -- the route's entry alone is new, and it is settled
  have hset : ∀ st : RouteState F, st.last = some (now, grossBp, netBp) →
      st.lastLegs = (s.core.state p.route).lastLegs →
      Paced ⟨s.core.setState p.route st, s.budget, s.handed, s.taken.erase job⟩ now := by
    intro st hlast hlegs
    refine ⟨⟨(h.sent.mono hle).cached, (h.sent.mono hle).legs⟩, fun r u hu => ?_, fun r => ?_⟩
    · by_cases hr : r = p.route
      · subst hr
        rw [Core.setState_state, Function.update_self, hlegs] at hu
        exact (h.quotes _ u hu).trans hle
      · rw [Core.setState_state, Function.update_of_ne hr] at hu
        exact (h.quotes r u hu).trans hle
    · by_cases hr : r = p.route
      · subst hr
        refine .inl ?_
        unfold RouteState.Settled
        rw [Core.setState_state, Function.update_self, hlast, hlegs]
        exact fun u hu => (h.quotes _ u hu).trans hle
      · rw [Core.setState_state, Function.update_of_ne hr]
        refine (h.settled r).imp_right ?_
        rintro ⟨i, p', hp', hroute⟩
        have hne : i ≠ job := by
          rintro rfl
          rw [hp] at hp'
          exact hr (hroute.symm.trans (congrArg ReadyJob.route (Option.some.inj hp').symm))
        exact ⟨i, p', by rw [AList.lookup_erase_ne hne]; exact hp', hroute⟩
  unfold Core.onDecided
  simp only
  split
  · exact (hset { Core.decided (s.core.state p.route) grossBp netBp p.inputs now with trigger := none }
      hfields.1 hfields.2).kept le_rfl (recheck_kept _ _) rfl
  · refine (hset _ hfields.1 hfields.2).kept le_rfl ?_ rfl
    exact ⟨rfl, rfl, fun _ => rfl, fun _ => rfl, fun h => ⟨h.cached, h.legs⟩⟩

/-- **Every event keeps the pace**, the routes and the configuration. -/
theorem paced_step {x y : Sys F κ × Instant} {e : Event F κ} (h : Paced x.1 x.2)
    (ht : Tidy x.1.core x.1.handed x.1.taken) (hs : Timely q x e y) :
    Paced y.1 y.2 ∧ y.1.core.cfg = x.1.core.cfg ∧ y.1.core.defs = x.1.core.defs := by
  obtain ⟨s, clock⟩ := x
  obtain ⟨u, after⟩ := y
  obtain ⟨hs, hafter, hle, hleg⟩ := hs
  simp only at h ht hs hafter hle ⊢
  cases e with
  | tick t now =>
    obtain rfl := Option.some.inj hs
    have hk := @onTick_kept _ _ _ _ now after s.core t
    exact ⟨h.kept hle hk rfl, hk.cfg, hk.defs⟩
  | next now reads =>
    obtain ⟨hand, hm, -, htaken⟩ := step_next hs
    have hk := @moves_kept _ _ _ _ _ q now after _ _ hm
    exact ⟨h.kept hle hk htaken, hk.cfg, hk.defs⟩
  | leg key result now =>
    obtain rfl := Option.some.inj hs
    obtain rfl : after = now := hafter
    have hsent : ∀ leg, result = .ok leg → leg.sent ≤ after := fun leg he => by
      rw [he] at hleg
      exact hleg
    have hk := @onLeg_kept _ _ _ _ after after key result hsent s.core
    exact ⟨h.kept hle hk rfl, hk.cfg, hk.defs⟩
  | takeReady job =>
    obtain rfl : after = clock := hafter
    unfold Sys.step at hs
    simp only at hs
    split at hs
    · cases hj : s.core.jobs.lookup job with
      | none =>
        have hnone : s.core.takeReady job = (s.core, none) := by simp [Core.takeReady, hj]
        rw [hnone] at hs
        obtain rfl := Option.some.inj hs
        exact ⟨⟨h.sent, h.quotes, h.settled⟩, rfl, rfl⟩
      | some j =>
        have hsome : s.core.takeReady job = ((s.core.takeReady job).1, some j.toReady) := by simp [Core.takeReady, hj]
        rw [hsome] at hs
        obtain rfl := Option.some.inj hs
        refine ⟨takeReady_paced h ht hj, ?_, ?_⟩
        · simp [Core.takeReady, hj, Core.setState]
        · simp [Core.takeReady, hj, Core.setState]
    · exact absurd hs.symm (Option.some_ne_none u)
  | decided job grossBp netBp now =>
    obtain rfl : after = now := hafter
    obtain ⟨p, hp, rfl⟩ := Option.map_eq_some_iff.mp hs
    refine ⟨decided_paced h hle hp, ?_⟩
    have hrecheck := fun d : Core F κ => @recheck_kept _ _ _ _ after after d p.route
    show (s.core.onDecided p.route grossBp netBp p.inputs p.picked after).cfg = _ ∧
      (s.core.onDecided p.route grossBp netBp p.inputs p.picked after).defs = _
    unfold Core.onDecided
    simp only
    split
    · exact ⟨(hrecheck _).cfg, (hrecheck _).defs⟩
    · exact ⟨rfl, rfl⟩
  | limiter budget =>
    obtain rfl := Option.some.inj hs
    obtain rfl : after = clock := hafter
    exact ⟨⟨h.sent, h.quotes, h.settled⟩, rfl, rfl⟩

/-- A route without a job was decided after the quotes it was decided from were sent. -/
theorem Paced.idle {s : Sys F κ} (h : Paced s clock) (ht : Tidy s.core s.handed s.taken) {r : ℕ}
    (hr : (s.core.state r).job = none) : (s.core.state r).Settled := by
  rcases h.settled r with hs | ⟨j, p, hp, rfl⟩
  · exact hs
  · exact absurd (hr.symm.trans (ht.priced j p hp).2.2) (Option.some_ne_none j).symm

end Router
end MobiusSearcher
