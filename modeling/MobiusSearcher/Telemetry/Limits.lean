/-
# Every run of the sliding-window limiter

Calls of the limiter one after another, each at a clock reading no earlier
than the one before (`Makes`). The send log holds the grants but for those
that aged out; the report it keeps is the one of the latest request; it is
blocked at least as long as any report or refusal asked for (`Tracks`, kept
by every call). From this follow the two bounds on the grants: the window's
own (`window_bound`) and the gateway's (`gateway_bound`).

Headroom is computed in 32 bits and the gateway's count in 64, both unchecked:
`Fits` and `Counts` are the conditions under which nothing is lost there.

Key definitions: `Use`, `Made`, `Makes`, `grants`, `kept`, `Tracks`.
Key theorems: `makes_tracks`, `window_bound`, `gateway_bound`.
-/
import MobiusSearcher.Telemetry.Window
import MobiusSearcher.Lib.Run
import Mathlib.Data.List.TakeWhile

namespace MobiusSearcher

open Machine

namespace WindowLimiter

/-- A call of the limiter. -/
inductive Use
  | available (reserve : ℕ)
  | nextSlotN (reserve need : ℕ)
  | tryAcquire (reserve : ℕ)
  | onServerReport (reference : Instant) (current remaining : ℤ) (resetIn : ℕ)
  | onRateLimited (d : ℕ)
  | state
  deriving DecidableEq, Repr

/-- What a call at `now` does, and whether it granted a slot. -/
def use (g : WindowLimiter) (now : Instant) : Use → WindowLimiter × Bool
  | .available reserve => ((g.available now reserve).2, false)
  | .nextSlotN reserve need => ((g.nextSlotN now reserve need).2, false)
  | .tryAcquire reserve =>
    match g.tryAcquire now reserve with
    | (.ok _, g) => (g, true)
    | (.error _, g) => (g, false)
  | .onServerReport reference current remaining resetIn =>
    (g.onServerReport reference now current remaining resetIn, false)
  | .onRateLimited d => (g.onRateLimited now d, false)
  | .state => (g.prune now, false)

/-- A call that was made: when, with what capacity, and whether it granted a slot. -/
structure Made where
  now : Instant
  use : Use
  capacity : ℕ
  granted : Bool
  deriving DecidableEq, Repr

/-- One call after another, at a clock that does not go back. -/
def Makes (s : WindowLimiter × Instant) (e : Made) (t : WindowLimiter × Instant) : Prop :=
  s.2 ≤ e.now ∧ e.capacity = s.1.capacity ∧ s.1.use e.now e.use = (t.1, e.granted) ∧ t.2 = e.now

/-- When slots were granted. -/
def grants (es : List Made) : List Instant := (es.filter Made.granted).map Made.now

/-- A gateway report: `remaining` as of `reference`, and when its oldest request ages out. -/
structure Report where
  reference : Instant
  remaining : ℤ
  reset : Instant
  deriving DecidableEq, Repr

/-- The report a call brings. -/
def Made.report (e : Made) : Option Report :=
  match e.use with
  | .onServerReport reference _ remaining resetIn => some ⟨reference, remaining, e.now + resetIn⟩
  | _ => none

/-- The reports the calls bring, in order of arrival. -/
def reports (es : List Made) : List Report := es.filterMap Made.report

/-- Of two reports the one of the later request; of one request the later report. -/
def later (k : Option Report) (r : Report) : Report :=
  match k with
  | some k => if k.reference ≤ r.reference then r else k
  | none => r

/-- The report of the latest request. -/
def kept (es : List Made) : Option Report := (reports es).foldl (fun k r => some (later k r)) none

section Lists

variable {es : List Made} {e : Made}

theorem grants_snoc : grants (es ++ [e]) = if e.granted then grants es ++ [e.now] else grants es := by
  unfold grants
  rw [List.filter_append, List.map_append]
  cases h : e.granted <;> simp [h]

theorem kept_snoc : kept (es ++ [e]) = match e.report with
    | some r => some (later (kept es) r)
    | none => kept es := by
  unfold kept reports
  rw [List.filterMap_append, List.foldl_append]
  cases h : e.report <;> simp [h]

/-- The kept report is one of the reports, and none is of a later request. -/
theorem kept_latest (es : List Made) (k : Report) (h : kept es = some k) :
    k ∈ reports es ∧ ∀ r ∈ reports es, r.reference ≤ k.reference := by
  unfold kept at h
  revert h
  induction reports es using List.reverseRecOn generalizing k with
  | nil => exact nofun
  | append_singleton rs r ih =>
    rw [List.foldl_append]
    rintro ⟨⟩
    cases h0 : rs.foldl (fun k r => some (later k r)) none with
    | none =>
      have hnil : rs = [] := by
        rcases List.eq_nil_or_concat rs with h | ⟨l, b, rfl⟩
        · exact h
        · simp at h0
      simp [hnil, later]
    | some k₀ =>
      obtain ⟨hm, hle⟩ := ih k₀ h0
      simp only [later, List.mem_append, List.mem_singleton]
      split
      · rename_i hr
        refine ⟨.inr rfl, ?_⟩
        rintro r' (h' | rfl)
        · exact (hle r' h').trans hr
        · exact le_rfl
      · rename_i hr
        refine ⟨.inl hm, ?_⟩
        rintro r' (h' | rfl)
        · exact hle r' h'
        · exact (Nat.lt_of_not_le hr).le

end Lists

/-! ### What a call does -/

/-- Sends that aged out are gone; nothing else changes. -/
structure Aged (now : Instant) (g h : WindowLimiter) : Prop where
  sent : ∃ old, g.sent = old ++ h.sent ∧ ∀ t ∈ old, g.window ≤ now - t
  rest : h = { g with sent := h.sent }

theorem Aged.refl (now : Instant) (g : WindowLimiter) : Aged now g g := ⟨⟨[], rfl, nofun⟩, rfl⟩

theorem Aged.trans {now : Instant} {g h i : WindowLimiter} (h₁ : Aged now g h) (h₂ : Aged now h i) : Aged now g i := by
  obtain ⟨⟨old, hs, ho⟩, hr⟩ := h₁
  obtain ⟨⟨old', hs', ho'⟩, hr'⟩ := h₂
  refine ⟨⟨old ++ old', by rw [hs, hs', List.append_assoc], fun t ht => ?_⟩, ?_⟩
  · rcases List.mem_append.mp ht with ht | ht
    · exact ho t ht
    · have := ho' t ht
      rw [hr] at this
      exact this
  · rw [hr']
    rw [hr]

theorem prune_aged (g : WindowLimiter) (now : Instant) : Aged now g (g.prune now) := by
  refine ⟨⟨g.sent.takeWhile fun t => g.window ≤ now - t, (List.takeWhile_append_dropWhile ..).symm, fun t ht => ?_⟩, rfl⟩
  simpa using List.mem_takeWhile_imp  ht

theorem available_aged (g : WindowLimiter) (now : Instant) (reserve : ℕ) : Aged now g (g.available now reserve).2 := by
  unfold available
  split
  · exact .refl now g
  · simp only
    split
    · split <;> exact prune_aged g now
    · exact prune_aged g now

theorem nextSlotN_aged (g : WindowLimiter) (now : Instant) (reserve need : ℕ) :
    Aged now g (g.nextSlotN now reserve need).2 := by
  unfold nextSlotN
  simp only
  split
  · exact .refl now g
  · split <;> exact available_aged g now reserve

/-- A refused call. -/
theorem tryAcquire_error {g g' : WindowLimiter} {now : Instant} {reserve wait : ℕ}
    (h : g.tryAcquire now reserve = (.error wait, g')) : Aged now g g' := by
  unfold tryAcquire at h
  simp only at h
  split at h
  · exact nomatch congrArg Prod.fst h
  · obtain rfl := congrArg Prod.snd h
    exact (available_aged g now reserve).trans (nextSlotN_aged ..)

/-- What is free is free by our own count and, while a report is fresh, by the
gateway's; and there is no block. -/
theorem available_pos {g : WindowLimiter} {now : Instant} {reserve : ℕ} (h : 0 < (g.available now reserve).1) :
    g.blocked now = false ∧ 0 < (g.prune now).localFree reserve ∧
    ∀ k, g.server = some k → now - k.1 < g.window → 0 < (g.prune now).serverFree now k.1 k.2 reserve := by
  unfold available at h
  cases hb : g.blocked now with
  | true =>
    rw [if_pos hb] at h
    exact absurd h (lt_irrefl 0)
  | false =>
    rw [if_neg (by simp [hb])] at h
    simp only [show (g.prune now).server = g.server from rfl, show (g.prune now).window = g.window from rfl] at h
    cases hs : g.server with
    | none =>
      rw [hs] at h
      exact ⟨rfl, h, nofun⟩
    | some k =>
      simp only [hs] at h
      split at h
      · refine ⟨rfl, (lt_min_iff.mp h).1, ?_⟩
        rintro _ ⟨rfl⟩ -
        exact (lt_min_iff.mp h).2
      · rename_i hf
        refine ⟨rfl, h, ?_⟩
        rintro _ ⟨rfl⟩ hf'
        exact absurd hf' hf

theorem available_snd {g : WindowLimiter} {now : Instant} (reserve : ℕ) (hb : g.blocked now = false) :
    (g.available now reserve).2 = g.prune now := by
  unfold available
  rw [if_neg (by simp [hb])]
  simp only
  split
  · split <;> rfl
  · rfl

/-- A slot that is granted is free, and is sent for now. -/
theorem tryAcquire_ok {g g' : WindowLimiter} {now : Instant} {reserve : ℕ}
    (h : g.tryAcquire now reserve = (.ok (), g')) :
    0 < (g.available now reserve).1 ∧ g' = { g.prune now with sent := (g.prune now).sent ++ [now] } := by
  unfold tryAcquire at h
  simp only at h
  split at h
  · rename_i hpos
    obtain rfl := congrArg Prod.snd h
    refine ⟨hpos, ?_⟩
    simp only [available_snd reserve (available_pos hpos).1]
  · exact nomatch congrArg Prod.fst h

theorem onServerReport_eq (g : WindowLimiter) (r now : Instant) (c m : ℤ) (d : ℕ) : ∃ k : WindowLimiter,
    g.onServerReport r now c m d = (if m ≤ 0 then k.block (now + max d 100000000) else k) ∧
    (k.window = g.window ∧ k.configured = g.configured ∧ k.safety = g.safety ∧ k.sent = g.sent) ∧
    (g.capacity < 2 ^ 32 → k.capacity < 2 ^ 32) ∧ k.blockedUntil = g.blockedUntil ∧
    k.server = (match g.server with
      | some k => if k.1 ≤ r then some (r, m) else some k
      | none => some (r, m)) ∧
    k.serverReset = (match g.server with
      | some k => if k.1 ≤ r then some (now + d) else g.serverReset
      | none => some (now + d)) := by
  refine ⟨_, rfl, ?_⟩
  -- what is kept of the capacity does not read the report
  generalize hg : (if 0 < wrapI64 (c + m) then { g with capacity := min (wrapI64 (c + m)).toNat (2 ^ 32 - 1) } else g) = g'
  have hsame : (g'.window = g.window ∧ g'.configured = g.configured ∧ g'.safety = g.safety ∧ g'.sent = g.sent) ∧
      (g.capacity < 2 ^ 32 → g'.capacity < 2 ^ 32) ∧ g'.blockedUntil = g.blockedUntil ∧
      g'.server = g.server ∧ g'.serverReset = g.serverReset := by
    rw [← hg]
    split
    · exact ⟨⟨rfl, rfl, rfl, rfl⟩, fun _ => by simp only; omega, rfl, rfl, rfl⟩
    · exact ⟨⟨rfl, rfl, rfl, rfl⟩, id, rfl, rfl, rfl⟩
  obtain ⟨hfields, hcap, hblocked, hserver, hreset⟩ := hsame
  cases hs : g.server with
  | none =>
    simp only [hserver, hs, if_true]
    exact ⟨hfields, hcap, hblocked, trivial, trivial⟩
  | some k₀ =>
    by_cases hle : k₀.1 ≤ r
    · simp only [hserver, hs, hle, decide_true, if_true]
      exact ⟨hfields, hcap, hblocked, trivial, trivial⟩
    · simp only [hserver, hs, hle, decide_false, Bool.false_eq_true, if_false]
      exact ⟨hfields, hcap, hblocked, trivial, hreset⟩

/-- What a report changes: the capacity it tells of, the report that is kept,
and the block when it leaves nothing. -/
theorem onServerReport_spec (g : WindowLimiter) (r now : Instant) (c m : ℤ) (d : ℕ) :
    ((g.onServerReport r now c m d).window = g.window ∧ (g.onServerReport r now c m d).configured = g.configured ∧
      (g.onServerReport r now c m d).safety = g.safety ∧ (g.onServerReport r now c m d).sent = g.sent) ∧
    (g.capacity < 2 ^ 32 → (g.onServerReport r now c m d).capacity < 2 ^ 32) ∧
    ((g.onServerReport r now c m d).server = (match g.server with
        | some k => if k.1 ≤ r then some (r, m) else some k
        | none => some (r, m)) ∧
      (g.onServerReport r now c m d).serverReset = (match g.server with
        | some k => if k.1 ≤ r then some (now + d) else g.serverReset
        | none => some (now + d))) ∧
    (∀ u, g.blockedUntil = some u → ∃ u', (g.onServerReport r now c m d).blockedUntil = some u' ∧ u ≤ u') ∧
    (m ≤ 0 → ∃ u, (g.onServerReport r now c m d).blockedUntil = some u ∧ now + d ≤ u) := by
  obtain ⟨k, hk, hfields, hcap, hblocked, hserver, hreset⟩ := g.onServerReport_eq r now c m d
  rw [hk]
  by_cases hm : m ≤ 0
  · rw [if_pos hm]
    refine ⟨hfields, hcap, ⟨hserver, hreset⟩, fun u hu => ?_, fun _ => ?_⟩
    · exact ⟨max u (now + max d 100000000), by simp only [block, hblocked, hu], le_max_left ..⟩
    · have hle : now + d ≤ now + max d 100000000 := Nat.add_le_add_left (le_max_left ..) now
      refine ⟨_, rfl, ?_⟩
      split
      · exact le_max_of_le_right hle
      · exact hle
  · rw [if_neg hm]
    exact ⟨hfields, hcap, ⟨hserver, hreset⟩, fun u hu => ⟨u, hblocked ▸ hu, le_rfl⟩, fun h => absurd h hm⟩

/-- What is granted: one slot, now. Otherwise no slot is, and what is asked of
the limiter's clock and log only lets sends age out. -/
theorem use_cases (g : WindowLimiter) (now : Instant) (u : Use) :
    (∃ reserve, u = .tryAcquire reserve ∧ (g.use now u).2 = true ∧
      g.tryAcquire now reserve = (.ok (), (g.use now u).1)) ∨
    ((g.use now u).2 = false ∧ Aged now g (g.use now u).1 ∧ (∀ r c m d, u ≠ .onServerReport r c m d) ∧
      ∀ d, u ≠ .onRateLimited d) ∨
    (∃ r c m d, u = .onServerReport r c m d ∧ g.use now u = (g.onServerReport r now c m d, false)) ∨
    ∃ d, u = .onRateLimited d ∧ g.use now u = (g.onRateLimited now d, false) := by
  cases u with
  | available reserve => exact .inr (.inl ⟨rfl, available_aged g now reserve, nofun, nofun⟩)
  | nextSlotN reserve need => exact .inr (.inl ⟨rfl, nextSlotN_aged g now reserve need, nofun, nofun⟩)
  | state => exact .inr (.inl ⟨rfl, prune_aged g now, nofun, nofun⟩)
  | onServerReport r c m d => exact .inr (.inr (.inl ⟨r, c, m, d, rfl, rfl⟩))
  | onRateLimited d => exact .inr (.inr (.inr ⟨d, rfl, rfl⟩))
  | tryAcquire reserve =>
    rcases h : g.tryAcquire now reserve with ⟨_ | _, g'⟩
    · refine .inr (.inl ?_)
      simp only [use, h, ne_eq, reduceCtorEq, not_false_eq_true, implies_true, and_true, true_and]
      exact tryAcquire_error h
    · refine .inl ⟨reserve, rfl, ?_⟩
      simp only [use, h, true_and]

/-! ### What every run keeps -/

/-- The limiter `g`, which was made as `g₀`, against the calls so far, the last of them at `clock`. -/
structure Tracks (g₀ : WindowLimiter) (es : List Made) (g : WindowLimiter) (clock : Instant) : Prop where
  made : g.window = g₀.window ∧ g.configured = g₀.configured ∧ g.safety = g₀.safety
  capacity : g.capacity < 2 ^ 32
  short : g.sent.length < 2 ^ 32
  past : ∀ t ∈ grants es, t ≤ clock
  /-- The log is the grants, but for those that aged out. -/
  sent : ∃ old, grants es = old ++ g.sent ∧ ∀ t ∈ old, t + g.window ≤ clock
  server : g.server = (kept es).map fun k => (k.reference, k.remaining)
  reset : g.serverReset = (kept es).map Report.reset
  /-- A report of no slot left blocks until its reset. -/
  blocked : ∀ r ∈ reports es, r.remaining ≤ 0 → ∃ u, g.blockedUntil = some u ∧ r.reset ≤ u

section Tracks

variable {g₀ g h : WindowLimiter} {es : List Made} {clock now : Instant} {e : Made}

theorem tracks_new {capacity : ℕ} (hc : capacity < 2 ^ 32) (window safety : ℕ) :
    Tracks (new capacity window safety) [] (new capacity window safety) 0 := by
  refine ⟨⟨rfl, rfl, rfl⟩, ?_, by simp [new], nofun, ⟨[], rfl, nofun⟩, rfl, rfl, nofun⟩
  simp only [new]
  omega

/-- Time passes, and sends age out. -/
theorem Tracks.aged (ht : Tracks g₀ es g clock) (hc : clock ≤ now) (ha : Aged now g h) : Tracks g₀ es h now := by
  obtain ⟨⟨old, hs, ho⟩, hr⟩ := ha
  obtain ⟨old', hg, ho'⟩ := ht.sent
  have hlen : h.sent.length < 2 ^ 32 := by
    have := ht.short
    rw [hs, List.length_append] at this
    exact lt_of_le_of_lt (Nat.le_add_left ..) this
  have hsent : grants es = (old' ++ old) ++ h.sent := by rw [hg, hs, List.append_assoc]
  have hold : ∀ t ∈ old' ++ old, t + g.window ≤ now := by
    intro t hm
    rcases List.mem_append.mp hm with h1 | h1
    · exact (ho' t h1).trans hc
    · have h2 := ho t h1
      have h3 : t ≤ clock := ht.past t (by rw [hg, hs]; simp [h1])
      have h4 := h3.trans hc
      exact (Nat.le_sub_iff_add_le' h4).mp h2
  rw [hr] at hlen hsent ⊢
  exact ⟨ht.made, ht.capacity, hlen, fun t hm => (ht.past t hm).trans hc, ⟨_, hsent, hold⟩, ht.server, ht.reset,
    ht.blocked⟩

/-- A call that grants nothing and brings no report. -/
theorem Tracks.quiet (ht : Tracks g₀ es g clock) (hg : e.granted = false) (hr : e.report = none) :
    Tracks g₀ (es ++ [e]) g clock := by
  have h1 : grants (es ++ [e]) = grants es := by rw [grants_snoc, hg, if_neg nofun]
  have h2 : kept (es ++ [e]) = kept es := by rw [kept_snoc, hr]
  have h3 : reports (es ++ [e]) = reports es := by simp [reports, hr]
  refine ⟨ht.made, ht.capacity, ht.short, ?_, ?_, ?_, ?_, ?_⟩
  · rw [h1]
    exact ht.past
  · rw [h1]
    exact ht.sent
  · rw [h2]
    exact ht.server
  · rw [h2]
    exact ht.reset
  · rw [h3]
    exact ht.blocked

/-- A longer block. -/
theorem Tracks.block (ht : Tracks g₀ es g clock) (u : Instant) : Tracks g₀ es (g.block u) clock := by
  refine ⟨ht.made, ht.capacity, ht.short, ht.past, ht.sent, ht.server, ht.reset, fun r hr h0 => ?_⟩
  obtain ⟨u', hu, hle⟩ := ht.blocked r hr h0
  refine ⟨max u' u, ?_, hle.trans (le_max_left ..)⟩
  simp [WindowLimiter.block, hu]

/-- A slot is granted. -/
theorem Tracks.grant {reserve : ℕ} (ht : Tracks g₀ es g clock) (hpos : 0 < g.localFree reserve) (hg : e.granted = true)
    (hr : e.report = none) (hnow : e.now = clock) :
    Tracks g₀ (es ++ [e]) { g with sent := g.sent ++ [e.now] } clock := by
  have h1 : grants (es ++ [e]) = grants es ++ [e.now] := by rw [grants_snoc, hg, if_pos rfl]
  have h2 : kept (es ++ [e]) = kept es := by rw [kept_snoc, hr]
  have h3 : reports (es ++ [e]) = reports es := by simp [reports, hr]
  obtain ⟨old, hs, ho⟩ := ht.sent
  refine ⟨ht.made, ht.capacity, ?_, ?_, ?_, ?_, ?_, ?_⟩
  · have := ht.capacity
    have h4 := ht.short
    unfold localFree at hpos
    rw [wrapU32_of_lt h4] at hpos
    simp only [List.length_append, List.length_singleton]
    omega
  · rw [h1]
    intro t hm
    rcases List.mem_append.mp hm with hm | hm
    · exact ht.past t hm
    · rw [List.mem_singleton.mp hm, hnow]
  · refine ⟨old, ?_, ho⟩
    rw [h1, hs, List.append_assoc]
  · rw [h2]
    exact ht.server
  · rw [h2]
    exact ht.reset
  · rw [h3]
    exact ht.blocked

/-- A report arrives. -/
theorem Tracks.heard (ht : Tracks g₀ es g clock) {r : Instant} {c m : ℤ} {d : ℕ} (hg : e.granted = false)
    (he : e.use = .onServerReport r c m d) : Tracks g₀ (es ++ [e]) (g.onServerReport r e.now c m d) clock := by
  have hrep : e.report = some ⟨r, m, e.now + d⟩ := by simp [Made.report, he]
  have h1 : grants (es ++ [e]) = grants es := by rw [grants_snoc, hg, if_neg nofun]
  have h2 : kept (es ++ [e]) = some (later (kept es) ⟨r, m, e.now + d⟩) := by rw [kept_snoc, hrep]
  have h3 : reports (es ++ [e]) = reports es ++ [⟨r, m, e.now + d⟩] := by simp [reports, hrep]
  obtain ⟨⟨hw, hcf, hsf, hst⟩, hcap, hserver, hblock, hzero⟩ := onServerReport_spec g r e.now c m d
  have hkept : (g.onServerReport r e.now c m d).server = (kept (es ++ [e])).map (fun k => (k.reference, k.remaining)) ∧
      (g.onServerReport r e.now c m d).serverReset = (kept (es ++ [e])).map Report.reset := by
    rw [h2, hserver.1, hserver.2, ht.server, ht.reset]
    cases kept es with
    | none => exact ⟨rfl, rfl⟩
    | some k => 
      simp only [Option.map_some, later]
      split <;> exact ⟨rfl, rfl⟩
  refine ⟨?_, hcap ht.capacity, hst ▸ ht.short, h1 ▸ ht.past, ?_, hkept.1, hkept.2, ?_⟩
  · rw [hw, hcf, hsf]
    exact ht.made
  · rw [h1, hst, hw]
    exact ht.sent
  · rw [h3]
    intro r' hr' h0
    rcases List.mem_append.mp hr' with hr' | hr'
    · obtain ⟨u, hu, hle⟩ := ht.blocked r' hr' h0
      obtain ⟨u', hu', hle'⟩ := hblock u hu
      exact ⟨u', hu', hle.trans hle'⟩
    · obtain rfl := List.mem_singleton.mp hr'
      exact hzero h0

/-- **One call.** What is tracked of a run is tracked of the next call. -/
theorem makes_tracks {g₀ : WindowLimiter} {es : List Made} {s t : WindowLimiter × Instant} {e : Made}
    (ht : Tracks g₀ es s.1 s.2) (hm : Makes s e t) : Tracks g₀ (es ++ [e]) t.1 t.2 := by
  obtain ⟨hle, -, hu, hclock⟩ := hm
  rw [hclock]
  rcases use_cases s.1 e.now e.use with ⟨k, hk, hok, hacq⟩ | ⟨hno, haged, hr, -⟩ | ⟨r, c, m, d, hk, heq⟩ | ⟨d, hk, heq⟩
  · obtain ⟨hpos, hg'⟩ := tryAcquire_ok hacq
    rw [hu] at hok hg'
    have hgr : (s.1.prune e.now).localFree k > 0 := (available_pos hpos).2.1
    simp only at hok hg'
    rw [hg']
    exact (ht.aged hle (prune_aged _ _)).grant hgr hok (by simp [Made.report, hk]) rfl
  · rw [hu] at hno haged
    refine (ht.aged hle haged).quiet hno ?_
    unfold Made.report
    split
    · rename_i heq
      exact absurd heq (hr _ _ _ _)
    · rfl
  · rw [hu] at heq
    obtain ⟨h1, h2⟩ := Prod.mk.inj heq
    rw [h1]
    exact (ht.aged hle (.refl ..)).heard h2 hk
  · rw [hu] at heq
    obtain ⟨h1, h2⟩ := Prod.mk.inj heq
    rw [h1]
    exact ((ht.aged hle (.refl ..)).block _).quiet h2 (by simp [Made.report, hk])

theorem run_tracks {capacity window safety : ℕ} {t : WindowLimiter × Instant} (hc : capacity < 2 ^ 32)
    (h : Run Makes (new capacity window safety, 0) es t) : Tracks (new capacity window safety) es t.1 t.2 :=
  h.history (P := fun es t => Tracks (new capacity window safety) es t.1 t.2) (tracks_new hc window safety)
    fun _ _ _ _ _ ht hm => makes_tracks ht hm

end Tracks

/-! ### The bounds -/

/-- The limiter when it has learned `c`. -/
def withCapacity (g : WindowLimiter) (c : ℕ) : WindowLimiter := { g with capacity := c }

/-- The capacity and the slots kept free fit their 32 bits for this reserve. -/
def Fits (g : WindowLimiter) (reserve : ℕ) : Prop :=
  g.headroom 0 + wrapU32 (reserve * g.capacity / g.configured) < 2 ^ 32

/-- What the gateway's report leaves, of any size. -/
def left (g : WindowLimiter) (now reference : Instant) (remaining : ℤ) (reserve : ℕ) : ℤ :=
  remaining + (match g.serverReset with
    | some r => if r ≤ now then 1 else 0
    | none => 0) - ((g.sent.filter fun t => reference < t).length : ℤ) - g.headroom reserve

/-- What a fresh report leaves is not below the least of 64 bits. -/
def Counts (g : WindowLimiter) (now : Instant) (reserve : ℕ) : Prop :=
  ∀ k, g.server = some k → now - k.1 < g.window → i64Min ≤ (g.prune now).left now k.1 k.2 reserve

section Bounds

variable {g₀ : WindowLimiter} {es : List Made} {s t : WindowLimiter × Instant} {e : Made} {reserve : ℕ}

/-- More is kept free for a reserve than for none. -/
theorem Fits.le {g : WindowLimiter} (h : g.Fits reserve) : g.headroom 0 ≤ g.headroom reserve := by
  unfold Fits at h
  have h0 : g.headroom 0 = if 0 < g.safety then max (wrapU32 (g.safety * g.capacity / g.configured)) 1 else 0 := by
    unfold headroom
    simp only [Nat.zero_mul, Nat.zero_div]
    refine wrapU32_of_lt ?_
    split
    · have : wrapU32 (g.safety * g.capacity / g.configured) < 2 ^ 32 := Nat.mod_lt _ (by decide)
      simp only [show wrapU32 0 = 0 from rfl]
      omega
    · decide
  rw [h0] at h ⊢
  unfold headroom
  simp only
  rw [wrapU32_of_lt h]
  exact Nat.le_add_right ..

/-- What has aged out is no later than the request of a fresh report. -/
theorem aged_before {now reference u w : ℕ} (hfresh : now - reference < w) (hu : u + w ≤ now) : ¬ reference < u := by
  omega

theorem serverFree_pos {g : WindowLimiter} {now reference : Instant} {remaining : ℤ}
    (h : 0 < g.serverFree now reference remaining reserve) :
    1 ≤ g.left now reference remaining reserve ↔ i64Min ≤ g.left now reference remaining reserve := by
  have hpos : 0 < wrapI64 (g.left now reference remaining reserve) := by
    by_contra hle
    have h0 : (wrapI64 (g.left now reference remaining reserve)).toNat = 0 := by omega
    change 0 < wrapU32 (wrapI64 (g.left now reference remaining reserve)).toNat at h
    rw [h0] at h
    exact absurd h (lt_irrefl 0)
  constructor
  · intro h1
    unfold i64Min
    omega
  · intro hmin
    by_cases hmax : g.left now reference remaining reserve ≤ i64Max
    · rwa [wrapI64_of_mem hmin hmax] at hpos
    · unfold i64Max at hmax
      omega

/-- A grant is what `tryAcquire` gives. -/
theorem granted_try (hm : Makes s e t) (hg : e.granted = true) :
    ∃ reserve, e.use = .tryAcquire reserve ∧ s.1.tryAcquire e.now reserve = (.ok (), t.1) := by
  obtain ⟨-, -, hu, -⟩ := hm
  rcases use_cases s.1 e.now e.use with ⟨k, hk, -, hacq⟩ | ⟨hno, -⟩ | ⟨r, c, m, d, -, heq⟩ | ⟨d, -, heq⟩
  · rw [hu] at hacq
    exact ⟨k, hk, hacq⟩
  · rw [hu] at hno
    exact absurd (hg.symm.trans hno) nofun
  · rw [hu] at heq
    exact absurd (hg.symm.trans (congrArg Prod.snd heq)) nofun
  · rw [hu] at heq
    exact absurd (hg.symm.trans (congrArg Prod.snd heq)) nofun

/-- The grants that are young enough are in the log. -/
theorem Tracks.count_log {g : WindowLimiter} {clock : Instant} (ht : Tracks g₀ es g clock) {p : Instant → Bool}
    (hp : ∀ u, u + g.window ≤ clock → p u = false) : (grants es).countP p = g.sent.countP p := by
  obtain ⟨old, hs, ho⟩ := ht.sent
  rw [hs, List.countP_append, List.countP_eq_zero.mpr fun u hu => by simp [hp u (ho u hu)], Nat.zero_add]

/-- **At a grant.** With the slot that is granted, no more were granted in the
window up to now than the capacity less the headroom; and no block is on. -/
theorem grant_bound (ht : Tracks g₀ es s.1 s.2) (hm : Makes s e t) (hg : e.granted = true)
    (hk : e.use = .tryAcquire reserve) :
    (grants es).countP (fun u => e.now < u + s.1.window) + 1 ≤ s.1.capacity - s.1.headroom reserve ∧
    ∀ u, s.1.blockedUntil = some u → u ≤ e.now := by
  obtain ⟨k, hk', hacq⟩ := granted_try hm hg
  obtain rfl : reserve = k := by simpa using hk.symm.trans hk'
  obtain ⟨hfree, hlocal, -⟩ := available_pos (tryAcquire_ok hacq).1
  have hp := ht.aged hm.1 (prune_aged s.1 e.now)
  constructor
  · have hcount : (grants es).countP (fun u => e.now < u + s.1.window) =
        (s.1.prune e.now).sent.countP fun u => e.now < u + s.1.window :=
      hp.count_log fun u hu => decide_eq_false (Nat.not_lt.mpr hu)
    have hlen : (s.1.prune e.now).sent.countP (fun u => e.now < u + s.1.window) ≤ (s.1.prune e.now).sent.length :=
      List.countP_le_length
    unfold localFree at hlocal
    rw [wrapU32_of_lt hp.short] at hlocal
    change 0 < s.1.capacity - s.1.headroom reserve - (s.1.prune e.now).sent.length at hlocal
    omega
  · intro u hu
    unfold WindowLimiter.blocked at hfree
    rw [hu] at hfree
    simpa using hfree

/-- **At a grant while a report is fresh.** The grants after its request, this
one included, are within what it left, exactly when nothing is lost in the count. -/
theorem grant_reported (ht : Tracks g₀ es s.1 s.2) (hm : Makes s e t) (hg : e.granted = true)
    (hk : e.use = .tryAcquire reserve) {k : Report} (hkept : kept es = some k)
    (hfresh : e.now - k.reference < s.1.window) :
    ((grants es).countP (fun u => k.reference < u) + 1 : ℤ) ≤
      k.remaining - s.1.headroom reserve + (if k.reset ≤ e.now then 1 else 0) ↔ s.1.Counts e.now reserve := by
  obtain ⟨j, hk', hacq⟩ := granted_try hm hg
  obtain rfl : reserve = j := by simpa using hk.symm.trans hk'
  obtain ⟨-, -, hserver⟩ := available_pos (tryAcquire_ok hacq).1
  have hp := ht.aged hm.1 (prune_aged s.1 e.now)
  have hs : s.1.server = some (k.reference, k.remaining) := by rw [ht.server, hkept]; rfl
  have hr : s.1.serverReset = some k.reset := by rw [ht.reset, hkept]; rfl
  have hcount : (grants es).countP (fun u => k.reference < u) =
      (s.1.prune e.now).sent.countP fun u => k.reference < u := by
    refine hp.count_log fun u hu => decide_eq_false ?_
    exact aged_before hfresh hu
  have hleft : (s.1.prune e.now).left e.now k.reference k.remaining reserve =
      k.remaining + (if k.reset ≤ e.now then 1 else 0) - ((grants es).countP fun u => k.reference < u) -
        s.1.headroom reserve := by
    rw [hcount, List.countP_eq_length_filter]
    unfold left
    rw [show (s.1.prune e.now).serverReset = some k.reset from hr]
    rfl
  have hiff := serverFree_pos (hserver _ hs hfresh)
  rw [hleft] at hiff
  constructor
  · rintro hle k' hk' -
    rw [hs] at hk'
    obtain rfl := Option.some.inj hk'
    rw [hleft]
    exact hiff.mp (by omega)
  · intro hc
    have h1 := hc _ hs hfresh
    rw [hleft] at h1
    have := hiff.mpr h1
    omega

/-- The grants at times of `p` were made with the capacity `c`, of which what
is kept free for each fits its 32 bits. -/
def Steady (g₀ : WindowLimiter) (c : ℕ) (p : Instant → Bool) (es : List Made) : Prop :=
  ∀ e ∈ es, e.granted = true → p e.now = true →
    e.capacity = c ∧ ∀ reserve, e.use = .tryAcquire reserve → (g₀.withCapacity c).Fits reserve

/-- Of the grants in a span shorter than the window, no more than the capacity
they were all made with, less what is kept free. -/
theorem span_bound {capacity window safety c : ℕ} (hc : capacity < 2 ^ 32)
    (h : Run Makes (new capacity window safety, 0) es t) (p : Instant → Bool)
    (hspan : ∀ u v, p u = true → p v = true → u < v + window) (hcap : Steady (new capacity window safety) c p es) :
    (grants es).countP p ≤ c - ((new capacity window safety).withCapacity c).headroom 0 := by
  induction h with
  | nil => exact Nat.zero_le _
  | @snoc es s t e hr hm ih =>
    have ih := ih fun e' he' => hcap e' (List.mem_append_left _ he')
    rw [grants_snoc]
    cases hg : e.granted with
    | false => rwa [if_neg nofun]
    | true =>
      rw [if_pos rfl, List.countP_append, List.countP_singleton]
      cases hp : p e.now with
      | false => rwa [if_neg nofun]
      | true =>
        rw [if_pos rfl]
        have ht := run_tracks hc hr
        obtain ⟨reserve, hk, -⟩ := granted_try hm hg
        obtain ⟨hcc, hfit⟩ := hcap e (by simp) hg hp
        have hs : s.1.capacity = c := hm.2.1.symm.trans hcc
        obtain ⟨hbound, -⟩ := grant_bound ht hm hg hk
        obtain ⟨hw, hcf, hsf⟩ := ht.made
        have hw' : s.1.window = window := hw
        have hhead : s.1.headroom reserve = ((new capacity window safety).withCapacity c).headroom reserve := by
          unfold headroom withCapacity
          rw [hs, hcf, hsf]
        have hle := (hfit reserve hk).le
        have hcount : (grants es).countP p ≤ (grants es).countP fun u => e.now < u + s.1.window := by
          refine List.countP_mono_left fun u _ hu => ?_
          rw [hw']
          exact decide_eq_true (hspan _ _ hp hu)
        omega

/-- The safety scaled from the configured capacity to `c`: rounded down, but at least 1 unless there is none. -/
def scaledSafety (capacity safety c : ℕ) : ℕ := if safety = 0 then 0 else max (wrapU32 (safety * c / max capacity 1)) 1

theorem headroom_zero (capacity window safety c : ℕ) :
    ((new capacity window safety).withCapacity c).headroom 0 = scaledSafety capacity safety c := by
  have hlt : wrapU32 (safety * c / max capacity 1) < 2 ^ 32 := Nat.mod_lt _ (by decide)
  unfold headroom withCapacity new scaledSafety
  simp only [Nat.pos_iff_ne_zero, ite_not, Nat.zero_mul, Nat.zero_div]
  split
  · rfl
  · exact wrapU32_of_lt (max_lt hlt (by decide))

/-- **The window is never exceeded.** At each grant the grants in the window up
to it are within the capacity learned by then less the headroom, and no block
is on; and while the capacity stays as it is, a window's length of time, open
at either end, holds no more grants than it less the safety scaled to it. -/
theorem window_safe {capacity window safety : ℕ} (hc : capacity < 2 ^ 32)
    (h : Run Makes (new capacity window safety, 0) es s) :
    (∀ e t reserve, Makes s e t → e.use = .tryAcquire reserve → e.granted = true →
      (grants es).countP (fun u => e.now < u + window) + 1 ≤ s.1.capacity - s.1.headroom reserve ∧
      ∀ u, s.1.blockedUntil = some u → u ≤ e.now) ∧
    ∀ c a, (Steady (new capacity window safety) c (fun u => a < u ∧ u ≤ a + window) es →
        (grants es).countP (fun u => a < u ∧ u ≤ a + window) ≤
          c - scaledSafety capacity safety c) ∧
      (Steady (new capacity window safety) c (fun u => a ≤ u ∧ u < a + window) es →
        (grants es).countP (fun u => a ≤ u ∧ u < a + window) ≤
          c - scaledSafety capacity safety c) := by
  have ht := run_tracks hc h
  constructor
  · intro e t reserve hm hk hg
    have hb := grant_bound ht hm hg hk
    have hw : s.1.window = window := ht.made.1
    rwa [hw] at hb
  · intro c a
    rw [← headroom_zero capacity window safety c]
    refine ⟨span_bound hc h _ fun u v hu hv => ?_, span_bound hc h _ fun u v hu hv => ?_⟩
    · simp only [decide_eq_true_eq] at hu hv
      exact lt_of_le_of_lt hu.2 (Nat.add_lt_add_right hv.1 window)
    · simp only [decide_eq_true_eq] at hu hv
      exact lt_of_lt_of_le hu.2 (Nat.add_le_add_right hv.1 window)

/-- **The gateway's report is never exceeded**, exactly where nothing is lost in
its count: at each grant while the kept report is fresh, the grants after its
request are within what it left less the headroom, and one more once its
oldest request has aged out. After a report of nothing left, no slot is
granted before its reset. -/
theorem gateway_safe {capacity window safety : ℕ} (hc : capacity < 2 ^ 32)
    (h : Run Makes (new capacity window safety, 0) es s) (hm : Makes s e t) (hg : e.granted = true) :
    (∀ reserve k, e.use = .tryAcquire reserve → kept es = some k → e.now - k.reference < window →
      (((grants es).countP (fun u => k.reference < u) + 1 : ℤ) ≤
        k.remaining - s.1.headroom reserve + (if k.reset ≤ e.now then 1 else 0) ↔ s.1.Counts e.now reserve)) ∧
    ∀ r ∈ reports es, r.remaining ≤ 0 → r.reset ≤ e.now := by
  have ht := run_tracks hc h
  obtain ⟨reserve, hk, -⟩ := granted_try hm hg
  constructor
  · intro j k hk' hkept hfresh
    refine grant_reported ht hm hg hk' hkept ?_
    rwa [show s.1.window = window from ht.made.1]
  · intro r hr h0
    obtain ⟨u, hu, hle⟩ := ht.blocked r hr h0
    exact hle.trans ((grant_bound ht hm hg hk).2 u hu)

end Bounds

/-! ### Runs on record -/

/-- A call as it was recorded, made again. -/
def again (s : WindowLimiter × Instant) (e : Made) : Option (WindowLimiter × Instant) :=
  if s.2 ≤ e.now ∧ e.capacity = s.1.capacity ∧ (s.1.use e.now e.use).2 = e.granted then
    some ((s.1.use e.now e.use).1, e.now)
  else none

theorem makes_again {s t : WindowLimiter × Instant} {e : Made} (h : again s e = some t) : Makes s e t := by
  unfold again at h
  split at h
  · rename_i hc
    obtain rfl := Option.some.inj h
    exact ⟨hc.1, hc.2.1, Prod.ext rfl hc.2.2, rfl⟩
  · exact nomatch h

theorem run_again {s t : WindowLimiter × Instant} {es : List Made} (h : es.foldlM again s = some t) :
    Run Makes s es t := (Run.of_foldlM h).mono fun _ _ _ => makes_again

/-- Configured for 10 slots and 2 of safety; the gateway tells of 5, and four are granted at once. -/
def keyless : List Made :=
  ⟨0, .onServerReport 0 1 4 10000000000, 10, false⟩ :: List.replicate 4 ⟨0, .tryAcquire 0, 5, true⟩

theorem keyless_run : ∃ t, Run Makes (new 10 11000000000 2, 0) keyless t := by
  have h : (keyless.foldlM again (new 10 11000000000 2, 0)).isSome = true := by decide +kernel
  obtain ⟨t, ht⟩ := Option.isSome_iff_exists.mp h
  exact ⟨t, run_again ht⟩

theorem keyless_steady (p : Instant → Bool) : Steady (new 10 11000000000 2) 5 p keyless := by
  intro e he hg _
  rcases List.mem_cons.mp he with rfl | he
  · exact nomatch hg
  · obtain rfl := List.eq_of_mem_replicate he
    refine ⟨rfl, ?_⟩
    rintro _ ⟨⟩
    unfold Fits
    decide

/-- The safety is scaled to the learned capacity: of the 5 slots a smaller tier
has, more than 5 less the configured safety are granted in a window. -/
theorem safety_is_scaled : ∃ t, Run Makes (new 10 11000000000 2, 0) keyless t ∧
    Steady (new 10 11000000000 2) 5 (fun u => 0 ≤ u ∧ u < 0 + 11000000000) keyless ∧
    5 - 2 < (grants keyless).countP fun u => 0 ≤ u ∧ u < 0 + 11000000000 := by
  obtain ⟨t, ht⟩ := keyless_run
  exact ⟨t, ht, keyless_steady _, by decide⟩

/-- At the four grants of the smaller tier. -/
theorem window_safe_keyless :
    (grants keyless).countP (fun u => 0 ≤ u ∧ u < 0 + 11000000000) ≤
      5 - scaledSafety 10 2 5 := by
  obtain ⟨t, ht⟩ := keyless_run
  exact ((window_safe (by decide) ht).2 5 0).2 (keyless_steady _)

/-- A report of the least number there is, which sets no more than a tenth of a second's block. -/
def least : List Made := [⟨0, .onServerReport 0 5 i64Min 0, 10, false⟩]

def afterLeast : Made := ⟨100000000, .tryAcquire 0, 10, true⟩

theorem afterLeast_makes : ∃ s t, Run Makes (new 10 11000000000 2, 0) least s ∧ Makes s afterLeast t ∧
    s.1.headroom 0 = 2 := by
  have h : ((least.foldlM again (new 10 11000000000 2, 0)).any fun s =>
      (again s afterLeast).isSome && s.1.headroom 0 = 2) = true := by decide +kernel
  cases hs : least.foldlM again (new 10 11000000000 2, 0) with
  | none =>
    rw [hs] at h
    exact nomatch h
  | some s =>
    rw [hs] at h
    simp only [Option.any_some, Bool.and_eq_true, decide_eq_true_eq] at h
    obtain ⟨t, ht⟩ := Option.isSome_iff_exists.mp h.1
    exact ⟨s, t, run_again hs, makes_again ht, h.2⟩

/-- The count wraps, and a slot is granted when the gateway left none. -/
theorem granted_past_report : ∃ s t k, Run Makes (new 10 11000000000 2, 0) least s ∧ Makes s afterLeast t ∧
    afterLeast.granted = true ∧ afterLeast.use = .tryAcquire 0 ∧ kept least = some k ∧
    afterLeast.now - k.reference < 11000000000 ∧
    ¬ ((grants least).countP (fun u => k.reference < u) + 1 : ℤ) ≤
      k.remaining - s.1.headroom 0 + (if k.reset ≤ afterLeast.now then 1 else 0) := by
  obtain ⟨s, t, hs, ht, hh⟩ := afterLeast_makes
  refine ⟨s, t, ⟨0, i64Min, 0⟩, hs, ht, rfl, rfl, rfl, by decide, ?_⟩
  rw [hh]
  decide

/-- At the first grant after a report of four slots left. -/
theorem gateway_safe_told : ((grants [⟨0, .onServerReport 0 1 4 10000000000, 10, false⟩]).countP (fun u => 0 < u) + 1 : ℤ) ≤
    4 - (((new 10 11000000000 2).onServerReport 0 0 1 4 10000000000).headroom 0) + 0 := by
  have hrun : Run Makes (new 10 11000000000 2, 0) [⟨0, .onServerReport 0 1 4 10000000000, 10, false⟩]
      ((new 10 11000000000 2).onServerReport 0 0 1 4 10000000000, 0) :=
    .single ⟨le_rfl, rfl, rfl, rfl⟩
  have hgrant : again ((new 10 11000000000 2).onServerReport 0 0 1 4 10000000000, 0) ⟨0, .tryAcquire 0, 5, true⟩ =
      some ({ (new 10 11000000000 2).onServerReport 0 0 1 4 10000000000 with sent := [0] }, 0) := by decide +kernel
  refine ((gateway_safe (by decide) hrun (makes_again hgrant) rfl).1 0 ⟨0, 4, 10000000000⟩ rfl rfl (by decide)).mpr ?_
  rintro _ ⟨rfl⟩ -
  decide +kernel

end WindowLimiter

end MobiusSearcher
