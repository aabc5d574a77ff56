/-
# The token bucket

`RateLimiter` of `crates/telemetry/src/ratelimit.rs`. Instants and durations are
nanoseconds; each function is one call under the limiter's lock, given the clock
its caller read before it took the lock. `acquire` is `try_acquire`, called until
it gives a token, and asks for nothing else.

A token pays for a grant, and tokens come with time. What is refilled is counted
from the last refill, and the last refill is set to whatever clock a caller
brings. Where that clock is behind it, the time between is credited again, and
the bound of the bucket is lost (`credited_twice`); a caller behind the clock that
ended a backoff is let in before its end (`granted_in_backoff`). Where no clock
is behind the last refill both hold, but for what the refills are rounded up
(`rate_bounded`): a few units of the burst each (`refilled_le`).

Key definitions: `RateLimiter`, `tryAcquire`, `onRateLimited`, `Fairly`, `slack`, `Tracks`.
Key theorems: `refilled_le`, `take_spec`, `Tracks.step`, `rate_bounded`.
-/
import MobiusSearcher.Lib.Binary64
import MobiusSearcher.Lib.Run
import MobiusSearcher.Telemetry.Window

namespace MobiusSearcher

open FloatOps

/-- The rate is a number, and not below zero. -/
structure LimiterConfig where
  rps : Binary64
  burst : ℕ
  baseBackoff : ℕ
  maxBackoff : ℕ
  rps_finite : rps.IsFinite
  rps_nonneg : 0 ≤ rps.val
  burst_lt : burst < 2 ^ 32

structure RateLimiter where
  cfg : LimiterConfig
  tokens : Binary64
  lastRefill : Instant
  backoffUntil : Option Instant
  attempt : ℕ
  total429 : ℕ

/-- Half of the exponential backoff, and up to as much again by `jitter`; never less than the server's hint. -/
def backoffDelay (attempt base cap : ℕ) (hint : Option ℕ) (jitter : Binary64) : ℕ :=
  let exp := min (base * 2 ^ min attempt 16) cap
  let half := exp / 2
  let j := if lt jitter (lit 0) then lit 0 else if lt (lit (999999 / 1000000)) jitter then lit (999999 / 1000000) else jitter
  let d := half + toNanos (j * ofNanos half)
  match hint with
  | some h => max d (min h cap)
  | none => d

namespace RateLimiter

def new (cfg : LimiterConfig) (now : Instant) : RateLimiter := ⟨cfg, lit cfg.burst, now, none, 0, 0⟩

/-- The tokens at `now`, the time since the last refill credited. -/
def refilled (g : RateLimiter) (now : Instant) : Binary64 :=
  minimum (g.tokens + ofNanos (now - g.lastRefill) * g.cfg.rps) (lit g.cfg.burst)

/-- Refill, and take a token if there is one. -/
def take (g : RateLimiter) (now : Instant) : Except ℕ Unit × RateLimiter :=
  let g := { g with tokens := g.refilled now, lastRefill := now }
  if le (lit 1) g.tokens then (.ok (), { g with tokens := g.tokens - lit 1 })
  else (.error (toNanos ((lit 1 - g.tokens) / maximum g.cfg.rps (lit (1 / 1000000000)))), g)

/-- A backoff is in force. -/
def backedOff (g : RateLimiter) (now : Instant) : Bool :=
  match g.backoffUntil with
  | some u => now < u
  | none => false

/-- Take a token now, or how long to wait. -/
def tryAcquire (g : RateLimiter) (now : Instant) : Except ℕ Unit × RateLimiter :=
  if g.backedOff now then (.error (g.backoffUntil.getD 0 - now), g)
  else ({ g with backoffUntil := none }).take now

/-- A request was refused: the bucket is drained, and nothing granted until the backoff elapses. -/
def onRateLimited (g : RateLimiter) (now : Instant) (hint : Option ℕ) (jitter : Binary64) : ℕ × RateLimiter :=
  let d := backoffDelay g.attempt g.cfg.baseBackoff g.cfg.maxBackoff hint jitter
  (d, { g with
    attempt := min (g.attempt + 1) (2 ^ 32 - 1)
    total429 := g.total429 + 1
    tokens := lit 0
    lastRefill := now
    backoffUntil := some (match g.backoffUntil with
      | some u => max u (now + d)
      | none => now + d) })

def onSuccess (g : RateLimiter) : RateLimiter := { g with attempt := 0 }

/-! ### Calls -/

/-- A call that was made, with its caller's clock and its result. -/
inductive Made
  | acquired (now : Instant) (r : Except ℕ Unit)
  | limited (now : Instant) (hint : Option ℕ) (jitter : Binary64) (d : ℕ)
  | succeeded

/-- One call after another, whatever their clocks. -/
def Makes (g : RateLimiter) (e : Made) (h : RateLimiter) : Prop :=
  match e with
  | .acquired now r => g.tryAcquire now = (r, h)
  | .limited now hint jitter d => g.onRateLimited now hint jitter = (d, h)
  | .succeeded => h = g.onSuccess

/-- When a token was granted. -/
def Made.grant : Made → Option Instant
  | .acquired now (.ok _) => some now
  | _ => none

def grants (es : List Made) : List Instant := es.filterMap Made.grant

/-- When a token was asked for. -/
def Made.asked : Made → Option Instant
  | .acquired now _ => some now
  | _ => none

def tries (es : List Made) : List Instant := es.filterMap Made.asked

/-- The seconds of an instant are a `u64`. -/
def clockEnd : Instant := 2 ^ 64 * 10 ^ 9

/-- The call's clock is not behind the last refill. -/
def Fair (g : RateLimiter) : Made → Prop
  | .acquired now _ => now < clockEnd ∧ (g.backedOff now = true ∨ g.lastRefill ≤ now)
  | .limited now .. => g.lastRefill ≤ now
  | .succeeded => True

/-- What a refill can be rounded up by. -/
def slack (cfg : LimiterConfig) : ℚ := 6 * f64.unit * cfg.burst

def Fairly (g : RateLimiter) (e : Made) (h : RateLimiter) : Prop := g.Makes e h ∧ g.Fair e

/-! ### What a call does -/

section Calls

variable {cfg : LimiterConfig} {g h : RateLimiter} {now : Instant} {q : ℚ}

theorem burst_value (cfg : LimiterConfig) : (lit (cfg.burst : ℚ) : Binary64).value = some (cfg.burst : ℚ) := by
  have hlt := cfg.burst_lt
  have h := Binary64.value_litInt (n := cfg.burst) (by rw [Nat.abs_cast]; exact_mod_cast (by omega : cfg.burst ≤ 2 ^ 53))
  simpa using h

theorem one_value : (lit 1 : Binary64).value = some 1 := by
  simpa using Binary64.value_litInt (n := 1) (by norm_num)

theorem slack_nonneg (cfg : LimiterConfig) : 0 ≤ slack cfg := by
  have hu0 := f64.unit_pos
  unfold slack
  positivity

theorem backedOff_false (hb : g.backedOff now = false) (u : Instant) (hu : g.backoffUntil = some u) : u ≤ now := by
  unfold backedOff at hb
  rw [hu] at hb
  exact not_lt.mp (of_decide_eq_false hb)

theorem backedOff_true (hb : g.backedOff now = true) : ∃ u, g.backoffUntil = some u ∧ now < u := by
  unfold backedOff at hb
  split at hb
  · exact ⟨_, ‹_›, of_decide_eq_true hb⟩
  · cases hb

/-- The tokens of a limiter: a number, not below zero and no more than the burst. -/
def Holds (cfg : LimiterConfig) (g : RateLimiter) : Prop :=
  g.cfg = cfg ∧ ∃ q, g.tokens.value = some q ∧ 0 ≤ q ∧ q ≤ cfg.burst

theorem refilled_value (hh : Holds cfg g) (now : Instant) :
    ∃ q, (g.refilled now).value = some q ∧ 0 ≤ q ∧ q ≤ cfg.burst := by
  obtain ⟨rfl, q, hq, h0, -⟩ := hh
  have htokens : g.tokens.NonNeg := by
    obtain ⟨z, hz, rfl⟩ := Binary64.value_eq_some.mp hq
    rw [hz]
    exact Binary64.nonNeg_fin.mpr h0
  have hrps : g.cfg.rps.NonNeg := by
    obtain ⟨z, hz, hv⟩ := Binary64.value_eq_some.mp g.cfg.rps_finite
    rw [hz]
    exact Binary64.nonNeg_fin.mpr (hv ▸ g.cfg.rps_nonneg)
  exact Binary64.minimum_nonNeg (htokens.add ((Binary64.nonNeg_ofNanos _).mul hrps)) (burst_value g.cfg)
    (Nat.cast_nonneg _)

/-- What a time is worth at the limiter's rate, rounded, where that is within a burst. -/
theorem worth_le (cfg : LimiterConfig) {n : ℕ} (hn : n < clockEnd) (hfew : cfg.rps.val * n / 10 ^ 9 ≤ 2 ^ 32) :
    ∃ y, (ofNanos n * cfg.rps : Binary64).value = some y ∧ 0 ≤ y ∧
      y ≤ (1 + 9 / 2 * f64.unit) * (cfg.rps.val * n / 10 ^ 9) + f64.least := by
  have hrps0 := cfg.rps_nonneg
  have hworth0 : 0 ≤ cfg.rps.val * n / 10 ^ 9 := by positivity
  obtain ⟨x, hx, hx0, hxle⟩ := Binary64.ofNanos_le hn
  have hprod0 : 0 ≤ x * cfg.rps.val := mul_nonneg hx0 hrps0
  have hprod : x * cfg.rps.val ≤ (1 + f64.unit) * (1 + 2 * f64.unit) * (cfg.rps.val * n / 10 ^ 9) := by
    calc x * cfg.rps.val ≤ (1 + f64.unit) * ((1 + 2 * f64.unit) * (n / 10 ^ 9)) * cfg.rps.val :=
          mul_le_mul_of_nonneg_right hxle hrps0
      _ = (1 + f64.unit) * (1 + 2 * f64.unit) * (cfg.rps.val * n / 10 ^ 9) := by ring
  obtain ⟨s, hmul⟩ := Binary64.mul_eq hx cfg.rps_finite
  have hround := Format.round_le_least (f := f64) hprod0
  rw [f64_unit] at hprod hround ⊢
  refine ⟨f64.round (x * cfg.rps.val), ?_, Format.round_nonneg hprod0, ?_⟩
  · rw [hmul]
    exact Binary64.value_ofRat_pow (k := 33) (by norm_num) hprod0 (by linarith)
  · linarith

/-- **A refill credits the time since the last**, and a few units of the burst more at most. -/
theorem refilled_le (hh : Holds cfg g) (hlast : g.lastRefill ≤ now) (hclock : now < clockEnd) :
    (g.refilled now).val ≤ g.tokens.val + cfg.rps.val * ((now : ℚ) - g.lastRefill) / 10 ^ 9 + slack cfg := by
  obtain ⟨r, hr, -, hle⟩ := refilled_value hh now
  obtain ⟨rfl, τ, hτ, h0, -⟩ := hh
  rw [Binary64.val_eq hr, Binary64.val_eq hτ]
  obtain ⟨n, hn⟩ : ∃ n, n = now - g.lastRefill := ⟨_, rfl⟩
  have hcast : (now : ℚ) - g.lastRefill = n := by
    rw [hn]
    exact (Nat.cast_sub hlast).symm
  have hn64 : n < clockEnd := by
    rw [hn]
    exact lt_of_le_of_lt (Nat.sub_le _ _) hclock
  rw [hcast]
  have hslack := slack_nonneg g.cfg
  have hrps0 := g.cfg.rps_nonneg
  have hworth0 : 0 ≤ g.cfg.rps.val * n / 10 ^ 9 := by positivity
  by_cases hfull : (g.cfg.burst : ℚ) ≤ τ + g.cfg.rps.val * n / 10 ^ 9
  · linarith
  -- short of the burst, which is one token at least, the units of the time and of the sum are few
  rw [not_le] at hfull
  have hburst32 : (g.cfg.burst : ℚ) ≤ 2 ^ 32 := by exact_mod_cast g.cfg.burst_lt.le
  have hburst1 : (1 : ℚ) ≤ g.cfg.burst := by
    have hpos : (0 : ℚ) < g.cfg.burst := by linarith
    exact_mod_cast hpos
  obtain ⟨y, hy, hy0, hyle⟩ := worth_le g.cfg hn64 (by linarith)
  have hleast := f64_least_le
  have hsum0 : 0 ≤ τ + y := add_nonneg h0 hy0
  have hround := Format.round_le_grid ((Binary64.value_mem hτ).onGrid.add (Binary64.value_mem hy).onGrid) hsum0
  obtain ⟨s, hadd⟩ := Binary64.add_eq hτ hy
  rw [f64_unit] at hyle hleast hround
  have hsum : (g.tokens + ofNanos n * g.cfg.rps : Binary64).value = some (f64.round (τ + y)) := by
    rw [hadd]
    exact Binary64.value_ofRat_pow (k := 34) (by norm_num) hsum0 (by linarith)
  have hrefilled : (g.refilled now).value = some (min (f64.round (τ + y)) g.cfg.burst) := by
    unfold refilled
    rw [← hn]
    exact Binary64.value_minimum hsum (burst_value g.cfg)
  obtain rfl := Option.some.inj (hr.symm.trans hrefilled)
  refine (min_le_left _ _).trans ?_
  unfold slack
  rw [f64_unit]
  linarith

/-- What a refill and a grant leave: a grant takes one token, and nothing else does. -/
theorem take_spec (hh : Holds cfg g) (now : Instant) :
    (∃ m, (g.take now).1 = .error m ∧ (g.take now).2 = { g with tokens := g.refilled now, lastRefill := now }) ∨
    (g.take now).1 = .ok () ∧ 1 ≤ (g.refilled now).val ∧ ∃ t,
      (g.take now).2 = { g with tokens := t, lastRefill := now } ∧ t.value = some ((g.refilled now).val - 1) := by
  obtain ⟨q, hq, h0, hle⟩ := refilled_value hh now
  unfold take
  simp only [Binary64.le_value one_value hq]
  by_cases h1 : 1 ≤ q
  · refine .inr ?_
    simp only [h1, decide_true, if_true, Binary64.val_eq hq, true_and]
    refine ⟨_, rfl, ?_⟩
    obtain ⟨s, hs⟩ := Binary64.sub_eq hq one_value
    have hb : (cfg.burst : ℚ) ≤ 2 ^ 53 := by
      have hlt := cfg.burst_lt
      exact_mod_cast (by omega : cfg.burst ≤ 2 ^ 53)
    have hmem := f64_pred (Binary64.value_mem hq) h1 (hle.trans hb)
    have hlim : |q - 1| < limit64 := by
      have hbig : (2 : ℚ) ^ 53 < limit64 := pow_lt_pow_right₀ (by norm_num) (by norm_num)
      rw [abs_of_nonneg (by linarith)]
      linarith
    rw [hs, Binary64.value_ofRat, Format.round_eq_self hmem, if_pos hlim]
  · rw [decide_eq_false h1]
    exact .inl ⟨_, rfl, rfl⟩

theorem Holds.take (hh : Holds cfg g) (now : Instant) : Holds cfg (g.take now).2 := by
  obtain ⟨q, hq, h0, hle⟩ := refilled_value hh now
  rcases take_spec hh now with ⟨m, -, hm⟩ | ⟨-, h1, t, ht, hv⟩
  · rw [hm]
    exact ⟨hh.1, q, hq, h0, hle⟩
  · rw [ht]
    rw [Binary64.val_eq hq] at h1 hv
    exact ⟨hh.1, q - 1, hv, by linarith, by linarith⟩

end Calls

/-! ### What every run keeps -/

section Runs

variable {cfg : LimiterConfig} {g h : RateLimiter} {es : List Made} {e : Made} {now : Instant}

theorem grants_snoc (es : List Made) (e : Made) : grants (es ++ [e]) = grants es ++ e.grant.toList := by
  unfold grants
  rw [List.filterMap_append]
  cases h : e.grant <;> simp [h]

theorem tries_snoc (es : List Made) (e : Made) : tries (es ++ [e]) = tries es ++ e.asked.toList := by
  unfold tries
  rw [List.filterMap_append]
  cases h : e.asked <;> simp [h]

/-- The end of the backoff a call asks for. -/
def Made.until : Made → Option Instant
  | .limited now _ _ d => some (now + d)
  | _ => none

/-- What the bucket pays in a span of time. -/
def pays (cfg : LimiterConfig) (t₀ t₁ : Instant) : ℚ := cfg.burst + cfg.rps.val * ((t₁ : ℚ) - t₀) / 10 ^ 9

theorem pays_mono {t₀ t₁ t₂ : Instant} (h : t₁ ≤ t₂) : pays cfg t₀ t₁ ≤ pays cfg t₀ t₂ := by
  have hle : ((t₁ : ℚ) - t₀) ≤ (t₂ : ℚ) - t₀ := by
    have : (t₁ : ℚ) ≤ t₂ := by exact_mod_cast h
    linarith
  unfold pays
  gcongr
  exact cfg.rps_nonneg

/-- The limiter `g` against the calls so far. -/
structure Tracks (cfg : LimiterConfig) (es : List Made) (g : RateLimiter) : Prop where
  holds : Holds cfg g
  past : ∀ t ∈ grants es, t ≤ g.lastRefill
  /-- A call was before the last refill, or is in a backoff that is in force. -/
  tried : ∀ t ∈ tries es, t ≤ g.lastRefill ∨ ∃ b, g.backoffUntil = some b ∧ t < b
  /-- From any moment on, the grants and the tokens left are paid for, but for what the calls since round up. -/
  paid : ∀ t₀, (grants es).countP (t₀ ≤ ·) = 0 ∨
    t₀ ≤ g.lastRefill ∧ g.tokens.val + (grants es).countP (t₀ ≤ ·) ≤
      pays cfg t₀ g.lastRefill + slack cfg * (tries es).countP (t₀ ≤ ·)
  bounded : ∀ t₀ t₁, t₀ ≤ t₁ → ((grants es).countP (fun t => t₀ ≤ t ∧ t ≤ t₁) : ℚ) ≤
    pays cfg t₀ t₁ + slack cfg * (tries es).countP (fun t => t₀ ≤ t ∧ t ≤ t₁)
  /-- A backoff has elapsed, or is in force. -/
  waits : ∀ e ∈ es, ∀ u, e.until = some u → u ≤ g.lastRefill ∨ ∃ b, g.backoffUntil = some b ∧ u ≤ b

variable (cfg) in
theorem pays_nonneg {t₀ t₁ : Instant} (hle : t₀ ≤ t₁) : cfg.burst ≤ pays cfg t₀ t₁ := by
  have hcast : (t₀ : ℚ) ≤ t₁ := by exact_mod_cast hle
  have hrate : 0 ≤ cfg.rps.val * ((t₁ : ℚ) - t₀) / 10 ^ 9 :=
    div_nonneg (mul_nonneg cfg.rps_nonneg (sub_nonneg.mpr hcast)) (by norm_num)
  unfold pays
  linarith

theorem tracks_new (cfg : LimiterConfig) (start : Instant) : Tracks cfg [] (new cfg start) where
  holds := ⟨rfl, cfg.burst, burst_value cfg, Nat.cast_nonneg _, le_rfl⟩
  past := by simp [grants]
  tried := by simp [tries]
  paid := fun t₀ => .inl rfl
  bounded t₀ t₁ hle := by
    have hburst : (0 : ℚ) ≤ cfg.burst := Nat.cast_nonneg _
    have hpays := pays_nonneg cfg hle
    simp only [grants, tries, List.filterMap_nil, List.countP_nil, Nat.cast_zero, mul_zero, add_zero]
    exact hburst.trans hpays
  waits := by simp

theorem countP_snoc_le {α : Type*} (p : α → Bool) (l : List α) (o : Option α) : l.countP p ≤ (l ++ o.toList).countP p := by
  rw [List.countP_append]
  exact Nat.le_add_right _ _

/-- A call that grants nothing, and leaves no more tokens than were paid for and rounded up. -/
theorem Tracks.quiet (ht : Tracks cfg es g) (he : e.grant = none) (hh : Holds cfg h) (hlast : g.lastRefill ≤ h.lastRefill)
    (htok : h.tokens.val ≤ g.tokens.val + cfg.rps.val * ((h.lastRefill : ℚ) - g.lastRefill) / 10 ^ 9 +
      slack cfg * e.asked.toList.countP (g.lastRefill ≤ ·))
    (hd : ∀ t ∈ tries (es ++ [e]), t ≤ h.lastRefill ∨ ∃ b, h.backoffUntil = some b ∧ t < b)
    (hw : ∀ e' ∈ es ++ [e], ∀ u, e'.until = some u → u ≤ h.lastRefill ∨ ∃ b, h.backoffUntil = some b ∧ u ≤ b) :
    Tracks cfg (es ++ [e]) h := by
  have hgrants : grants (es ++ [e]) = grants es := by rw [grants_snoc, he, Option.toList_none, List.append_nil]
  refine ⟨hh, ?_, hd, fun t₀ => ?_, fun t₀ t₁ hle => ?_, hw⟩
  · rw [hgrants]
    exact fun t hm => (ht.past t hm).trans hlast
  · rw [hgrants]
    rcases ht.paid t₀ with hnone | ⟨hle, hpaid⟩
    · exact .inl hnone
    · refine .inr ⟨hle.trans hlast, ?_⟩
      have hmore : e.asked.toList.countP (g.lastRefill ≤ ·) ≤ e.asked.toList.countP (t₀ ≤ ·) :=
        List.countP_mono_left fun t _ hp => decide_eq_true (hle.trans (of_decide_eq_true hp))
      have hcast : slack cfg * (e.asked.toList.countP (g.lastRefill ≤ ·) : ℕ) ≤
          slack cfg * (e.asked.toList.countP (t₀ ≤ ·) : ℕ) :=
        mul_le_mul_of_nonneg_left (by exact_mod_cast hmore) (slack_nonneg cfg)
      rw [tries_snoc, List.countP_append]
      push_cast
      unfold pays at hpaid ⊢
      linarith
  · rw [hgrants, tries_snoc]
    have hmore := countP_snoc_le (fun t => decide (t₀ ≤ t ∧ t ≤ t₁)) (tries es) e.asked
    refine (ht.bounded t₀ t₁ hle).trans (add_le_add_right (mul_le_mul_of_nonneg_left ?_ (slack_nonneg cfg)) _)
    exact_mod_cast hmore

/-- A refill leaves the tokens from any moment on paid for. -/
theorem Tracks.refill (ht : Tracks cfg es g) (hlast : g.lastRefill ≤ now) (hclock : now < clockEnd) (t₀ : Instant)
    (h0 : t₀ ≤ now) : (g.refilled now).val + (grants es).countP (t₀ ≤ ·) ≤
      pays cfg t₀ now + slack cfg * ((tries es).countP (t₀ ≤ ·) + 1) := by
  obtain ⟨q, hq, -, hle⟩ := refilled_value ht.holds now
  have hslack := slack_nonneg cfg
  rcases ht.paid t₀ with hnone | ⟨-, hpaid⟩
  · rw [hnone, Nat.cast_zero, add_zero, Binary64.val_eq hq]
    have hpays := pays_nonneg cfg h0
    have hcount : 0 ≤ slack cfg * ((tries es).countP (t₀ ≤ ·) + 1) := by positivity
    linarith
  · have hrefill := refilled_le ht.holds hlast hclock
    unfold pays at hpaid ⊢
    linarith

/-- Where the backoff is over, all that was asked for was before, and all that had to be waited for has been. -/
theorem Tracks.over (ht : Tracks cfg es g) (hlast : g.lastRefill ≤ now) (hb : ∀ u, g.backoffUntil = some u → u ≤ now) :
    (∀ t ∈ tries es, t ≤ now) ∧ ∀ e ∈ es, ∀ u, e.until = some u → u ≤ now := by
  constructor
  · intro t hm
    rcases ht.tried t hm with hle | ⟨b, hb', hlt⟩
    · exact hle.trans hlast
    · exact hlt.le.trans (hb b hb')
  · intro e hm u hu
    rcases ht.waits e hm u hu with hle | ⟨b, hb', hle⟩
    · exact hle.trans hlast
    · exact hle.trans (hb b hb')

/-- A grant takes one of the tokens paid for. -/
theorem Tracks.grant (ht : Tracks cfg es g) (hlast : g.lastRefill ≤ now) (hclock : now < clockEnd)
    (hh : Holds cfg h) (hn : h.lastRefill = now) (htok : h.tokens.val = (g.refilled now).val - 1)
    (hb : ∀ u, g.backoffUntil = some u → u ≤ now) : Tracks cfg (es ++ [.acquired now (.ok ())]) h := by
  have hgrants : grants (es ++ [.acquired now (.ok ())]) = grants es ++ [now] := grants_snoc _ _
  have htries : tries (es ++ [.acquired now (.ok ())]) = tries es ++ [now] := tries_snoc _ _
  obtain ⟨hasked, hover⟩ := ht.over hlast hb
  have hpast : ∀ t ∈ grants es ++ [now], t ≤ now :=
    List.forall_mem_append.mpr ⟨fun t hm => (ht.past t hm).trans hlast, List.forall_mem_singleton.mpr le_rfl⟩
  have htried : ∀ t ∈ tries es ++ [now], t ≤ now :=
    List.forall_mem_append.mpr ⟨hasked, List.forall_mem_singleton.mpr le_rfl⟩
  have hpaid : ∀ t₀, t₀ ≤ now → h.tokens.val + (grants es ++ [now]).countP (t₀ ≤ ·) ≤
      pays cfg t₀ now + slack cfg * (tries es ++ [now]).countP (t₀ ≤ ·) := by
    intro t₀ h0
    have := ht.refill hlast hclock t₀ h0
    rw [List.countP_append, List.countP_append, List.countP_singleton, if_pos (decide_eq_true h0), htok]
    push_cast
    linarith
  refine ⟨hh, ?_, ?_, fun t₀ => ?_, fun t₀ t₁ hle => ?_, ?_⟩
  · rw [hgrants, hn]
    exact hpast
  · rw [htries, hn]
    exact fun t hm => .inl (htried t hm)
  · rw [hn, hgrants, htries]
    rcases le_or_gt t₀ now with h0 | h0
    · exact .inr ⟨h0, hpaid t₀ h0⟩
    · refine .inl (List.countP_eq_zero.mpr fun t hm => ?_)
      simpa using (hpast t hm).trans_lt h0
  · rw [hgrants, htries]
    by_cases hin : t₀ ≤ now ∧ now ≤ t₁
    · have hcount : (grants es ++ [now]).countP (fun t => t₀ ≤ t ∧ t ≤ t₁) ≤ (grants es ++ [now]).countP (t₀ ≤ ·) :=
        List.countP_mono_left fun t _ hp => decide_eq_true (of_decide_eq_true hp).1
      have hcast : ((grants es ++ [now]).countP (fun t => t₀ ≤ t ∧ t ≤ t₁) : ℚ) ≤ (grants es ++ [now]).countP (t₀ ≤ ·) := by
        exact_mod_cast hcount
      have hcalls : (tries es ++ [now]).countP (t₀ ≤ ·) = (tries es ++ [now]).countP (fun t => t₀ ≤ t ∧ t ≤ t₁) :=
        List.countP_congr fun t hm => by simp [(htried t hm).trans hin.2]
      obtain ⟨q, hq, h0, -⟩ := hh.2
      have htokens := Binary64.val_eq hq
      have hnow := hpaid t₀ hin.1
      rw [hcalls] at hnow
      have : pays cfg t₀ now ≤ pays cfg t₀ t₁ := pays_mono hin.2
      linarith
    · have hmore := countP_snoc_le (fun t => decide (t₀ ≤ t ∧ t ≤ t₁)) (tries es) (some now)
      rw [List.countP_append, List.countP_singleton, if_neg (by simpa using hin), Nat.add_zero]
      refine (ht.bounded t₀ t₁ hle).trans (add_le_add_right (mul_le_mul_of_nonneg_left ?_ (slack_nonneg cfg)) _)
      exact_mod_cast hmore
  · rw [hn]
    refine List.forall_mem_append.mpr ⟨fun e hm u hu => .inl (hover e hm u hu), List.forall_mem_singleton.mpr ?_⟩
    rintro u ⟨⟩

/-- A refill that finds no token, once the backoff is over. -/
theorem Tracks.refused (ht : Tracks cfg es g) (hlast : g.lastRefill ≤ now) (hclock : now < clockEnd)
    (hb : ∀ u, g.backoffUntil = some u → u ≤ now)
    (hh : Holds cfg { g with backoffUntil := none, tokens := g.refilled now, lastRefill := now }) (m : ℕ) :
    Tracks cfg (es ++ [.acquired now (.error m)])
      { g with backoffUntil := none, tokens := g.refilled now, lastRefill := now } := by
  obtain ⟨hasked, hover⟩ := ht.over hlast hb
  refine ht.quiet rfl hh hlast ?_ ?_ ?_
  · have hone : (Made.acquired now (.error m)).asked.toList.countP (g.lastRefill ≤ ·) = 1 := by
      simp [Made.asked, hlast]
    rw [hone, Nat.cast_one, mul_one]
    exact refilled_le ht.holds hlast hclock
  · rw [tries_snoc]
    exact List.forall_mem_append.mpr ⟨fun t hm => .inl (hasked t hm), List.forall_mem_singleton.mpr (.inl le_rfl)⟩
  · refine List.forall_mem_append.mpr ⟨fun e hm u hu => .inl (hover e hm u hu), List.forall_mem_singleton.mpr ?_⟩
    rintro u ⟨⟩

/-- A call in a backoff waits for its end. -/
theorem Tracks.waited (ht : Tracks cfg es g) (hoff : g.backedOff now = true) (m : ℕ) :
    Tracks cfg (es ++ [.acquired now (.error m)]) g := by
  refine ht.quiet rfl ht.holds le_rfl ?_ ?_ ?_
  · rw [sub_self, mul_zero, zero_div, add_zero]
    exact le_add_of_nonneg_right (mul_nonneg (slack_nonneg cfg) (Nat.cast_nonneg _))
  · rw [tries_snoc]
    exact List.forall_mem_append.mpr ⟨ht.tried, List.forall_mem_singleton.mpr (.inr (backedOff_true hoff))⟩
  · refine List.forall_mem_append.mpr ⟨ht.waits, List.forall_mem_singleton.mpr ?_⟩
    rintro u ⟨⟩

/-- A refusal of the server empties the bucket; a backoff in force lasts as long, or longer. -/
theorem Tracks.limited (ht : Tracks cfg es g) (hlast : g.lastRefill ≤ now) (hint : Option ℕ) (jitter : Binary64) :
    Tracks cfg (es ++ [.limited now hint jitter (g.onRateLimited now hint jitter).1])
      (g.onRateLimited now hint jitter).2 := by
  have hzero : (lit 0 : Binary64).value = some 0 := Binary64.value_zero
  obtain ⟨hcfg, q, hq, h0, -⟩ := ht.holds
  have hlonger : ∀ b, g.backoffUntil = some b →
      ∃ b', (g.onRateLimited now hint jitter).2.backoffUntil = some b' ∧ b ≤ b' := by
    intro b hb
    unfold onRateLimited
    simp only [hb]
    exact ⟨_, rfl, le_max_left ..⟩
  refine ht.quiet rfl ⟨hcfg, 0, hzero, le_rfl, Nat.cast_nonneg _⟩ hlast ?_ ?_ ?_
  · have hcast : (g.lastRefill : ℚ) ≤ now := by exact_mod_cast hlast
    have hrate := mul_nonneg cfg.rps_nonneg (sub_nonneg.mpr hcast)
    have hdrained : (g.onRateLimited now hint jitter).2.tokens.val = 0 := Binary64.val_eq hzero
    rw [hdrained, Binary64.val_eq hq]
    simp only [Made.asked, Option.toList_none, List.countP_nil, Nat.cast_zero, mul_zero, add_zero]
    exact add_nonneg h0 (div_nonneg hrate (by norm_num))
  · rw [tries_snoc]
    refine List.forall_mem_append.mpr ⟨fun t hm => ?_, List.forall_mem_nil _⟩
    rcases ht.tried t hm with hle | ⟨b, hb, hlt⟩
    · exact .inl (hle.trans hlast)
    · obtain ⟨b', hb', hle⟩ := hlonger b hb
      exact .inr ⟨b', hb', hlt.trans_le hle⟩
  · refine List.forall_mem_append.mpr ⟨fun e hm u hu => ?_, List.forall_mem_singleton.mpr fun u hu => ?_⟩
    · rcases ht.waits e hm u hu with hle | ⟨b, hb, hle⟩
      · exact .inl (hle.trans hlast)
      · obtain ⟨b', hb', hle'⟩ := hlonger b hb
        exact .inr ⟨b', hb', hle.trans hle'⟩
    · obtain rfl := Option.some.inj hu
      refine .inr ⟨_, rfl, ?_⟩
      cases g.backoffUntil with
      | none => exact le_rfl
      | some b => exact le_max_right ..

theorem Tracks.succeeded (ht : Tracks cfg es g) : Tracks cfg (es ++ [.succeeded]) g.onSuccess := by
  refine ht.quiet rfl ht.holds le_rfl (by simp [onSuccess, Made.asked]) ?_ ?_
  · rw [tries_snoc]
    exact List.forall_mem_append.mpr ⟨ht.tried, List.forall_mem_nil _⟩
  · refine List.forall_mem_append.mpr ⟨ht.waits, List.forall_mem_singleton.mpr ?_⟩
    rintro u ⟨⟩

/-- What one fair call keeps. -/
theorem Tracks.step (ht : Tracks cfg es g) (hs : g.Fairly e h) : Tracks cfg (es ++ [e]) h := by
  obtain ⟨hmake, hfair⟩ := hs
  cases e with
  | succeeded =>
    obtain rfl : h = g.onSuccess := hmake
    exact ht.succeeded
  | limited now hint jitter d =>
    obtain ⟨rfl, rfl⟩ := Prod.mk.inj hmake
    exact ht.limited hfair hint jitter
  | acquired now r =>
    have hmake : g.tryAcquire now = (r, h) := hmake
    unfold tryAcquire at hmake
    obtain ⟨hclock, hfair⟩ := hfair
    by_cases hoff : g.backedOff now = true
    · rw [if_pos hoff] at hmake
      obtain ⟨rfl, rfl⟩ := Prod.mk.inj hmake
      exact ht.waited hoff _
    · rw [if_neg hoff] at hmake
      have hlast := hfair.resolve_left hoff
      have hends := backedOff_false (Bool.not_eq_true _ ▸ hoff)
      have hholds : Holds cfg { g with backoffUntil := none } := ht.holds
      have hh := hholds.take now
      rcases take_spec hholds now with ⟨m, hm, hstate⟩ | ⟨hok, -, t, hstate, hv⟩
      · rw [hmake] at hm hh hstate
        obtain rfl : r = .error m := hm
        obtain rfl : h = { g with backoffUntil := none, tokens := g.refilled now, lastRefill := now } := hstate
        exact ht.refused hlast hclock hends hh m
      · rw [hmake] at hok hh hstate
        obtain rfl : r = .ok () := hok
        obtain rfl : h = { g with backoffUntil := none, tokens := t, lastRefill := now } := hstate
        exact ht.grant hlast hclock hh rfl (Binary64.val_eq hv) hends

theorem run_tracks {start : Instant} (h : Run Fairly (new cfg start) es g) : Tracks cfg es g :=
  h.history (tracks_new cfg start) fun _ _ _ _ _ ht hs => ht.step hs

/-- **The bucket's bound.** Over every run of calls whose clocks are not behind the last refill, the
grants in a span of time are within the burst and what the rate makes of the span, but for what the
calls in the span are rounded up, and none is made before a backoff that was asked for has elapsed. -/
theorem rate_bounded {cfg : LimiterConfig} {start : Instant} (h : Run Fairly (new cfg start) es g) :
    (∀ t₀ t₁, t₀ ≤ t₁ → ((grants es).countP (fun t => t₀ ≤ t ∧ t ≤ t₁) : ℚ) ≤
      cfg.burst + cfg.rps.val * ((t₁ : ℚ) - t₀) / 10 ^ 9 +
        6 / 2 ^ 53 * cfg.burst * (tries es).countP (fun t => t₀ ≤ t ∧ t ≤ t₁)) ∧
    ∀ es₁ es₂ now hint jitter d, es = es₁ ++ .limited now hint jitter d :: es₂ → ∀ t ∈ grants es₂, now + d ≤ t := by
  refine ⟨fun t₀ t₁ hle => ?_, ?_⟩
  · have hbound := (run_tracks h).bounded t₀ t₁ hle
    unfold pays slack at hbound
    rw [f64_unit] at hbound
    linarith
  rintro es₁ es₂ now hint jitter d rfl t hm
  obtain ⟨e, he, hgrant⟩ := List.mem_filterMap.mp hm
  obtain ⟨before, after, rfl⟩ := List.append_of_mem he
  -- the run up to the grant, which asks whether the backoff has ended
  have hsplit : es₁ ++ .limited now hint jitter d :: (before ++ e :: after) =
      (es₁ ++ .limited now hint jitter d :: before) ++ [e] ++ after := by simp
  rw [hsplit] at h
  obtain ⟨v, hv, -⟩ := h.split
  obtain ⟨w, hw, hmake, hfair⟩ := hv.last
  have ht := run_tracks hw
  have hwaits := ht.waits (.limited now hint jitter d) (by simp) (now + d) rfl
  rcases e with ⟨now', m | u⟩ | _ | _
  · cases hgrant
  · obtain rfl : now' = t := Option.some.inj hgrant
    have hmake : w.tryAcquire now' = (.ok u, v) := hmake
    have hoff : ¬w.backedOff now' = true := by
      intro hoff
      unfold tryAcquire at hmake
      rw [if_pos hoff] at hmake
      exact absurd (Prod.mk.inj hmake).1 (by simp)
    rcases hwaits with hle | ⟨b, hb, hle⟩
    · exact hle.trans (hfair.2.resolve_left hoff)
    · exact hle.trans (backedOff_false (Bool.not_eq_true _ ▸ hoff) b hb)
  · cases hgrant
  · cases hgrant

end Runs

/-! ### Runs on record -/

/-- A call, before it is made. -/
inductive Call
  | acquire (now : Instant)
  | limit (now : Instant) (hint : Option ℕ) (jitter : Binary64)
  | succeed

def made (g : RateLimiter) : Call → Made × RateLimiter
  | .acquire now => (.acquired now (g.tryAcquire now).1, (g.tryAcquire now).2)
  | .limit now hint jitter =>
    (.limited now hint jitter (g.onRateLimited now hint jitter).1, (g.onRateLimited now hint jitter).2)
  | .succeed => (.succeeded, g.onSuccess)

theorem makes_made (g : RateLimiter) (c : Call) : g.Makes (g.made c).1 (g.made c).2 := by cases c <;> rfl

def played (g : RateLimiter) : List Call → List Made × RateLimiter
  | [] => ([], g)
  | c :: cs => ((g.made c).1 :: ((g.made c).2.played cs).1, ((g.made c).2.played cs).2)

theorem run_played (g : RateLimiter) : ∀ cs : List Call, Run Makes g (g.played cs).1 (g.played cs).2
  | [] => .nil
  | c :: cs => (Run.single (makes_made g c)).append (run_played _ cs)

instance (g : RateLimiter) : (e : Made) → Decidable (g.Fair e)
  | .acquired .. => inferInstanceAs (Decidable (_ ∧ _))
  | .limited .. => inferInstanceAs (Decidable (_ ≤ _))
  | .succeeded => .isTrue trivial

def allFair (g : RateLimiter) : List Call → Bool
  | [] => true
  | c :: cs => decide (g.Fair (g.made c).1) && (g.made c).2.allFair cs

theorem run_fairly : ∀ {cs : List Call} {g : RateLimiter}, g.allFair cs = true →
    Run Fairly g (g.played cs).1 (g.played cs).2
  | [], _, _ => .nil
  | c :: cs, g, h => by
    obtain ⟨hc, hcs⟩ := Bool.and_eq_true_iff.mp h
    exact (Run.single ⟨makes_made g c, of_decide_eq_true hc⟩).append (run_fairly hcs)

instance (x : Binary64) : Decidable x.IsFinite := inferInstanceAs (Decidable (x.value = some x.val))

/-- One token at most, and one a second. -/
def onePerSecond : LimiterConfig :=
  ⟨lit 1, 1, 500000000, 60000000000, by decide +kernel, by decide +kernel, by decide⟩

/-- One token at most, and one in three seconds. -/
def onePerThree : LimiterConfig :=
  ⟨lit (1 / 3), 1, 500000000, 60000000000, by decide +kernel, by decide +kernel, by decide⟩

/-- A second passes; a caller comes whose clock is from before it, and the second is credited again. -/
theorem credited_twice : ∃ es g, Run Makes (new onePerSecond 0) es g ∧
    ¬((grants es).countP (fun t => 1000000000 ≤ t ∧ t ≤ 1000000000) : ℚ) ≤
      onePerSecond.burst + onePerSecond.rps.val * ((1000000000 : ℕ) - (1000000000 : ℕ)) / 10 ^ 9 := by
  refine ⟨_, _, run_played _ [.acquire 1000000000, .acquire 0, .acquire 1000000000], ?_⟩
  decide +kernel

/-- A backoff of a quarter of a second is ended by a caller after it, and one before its end is let in. -/
theorem granted_in_backoff : ∃ es₁ es₂ now hint jitter d g t,
    Run Makes (new onePerSecond 0) (es₁ ++ .limited now hint jitter d :: es₂) g ∧ t ∈ grants es₂ ∧ t < now + d := by
  refine ⟨[], _, 2000000000, none, lit 0, _, _, 2200000000, run_played _
    [.limit 2000000000 none (lit 0), .acquire 2250000000, .acquire 0, .acquire 2200000000], ?_, ?_⟩ <;>
  decide +kernel

/-- A third of a token a second, rounded, is less than a third; in three seconds it is rounded up to one. -/
theorem rounded_up : ∃ es g, Run Makes (new onePerThree 0) es g ∧
    ¬((grants es).countP (fun t => 0 ≤ t ∧ t ≤ 3000000000) : ℚ) ≤
      onePerThree.burst + onePerThree.rps.val * ((3000000000 : ℕ) - (0 : ℕ)) / 10 ^ 9 := by
  refine ⟨_, _, run_played _ [.acquire 0, .acquire 3000000000], ?_⟩
  decide +kernel

/-- A burst, a refusal, a backoff, and a grant once it has elapsed. -/
def fairCalls : List Call :=
  [.acquire 0, .acquire 500000000, .limit 600000000 (some 1000000000) (lit (1 / 2)), .acquire 1500000000,
    .succeed, .acquire 1600000000]

theorem rate_bounded_fair : (new onePerSecond 0).allFair fairCalls = true ∧
    ((grants ((new onePerSecond 0).played fairCalls).1).countP (fun t => 0 ≤ t ∧ t ≤ 1600000000) : ℚ) ≤
      onePerSecond.burst + onePerSecond.rps.val * ((1600000000 : ℕ) - (0 : ℕ)) / 10 ^ 9 +
        6 / 2 ^ 53 * onePerSecond.burst *
          (tries ((new onePerSecond 0).played fairCalls).1).countP (fun t => 0 ≤ t ∧ t ≤ 1600000000) := by
  have hfair : (new onePerSecond 0).allFair fairCalls = true := by decide +kernel
  exact ⟨hfair, (rate_bounded (run_fairly hfair)).1 0 1600000000 (Nat.zero_le _)⟩

end RateLimiter
end MobiusSearcher
