/-
# The sliding-window limiter

`WindowLimiter` of `crates/telemetry/src/ratelimit.rs`. Instants and durations
are nanoseconds; each function is one call under the limiter's lock, given
the clock its caller read, and returns the limiter after it.

Key definitions: `WindowLimiter`, `available`, `tryAcquire`, `nextSlotN`,
`onServerReport`, `onRateLimited`.
-/
import MobiusSearcher.Lib.Machine

namespace MobiusSearcher

open Machine

/-- A monotonic clock reading, in nanoseconds. -/
abbrev Instant := ℕ

structure WindowLimiter where
  window : ℕ
  capacity : ℕ
  /-- Capacity `safety` and reserves are expressed for. -/
  configured : ℕ
  /-- Slots never used. -/
  safety : ℕ
  sent : List Instant
  /-- Gateway report: `remaining` as of the reporting request's send time. -/
  server : Option (Instant × ℤ)
  /-- When the gateway's oldest counted request ages out. -/
  serverReset : Option Instant
  blockedUntil : Option Instant
  deriving DecidableEq, Repr

namespace WindowLimiter

def new (capacity window safety : ℕ) : WindowLimiter :=
  ⟨window, max capacity 1, max capacity 1, safety, [], none, none, none⟩

/-- Slots kept free: safety and reserve, scaled from the configured to the
learned capacity; a non-zero safety stays at least 1. -/
def headroom (g : WindowLimiter) (reserve : ℕ) : ℕ :=
  let scale (x : ℕ) : ℕ := wrapU32 (x * g.capacity / g.configured)
  wrapU32 ((if 0 < g.safety then max (scale g.safety) 1 else 0) + scale reserve)

/-- Drop the sends that aged out of the window. -/
def prune (g : WindowLimiter) (now : Instant) : WindowLimiter :=
  { g with sent := g.sent.dropWhile fun t => g.window ≤ now - t }

def blocked (g : WindowLimiter) (now : Instant) : Bool :=
  match g.blockedUntil with
  | some u => now < u
  | none => false

/-- Free slots by our own count. -/
def localFree (g : WindowLimiter) (reserve : ℕ) : ℕ :=
  g.capacity - g.headroom reserve - wrapU32 g.sent.length

/-- Free slots by the gateway's report at `reference`. -/
def serverFree (g : WindowLimiter) (now reference : Instant) (remaining : ℤ) (reserve : ℕ) : ℕ :=
  let oursSince : ℤ := (g.sent.filter fun t => reference < t).length
  -- past its reset the oldest request the gateway counted has aged out
  let freed : ℤ := match g.serverReset with
    | some r => if r ≤ now then 1 else 0
    | none => 0
  wrapU32 (wrapI64 (remaining + freed - oursSince - g.headroom reserve)).toNat

/-- Requests that may start now while keeping `reserve` slots unused. -/
def available (g : WindowLimiter) (now : Instant) (reserve : ℕ) : ℕ × WindowLimiter :=
  if g.blocked now then (0, g)
  else
    let g := g.prune now
    match g.server with
    -- the gateway's count is authoritative while it is fresh
    | some (reference, remaining) =>
      if now - reference < g.window then
        (min (g.localFree reserve) (g.serverFree now reference remaining reserve), g)
      else (g.localFree reserve, g)
    | none => (g.localFree reserve, g)

/-- When `need` slots are free at once, keeping `reserve`. -/
def nextSlotN (g : WindowLimiter) (now : Instant) (reserve need : ℕ) : Instant × WindowLimiter :=
  let need := max need 1
  match g.blockedUntil.filter fun u => now < u with
  | some u => (u, g)
  | none =>
    let (free, g) := g.available now reserve
    if need ≤ free then (now, g)
    else
      let limit := g.capacity - g.headroom reserve
      let at_ : Option Instant :=
        if limit < need then none
        else if need ≤ limit - wrapU32 g.sent.length then
          (g.serverReset.filter fun r => now < r).or (g.server.map fun (r, _) => r + g.window)
        else
          -- the oldest sends have to age out
          g.sent[need - (limit - wrapU32 g.sent.length) - 1]?.map fun t => t + g.window
      (max (at_.getD (now + g.window)) (now + 1000000), g)

/-- Take a slot now, keeping `reserve` free, or say how long to wait. -/
def tryAcquire (g : WindowLimiter) (now : Instant) (reserve : ℕ) : Except ℕ Unit × WindowLimiter :=
  let (free, g) := g.available now reserve
  if 0 < free then (.ok (), { g with sent := g.sent ++ [now] })
  else
    let (t, g) := g.nextSlotN now reserve 1
    (.error (t - now), g)

/-- Block until `until_`, or longer when it was blocked longer. -/
def block (g : WindowLimiter) (until_ : Instant) : WindowLimiter :=
  { g with blockedUntil := some (match g.blockedUntil with
    | some u => max u until_
    | none => until_) }

/-- Gateway report carried by the response to a request sent at `reference`. -/
def onServerReport (g : WindowLimiter) (reference now : Instant) (current remaining : ℤ) (resetIn : ℕ) :
    WindowLimiter :=
  let cap := wrapI64 (current + remaining)
  let g := if 0 < cap then { g with capacity := min cap.toNat (2 ^ 32 - 1) } else g
  let newer := match g.server with
    | some (r, _) => decide (r ≤ reference)
    | none => true
  let g := if newer then { g with server := some (reference, remaining), serverReset := some (now + resetIn) } else g
  if remaining ≤ 0 then g.block (now + max resetIn 100000000) else g

/-- A 429: block for `d`, the gateway's hint or the backoff. -/
def onRateLimited (g : WindowLimiter) (now d : ℕ) : WindowLimiter := g.block (now + max d 100000000)

end WindowLimiter

end MobiusSearcher
