/-
# Concentrated-liquidity pools

The swap of `crates/market/src/amm/clmm.rs`: inside a tick range the pool is
`x·y = L²`, a fee is taken from the input, and liquidity changes where the
price crosses an initialized tick. A turn of the loop (`Clmm.turn`) trades at
constant liquidity towards the next tick; the loop ends when the input is
spent, or gives no answer past the ticks at hand.

Key definitions: `Clmm`, `step`, `Clmm.turn`, `Clmm.loop`, `Clmm.swap`.
Key theorem: `Clmm.turn_eq_ok`.
-/
import MobiusSearcher.Amm.Tick
import MobiusSearcher.Lib.Loop

namespace MobiusSearcher
namespace Amm

def ppm : ℕ := 1000000

/-- An initialized tick: liquidity added when the price crosses it upwards. -/
structure Tick where
  index : ℤ
  liquidityNet : ℤ
  deriving DecidableEq, Repr

/-- A pool at one moment. Token A is the pool's first mint; the price is B per A. -/
structure Clmm where
  /-- Square root of the price in raw units, Q64.64. -/
  sqrtPrice : ℕ
  tick : ℤ
  liquidity : ℕ
  /-- Swap fee taken from the input, in millionths. -/
  feePpm : ℕ
  /-- Initialized ticks inside `known`, ascending. -/
  ticks : List Tick
  /-- Ticks `known.1 .. known.2` are covered by the tick arrays at hand. -/
  known : ℤ × ℤ
  sqrtPrice_lt : sqrtPrice < 2 ^ 128
  liquidity_lt : liquidity < 2 ^ 128
  deriving DecidableEq, Repr

structure Swap where
  amountOut : ℕ
  /-- Fee paid, in the input token. -/
  fee : ℕ
  /-- The pool's price afterwards. -/
  sqrtPrice : ℕ
  ticksCrossed : ℕ
  deriving DecidableEq, Repr

/-- Token A between two prices at liquidity `l`: `l · (hi − lo) / (hi · lo)`. -/
def amountA (lo hi l : ℕ) (up : Bool) : Checked ℕ := do
  let (lo, hi) := if lo ≤ hi then (lo, hi) else (hi, lo)
  let gap ← Checked.sub hi lo
  let p ← U256.mul l gap
  let p ← p.checkedShl 64
  let (q, r1) ← p.divRem hi
  let (q, r2) ← q.divRem lo
  let q ← q.low
  Checked.checkedAdd 128 q (up && (r1 ≠ 0 || r2 ≠ 0)).toNat

/-- Token B between two prices at liquidity `l`: `l · (hi − lo)`. -/
def amountB (lo hi l : ℕ) (up : Bool) : Checked ℕ := do
  let (lo, hi) := if lo ≤ hi then (lo, hi) else (hi, lo)
  let gap ← Checked.sub hi lo
  let p ← U256.mul l gap
  if p.hi / 2 ^ 64 ≠ 0 then Checked.none
  else Checked.checkedAdd 128 (Checked.shl 128 p.hi 64 ||| p.lo / 2 ^ 64) (up && p.lo % 2 ^ 64 ≠ 0).toNat

/-- The price after `amount` of the input token (fee already taken) is added
at liquidity `l`, rounded against the trader. -/
def priceAfter (sqrtPrice l amount : ℕ) (aToB : Bool) : Checked ℕ :=
  if amount = 0 then pure sqrtPrice
  else if aToB then do
    -- l·√P / (l + amount·√P), rounded up
    let lX64 ← (U256.ofLow l).checkedShl 64
    let lX64 ← lX64.low
    let p ← U256.mul amount sqrtPrice
    let denominator ← (U256.ofLow lX64).checkedAdd p
    let denominator ← denominator.low
    mulDivUp lX64 sqrtPrice denominator
  else do
    -- √P + amount / l, rounded down
    let p ← (U256.ofLow amount).checkedShl 64
    let (q, _) ← p.divRem l
    let q ← q.low
    Checked.checkedAdd 128 sqrtPrice q

structure Step where
  sqrtPrice : ℕ
  amountIn : ℕ
  amountOut : ℕ
  fee : ℕ
  deriving DecidableEq, Repr

/-- The input that moves the price to `to`. -/
def stepInput (sqrtPrice l : ℕ) (aToB : Bool) (goal : ℕ) : Checked ℕ :=
  if aToB then amountA goal sqrtPrice l true else amountB sqrtPrice goal l true

def stepOutput (sqrtPrice l : ℕ) (aToB : Bool) (next : ℕ) : Checked ℕ :=
  if aToB then amountB next sqrtPrice l false else amountA sqrtPrice next l false

/-- One stretch of a swap at constant liquidity: towards `target`, as far as
`remaining` input (fee included) goes. -/
def step (sqrtPrice target l remaining feePpm : ℕ) (aToB : Bool) : Checked Step := do
  let toTarget ← stepInput sqrtPrice l aToB target
  let share ← Checked.sub ppm feePpm
  let afterFee ← mulDiv remaining share ppm
  let next ← (if toTarget ≤ afterFee then pure target else priceAfter sqrtPrice l afterFee aToB)
  let reached := next = target
  let amountIn ← (if reached then pure toTarget else stepInput sqrtPrice l aToB next)
  let amountOut ← stepOutput sqrtPrice l aToB next
  let fee ← (if reached then mulDivUp amountIn feePpm share else Checked.checkedSub remaining amountIn)
  pure { sqrtPrice := next, amountIn, amountOut, fee }

/-- A step as it was made: what it started from, and what it was. -/
structure Made where
  sqrtPrice : ℕ
  target : ℕ
  liquidity : ℕ
  remaining : ℕ
  step : Step
  deriving DecidableEq, Repr

/-- The loop's variables, and the steps made so far, the last first; the code
keeps no such list, and nothing here reads it. -/
structure Walk where
  sqrtPrice : ℕ
  tick : ℤ
  liquidity : ℕ
  remaining : ℕ
  out : ℕ
  fees : ℕ
  crossed : ℕ
  steps : List Made
  deriving DecidableEq, Repr

namespace Clmm

/-- The next initialized tick in the swap's direction. -/
def nextTick (p : Clmm) (aToB : Bool) (tick : ℤ) : Option Tick :=
  if aToB then p.ticks.reverse.find? (fun t => t.index ≤ tick) else p.ticks.find? (fun t => tick < t.index)

/-- That tick, else the edge of what is known. -/
def targetTick (p : Clmm) (aToB : Bool) (tick : ℤ) : ℤ :=
  (p.nextTick aToB tick).elim (if aToB then p.known.1 else p.known.2) Tick.index

/-- A tick is crossed, or the edge of the known ones is reached. -/
def cross (aToB : Bool) (next : Option Tick) (w : Walk) : Checked Walk :=
  match next with
  | some t => do
    let net ← (if aToB then Checked.checkedNeg 128 t.liquidityNet else pure t.liquidityNet)
    let liquidity ← Checked.checkedAddSigned 128 w.liquidity net
    let crossed ← Checked.add 32 w.crossed 1
    pure { w with liquidity, crossed }
  -- at the edge of the known ticks with input left: unknown from here
  | none => if 0 < w.remaining then Checked.none else pure w

/-- A turn of the loop, and whether the input ran out inside the range. -/
def turn (p : Clmm) (aToB : Bool) (w : Walk) : Checked (Walk × Bool) := do
  let targetTick := p.targetTick aToB w.tick
  let target ← sqrtPriceAtTick targetTick
  let s ← step w.sqrtPrice target w.liquidity w.remaining p.feePpm aToB
  let remaining ← Checked.checkedSub w.remaining (← Checked.add 128 s.amountIn s.fee)
  let out ← Checked.add 128 w.out s.amountOut
  let fees ← Checked.add 128 w.fees s.fee
  let made : Made := ⟨w.sqrtPrice, target, w.liquidity, w.remaining, s⟩
  let moved := { w with sqrtPrice := s.sqrtPrice, remaining, out, fees, steps := made :: w.steps }
  if s.sqrtPrice ≠ target then pure (moved, true)
  else do
    let crossed ← cross aToB (p.nextTick aToB w.tick) moved
    let tick ← (if aToB then Checked.int 32 (targetTick - 1) else pure targetTick)
    pure ({ crossed with tick }, false)

/-! ### The loop -/

theorem nextTick_side {p : Clmm} {aToB : Bool} {tick : ℤ} {t : Tick} (h : p.nextTick aToB tick = some t) :
    if aToB then t.index ≤ tick else tick < t.index := by
  unfold nextTick at h
  cases aToB
  · have hfound := List.find?_some (l := p.ticks) h
    exact of_decide_eq_true hfound
  · have hfound := List.find?_some (l := p.ticks.reverse) h
    exact of_decide_eq_true hfound

theorem cross_eq_ok {aToB : Bool} {next : Option Tick} {w w' : Walk} (h : cross aToB next w = .ok w') :
    (next = none ∧ w.remaining = 0 ∧ w' = w) ∨
      ∃ (t : Tick) (l : ℕ), next = some t ∧ (l : ℤ) = w.liquidity + (if aToB then -t.liquidityNet else t.liquidityNet) ∧ l < 2 ^ 128 ∧
        w' = { w with liquidity := l, crossed := w.crossed + 1 } := by
  unfold cross at h
  cases next with
  | none =>
    simp only at h
    by_cases hr : 0 < w.remaining
    · rw [if_pos hr] at h
      exact absurd h Checked.none_ne_ok
    · rw [if_neg hr] at h
      exact .inl ⟨rfl, by omega, (Except.ok.inj h).symm⟩
  | some t =>
    simp only at h
    obtain ⟨net, hnet, h⟩ := Checked.bind_eq_ok.mp h
    obtain ⟨l, hl, h⟩ := Checked.bind_eq_ok.mp h
    obtain ⟨c, hc, h⟩ := Checked.bind_eq_ok.mp h
    have hnet' : net = if aToB then -t.liquidityNet else t.liquidityNet := by
      cases aToB
      · exact (Except.ok.inj hnet).symm
      · rw [if_pos rfl] at hnet ⊢
        exact (Checked.checkedNeg_eq_ok.mp hnet).2
    obtain ⟨hl₁, hl₂⟩ := Checked.checkedAddSigned_eq_ok.mp hl
    obtain ⟨-, rfl⟩ := Checked.add_eq_ok.mp hc
    refine .inr ⟨t, l, rfl, ?_, hl₂, (Except.ok.inj h).symm⟩
    rw [← hnet']
    exact hl₁

/-- What a turn does: one step, and past it the tick at its target, if it got there. -/
theorem turn_eq_ok {p : Clmm} {aToB broke : Bool} {w w' : Walk} (h : p.turn aToB w = .ok (w', broke)) :
    ∃ target s, sqrtPriceAtTick (p.targetTick aToB w.tick) = .ok target ∧
      step w.sqrtPrice target w.liquidity w.remaining p.feePpm aToB = .ok s ∧
      s.amountIn + s.fee + w'.remaining = w.remaining ∧ w'.sqrtPrice = s.sqrtPrice ∧
      w'.out = w.out + s.amountOut ∧ w'.fees = w.fees + s.fee ∧
      w'.steps = ⟨w.sqrtPrice, target, w.liquidity, w.remaining, s⟩ :: w.steps ∧
      ((broke = true ∧ s.sqrtPrice ≠ target ∧ w'.tick = w.tick ∧ w'.liquidity = w.liquidity ∧ w'.crossed = w.crossed) ∨
        (broke = false ∧ s.sqrtPrice = target ∧
          w'.tick = (if aToB then p.targetTick aToB w.tick - 1 else p.targetTick aToB w.tick) ∧
          ((p.nextTick aToB w.tick = none ∧ w'.remaining = 0 ∧ w'.liquidity = w.liquidity ∧ w'.crossed = w.crossed) ∨
            ∃ t, p.nextTick aToB w.tick = some t ∧ w'.liquidity < 2 ^ 128 ∧ w'.crossed = w.crossed + 1 ∧
              (w'.liquidity : ℤ) = w.liquidity + (if aToB then -t.liquidityNet else t.liquidityNet)))) := by
  unfold turn at h
  simp only at h
  obtain ⟨target, htarget, h⟩ := Checked.bind_eq_ok.mp h
  obtain ⟨s, hs, h⟩ := Checked.bind_eq_ok.mp h
  obtain ⟨spent, hspent, h⟩ := Checked.bind_eq_ok.mp h
  obtain ⟨rem, hrem, h⟩ := Checked.bind_eq_ok.mp h
  obtain ⟨out, hout, h⟩ := Checked.bind_eq_ok.mp h
  obtain ⟨fees, hfees, h⟩ := Checked.bind_eq_ok.mp h
  obtain ⟨-, rfl⟩ := Checked.add_eq_ok.mp hspent
  obtain ⟨hle, rfl⟩ := Checked.checkedSub_eq_ok.mp hrem
  obtain ⟨-, rfl⟩ := Checked.add_eq_ok.mp hout
  obtain ⟨-, rfl⟩ := Checked.add_eq_ok.mp hfees
  by_cases hreached : s.sqrtPrice ≠ target
  · rw [if_pos hreached] at h
    obtain ⟨rfl, rfl⟩ := Prod.mk.inj (Except.ok.inj h)
    exact ⟨target, s, htarget, hs, Nat.add_sub_cancel' hle, rfl, rfl, rfl, rfl,
      .inl ⟨rfl, hreached, rfl, rfl, rfl⟩⟩
  · rw [if_neg hreached] at h
    obtain ⟨c, hc, h⟩ := Checked.bind_eq_ok.mp h
    obtain ⟨tick, htick, h⟩ := Checked.bind_eq_ok.mp h
    obtain ⟨rfl, rfl⟩ := Prod.mk.inj (Except.ok.inj h)
    have htick' : tick = if aToB then p.targetTick aToB w.tick - 1 else p.targetTick aToB w.tick := by
      cases aToB
      · exact (Except.ok.inj htick).symm
      · rw [if_pos rfl] at htick ⊢
        exact (Checked.int_eq_ok.mp htick).2
    rw [not_not] at hreached
    rcases cross_eq_ok hc with ⟨hnext, hzero, rfl⟩ | ⟨t, l, hnext, hl, hlt, rfl⟩
    · exact ⟨target, s, htarget, hs, Nat.add_sub_cancel' hle, rfl, rfl, rfl, rfl,
        .inr ⟨rfl, hreached, htick', .inl ⟨hnext, hzero, rfl, rfl⟩⟩⟩
    · exact ⟨target, s, htarget, hs, Nat.add_sub_cancel' hle, rfl, rfl, rfl, rfl,
        .inr ⟨rfl, hreached, htick', .inr ⟨t, hnext, hlt, rfl, hl⟩⟩⟩

/-- Ticks left in the swap's direction. -/
def ahead (aToB : Bool) (w : Walk) : ℕ :=
  if w.remaining = 0 then 0
  else (if aToB then w.tick - minTick + 1 else maxTick - w.tick).toNat + 1

/-- The loop comes to an end. -/
theorem ahead_lt {p : Clmm} {aToB : Bool} {w w' : Walk} (hw : w.remaining ≠ 0) (h : p.turn aToB w = .ok (w', false)) :
    ahead aToB w' < ahead aToB w := by
  obtain ⟨target, s, htarget, -, -, -, -, -, -, hend⟩ := turn_eq_ok h
  have hin := (sqrtPriceAtTick_eq_ok.mp htarget).1
  unfold ahead
  rw [if_neg hw]
  by_cases hzero : w'.remaining = 0
  · rw [if_pos hzero]
    exact Nat.succ_pos _
  rw [if_neg hzero]
  rcases hend with ⟨hbroke, -⟩ | ⟨-, -, htick, ⟨-, hspent, -⟩ | ⟨t, hnext, -⟩⟩
  · exact absurd hbroke (by decide)
  · exact absurd hspent hzero
  · have hside := nextTick_side hnext
    have hindex : p.targetTick aToB w.tick = t.index := by
      unfold targetTick
      rw [hnext]
      rfl
    rw [hindex] at htick hin
    rw [htick]
    cases aToB
    · simp only [Bool.false_eq_true, if_false] at hside ⊢
      omega
    · simp only [if_true] at hside ⊢
      omega

/-- The loop: until the input is spent. -/
def loop (p : Clmm) (aToB : Bool) : Loop Walk where
  done w := decide (w.remaining = 0)
  turn := p.turn aToB
  size := ahead aToB
  descends hw h := ahead_lt (of_decide_eq_false hw) h

def walk (p : Clmm) (aToB : Bool) : Walk → Checked Walk := (p.loop aToB).run

def start (p : Clmm) (amountIn : ℕ) : Walk :=
  { sqrtPrice := p.sqrtPrice, tick := p.tick, liquidity := p.liquidity, remaining := amountIn, out := 0, fees := 0,
    crossed := 0, steps := [] }

/-- Sell exactly `amountIn` of token A (`aToB`) or of token B. -/
def swap (p : Clmm) (aToB : Bool) (amountIn : ℕ) : Checked Swap := do
  let w ← p.walk aToB (p.start amountIn)
  let amountOut ← Checked.fit 64 w.out
  let fee ← Checked.fit 64 w.fees
  pure { amountOut, fee, sqrtPrice := w.sqrtPrice, ticksCrossed := w.crossed }

end Clmm

end Amm
end MobiusSearcher
