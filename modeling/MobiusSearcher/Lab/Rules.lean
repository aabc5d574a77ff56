/-
# The lab's rules and its account

`apps/mobius-searcher/src/lab/rules.rs`: a rule looks at the candles and at the
account and says what to do next (`Rule.decide`, `orders`); the account keeps
what was bought and sold, as the chain settled it (`Account.bought`,
`Account.sold`).

A trained model is its signal and its horizon. What a rule shows of itself
(levels, descriptions) and the paper fills are elsewhere.

Key definitions: `Rule`, `Account`, `Rule.decide`, `orders`.
-/
import MobiusSearcher.Lib.FloatOps
import Mathlib.Tactic

namespace MobiusSearcher
namespace Lab

open FloatOps

structure Bar (F : Type) where
  /-- Start of the bar, ms since the epoch. -/
  ts : ℤ
  open_ : F
  high : F
  low : F
  close : F
  volume : F

inductive Rule (F : Type)
  /-- In for the bar after a bar that closed down, out after one that did not. -/
  | signReversal
  /-- In when the close is `k` deviations under its `window`-bar average; out
  when it is back at `exitZ` deviations, or `stop` under the buy price. -/
  | dip (window : ℕ) (k exitZ : F) (stop : Option F)
  /-- One of `lots` equal parts bought each time the close is `step` under
  the last trade; each part sold `step` above its own buy. -/
  | grid (step : F) (lots : ℕ)
  /-- In on a close above the high of the `entry` bars before; out on a
  close under the low of the `exit` bars before. -/
  | breakout (entry exit : ℕ)
  /-- In when the model gives a rise at least its threshold, out its horizon
  after the last time it did. -/
  | model

inductive Order (F : Type)
  | buy (usd : F)
  | sell (lot : ℕ)

/-- The lots an order list sells. -/
def sellsOf {F : Type} (wanted : List (Order F)) : List ℕ :=
  wanted.filterMap fun
    | .sell lot => some lot
    | .buy _ => none

/-- A trained model: its signal on the bars and the other coin's closes. -/
structure Model (F : Type) where
  signal : List (Bar F) → List F → Bool
  horizonBars : ℕ

/-- SOL bought at one time. -/
structure Lot (F : Type) where
  /-- USD paid per SOL received, costs included. -/
  price : F
  sol : F
  usd : F
  opened : ℤ

/-- A lot bought and sold. -/
structure Trade (F : Type) where
  opened : ℤ
  closed : ℤ
  /-- USD paid in. -/
  usd : F
  /-- USD back out after every cost, less what was paid in. -/
  net : F

structure Account (F : Type) where
  cash : F
  lots : List (Lot F)
  /-- Close at the last trade; the first close seen before any. -/
  reference : Option F
  trades : List (Trade F)
  /-- USD bought and sold so far. -/
  turnover : F
  /-- The current UTC day, and equity at its start. -/
  day : Option (ℤ × F)
  /-- The total-loss stop was hit: no new buying, for good. -/
  frozen : Bool
  /-- A model rule holds until this bar. -/
  holdUntil : Option ℤ

/-- Stops of an experiment, as shares of its capital. -/
structure Stops (F : Type) where
  /-- Down this much since the UTC day began: nothing is bought until the next day. -/
  dailyLoss : Option F
  /-- Down this much since the start: nothing is bought again. -/
  totalLoss : Option F

variable {F : Type} [FloatOps F]

namespace Account

def empty : Account F := ⟨lit 0, [], none, [], lit 0, none, false, none⟩

def sol (a : Account F) : F := a.lots.foldl (fun held l => held + l.sol) (lit 0)

/-- Cash plus the SOL held, at `price`. -/
def equity (a : Account F) (price : F) : F := a.cash + a.sol * price

/-- A buy as the chain settled it: `usd` left and `sol` arrived, every cost inside. -/
def bought (a : Account F) (usd sol : F) (ts : ℤ) (signalClose : F) : Account F :=
  { a with
    cash := maximum (a.cash - usd) (lit 0)
    turnover := a.turnover + usd
    lots := a.lots ++ [⟨usd / sol, sol, usd, ts⟩]
    reference := some signalClose }

/-- The sale of lot `i` as the chain settled it: `usd` arrived, every cost inside. -/
def sold (a : Account F) (i : ℕ) (usd : F) (ts : ℤ) (signalClose : F) : Account F :=
  match a.lots[i]? with
  | none => a
  | some lot =>
    { a with
      lots := a.lots.eraseIdx i
      cash := a.cash + usd
      turnover := a.turnover + usd
      trades := a.trades ++ [⟨lot.opened, ts, lot.usd, usd - lot.usd⟩]
      reference := some signalClose }

end Account

/-- The least `f64`. -/
def f64Min : F := lit (-((2 ^ 53 - 1) * 2 ^ 971))

/-- The largest `f64`. -/
def f64Max : F := lit ((2 ^ 53 - 1) * 2 ^ 971)

namespace Rule

/-- Bars a rule needs before its first decision; a model's are its history. -/
def warmup (history : ℕ) : Rule F → ℕ
  | signReversal => 2
  | dip window .. => window
  | grid .. => 1
  | breakout entry exit => max entry exit + 1
  | model => history

/-- What a rule's numbers must be. -/
def check : Rule F → Except String Unit
  | dip window k _ stop =>
    if window < 2 ∨ le k (lit 0) ∨ stop.any fun s => le s (lit 0) then
      .error "window (at least 2), k and stop must be greater than zero"
    else .ok ()
  | grid step lots =>
    if le step (lit 0) ∨ lots = 0 then .error "step and lots must be greater than zero" else .ok ()
  | breakout entry exit =>
    if entry = 0 ∨ exit = 0 then .error "entry and exit must be greater than zero" else .ok ()
  | _ => .ok ()

/-- All in, or all out. -/
def allIn (acct : Account F) (mayBuy want : Bool) : List (Order F) :=
  match want, acct.lots.isEmpty with
  | true, true => if mayBuy && lt (lit 0) acct.cash then [.buy acct.cash] else []
  | false, false => (List.range acct.lots.length).map .sell
  | _, _ => []

/-- How many deviations the last close is over the average of the window. -/
def zScore (window : ℕ) (bars : List (Bar F)) (close : F) : F :=
  let w := bars.drop (bars.length - window)
  let mean := (w.foldl (fun s b => s + b.close) (lit 0)) / lit window
  let sd := sqrt ((w.foldl (fun s b => s + (b.close - mean) * (b.close - mean)) (lit 0)) / lit window)
  if lt (lit 0) sd then (close - mean) / sd else lit 0

/-- Orders for the next price, decided at the close of the last of `bars`.
`capital` is what the experiment started with; `mayBuy` is false while a stop
is in force (selling goes on). -/
def decide (history : ℕ) (rule : Rule F) (bars : List (Bar F)) (acct : Account F) (capital : F) (mayBuy : Bool) :
    List (Order F) :=
  match bars.getLast? with
  | none => []
  | some last =>
    if bars.length < rule.warmup history then []
    else
      let close := last.close
      match rule with
      | signReversal =>
        match bars[bars.length - 2]? with
        | some before => allIn acct mayBuy (lt close before.close)
        | none => []
      | dip window k exitZ stop =>
        let z := zScore window bars close
        match acct.lots.head? with
        | none => allIn acct mayBuy (lt z (lit 0 - k))
        | some lot =>
          let stopped := stop.any fun s => lt close (lot.price * (lit 1 - s))
          allIn acct mayBuy !(lt exitZ z || stopped)
      | grid step lots =>
        let sells := (acct.lots.zipIdx.filter fun l => le (l.1.price * (lit 1 + step)) close).map fun l => Order.sell l.2
        if sells ≠ [] then sells
        else
          let part := capital / lit lots
          let under := acct.reference.any fun r => le close (r * (lit 1 - step))
          if mayBuy && under && acct.lots.length < lots && le (part * lit (999 / 1000)) acct.cash then
            [.buy (minimum part acct.cash)]
          else []
      | breakout entry exit =>
        let before := bars.take (bars.length - 1)
        let high := ((before.drop (before.length - entry)).map Bar.high).foldl maximum f64Min
        let low := ((before.drop (before.length - exit)).map Bar.low).foldl minimum f64Max
        if acct.lots.isEmpty then allIn acct mayBuy (lt high close) else allIn acct mayBuy (le low close)
      -- decided in `orders`, which has the model and the other coin's candles
      | model => []

end Rule

/-- What a step may look at besides the candles. -/
structure Ctx (F : Type) where
  model : Option (Model F)
  other : List F
  /-- Bars a model looks back. -/
  history : ℕ

/-- The account's day and stops at the close of `bar`. -/
def Account.mark (acct : Account F) (stops : Stops F) (capital : F) (bar : Bar F) : Account F :=
  let acct := { acct with reference := acct.reference.or (some bar.close) }
  let equity := acct.equity bar.close
  let today := bar.ts / 86400000
  let acct := if acct.day.any fun d => d.1 = today then acct else { acct with day := some (today, equity) }
  if stops.totalLoss.any fun s => le equity (capital * (lit 1 - s)) then { acct with frozen := true } else acct

/-- What the rule wants at the close of the last of `bars`. Keeps the
account's day and stops; fills nothing. -/
def orders (rule : Rule F) (stops : Stops F) (capital : F) (acct : Account F) (bars : List (Bar F)) (ctx : Ctx F) :
    List (Order F) × Account F :=
  match bars.getLast? with
  | none => ([], acct)
  | some bar =>
    let acct := acct.mark stops capital bar
    let equity := acct.equity bar.close
    let dayStart := (acct.day.map Prod.snd).getD equity
    let paused := stops.dailyLoss.any fun s => le equity (dayStart - capital * s)
    let mayBuy := !acct.frozen && !paused
    match rule, ctx.model with
    | .model, some m =>
      let on := m.signal bars ctx.other
      let acct := match bars[bars.length - 2]? with
        | some before =>
          if on && 2 ≤ bars.length then
            { acct with holdUntil := some (bar.ts + m.horizonBars * (bar.ts - before.ts)) }
          else acct
        | none => acct
      if acct.lots.isEmpty then
        (if on && mayBuy && lt (lit 0) acct.cash then [.buy acct.cash] else [], acct)
      else if acct.holdUntil.all fun t => t ≤ bar.ts then ((List.range acct.lots.length).map .sell, acct)
      else ([], acct)
    | _, _ => (rule.decide ctx.history bars acct capital mayBuy, acct)

end Lab
end MobiusSearcher
