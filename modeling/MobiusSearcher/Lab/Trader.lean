/-
# One rule with real money: what it does

The operations of `Trader` in `apps/mobius-searcher/src/lab/trade.rs` and their
callers in `lab/mod.rs` (`trade`), as programs that ask their world: for the
state in memory, for the wallet, for a swap, for the state to be written down.
Every await and every change of the state is a question, so that a run can be
stopped at any of them.

Key definitions: `Op`, `actFor`, `reconcile`, `fund`, `rebudget`, `sellAll`,
`onBar`, `look`, `Call.prog`.
-/
import MobiusSearcher.Lab.Trade
import MobiusSearcher.Lib.Prog

namespace MobiusSearcher
namespace Lab

open FloatOps Machine

/-- What the trader asks. -/
inductive Op (F : Type)
  | state
  | set (s : State F)
  /-- `pending` becomes this swap. -/
  | hold (p : Pending F)
  /-- `pending` becomes none. -/
  | release
  | settle (p : Pending F) (wallet : Wallet) (lastLook : Bool)
  | balances
  /-- Swap `amount` of the input; `atLeast`: what its on-chain minimum must be. -/
  | swap (sellSol : Bool) (amount atLeast : ℕ)
  /-- The state is written down. -/
  | write
  /-- The clock, ms. -/
  | now
  /-- The loop over a rule's orders takes up this one. -/
  | order (o : Order F)

def Op.Ans {F : Type} : Op F → Type
  | .state => State F
  | .settle .. => Bool
  | .balances => Option Wallet
  | .swap .. => Sent
  | .now => ℤ
  | _ => Unit

abbrev Act (F α : Type) := Prog (Op.Ans (F := F)) α

/-- A trader's file, the lamports its wallet keeps for fees, and its rule. -/
structure Desk (F : Type) where
  live : Live F
  feeReserve : ℕ
  rule : Rule F
  stops : Stops F
  barMs : ℤ
  /-- Its rule reads one instrument's price. -/
  onePrice : Bool

/-- What became of a wish to change the budget. -/
inductive Wish
  | done
  | waits
  deriving DecidableEq, Repr

variable {F : Type} [FloatOps F]

def ask (o : Op F) : Act F o.Ans := .query o

def state : Act F (State F) := ask .state

def balances : Act F (Option Wallet) := ask .balances

def settle (p : Pending F) (wallet : Wallet) (lastLook : Bool) : Act F Bool := ask (.settle p wallet lastLook)

def swap (sellSol : Bool) (amount atLeast : ℕ) : Act F Sent := ask (.swap sellSol amount atLeast)

def nowMs : Act F ℤ := ask .now

/-- The looks at the wallet after a send. -/
def lookFor (p : Pending F) : ℕ → Act F Bool
  | 0 => pure false
  | n + 1 => do
    match ← balances with
    | none => lookFor p n
    | some wallet =>
      if ← settle p wallet false then
        ask .release
        pure true
      else lookFor p n

/-- Send one swap, held to `atLeast` atoms of its output, and account for it.
`true` when the account changed. -/
def actFor (what : What F) (amount atLeast : ℕ) (ts : ℤ) (close : F) : Act F Bool := do
  match ← balances with
  | none => pure false
  | some (lamports, usdc) =>
    let amount := if what.sellsSol then amount else min amount usdc
    if amount = 0 then pure false
    else
      let p : Pending F := ⟨what, lamports, usdc, ts, close⟩
      ask (.hold p)
      ask .write
      let changed ← (do
        match ← swap what.sellsSol amount atLeast with
        | .notSent =>
          ask .release
          pure false
        | .simulated =>
          ask .release
          pure false
        | .sent => lookFor p 6 : Act F Bool)
      ask .write
      pure changed

/-- A swap left open by the last bar (or by a stop of the program): the wallet
says what it did. Unchanged, it counts as not landed only once its blockhash
has expired; until then it stays open. -/
def reconcile (now : ℤ) : Act F Unit := do
  match (← state).pending with
  | none => pure ()
  | some p =>
    match ← balances with
    | none => pure ()
    | some wallet =>
      if ← settle p wallet (settledAfterMs ≤ now - p.ts) then
        ask .release
        ask .write
      else pure ()

variable (d : Desk F)

/-- Set the budget aside as USDC, once: what the wallet lacks is bought with SOL. -/
def fund (bid : F) (ts : ℤ) : Act F Unit := do
  let s ← state
  if s.funded || s.ended.isSome then pure ()
  else
    match ← balances with
    | none => pure ()
    | some (lamports, usdc) =>
      let have_ : F := lit usdc / lit (10 ^ 6)
      let budget := budgetOf s d.live
      -- all of it, or nearly (what an earlier run left)
      if le (budget * nearly) have_ then
        ask (.set { s with funded := true, account := { s.account with cash := minimum have_ budget } })
      else
        -- a little more than the price says, so that slippage does not leave it short
        let need := toU64 (ceil ((budget - have_) / bid * lit (10 ^ 9) * lit (1003 / 1000)))
        let keep := wrapU64 (d.feeReserve + fundHeadroom)
        if lamports < wrapU64 (need + keep) then pure ()
        else do
          let _ ← actFor .fund need 0 ts bid
          pure ()

/-- Lower the budget: the difference stops being the rule's, if it holds it as USDC. -/
def lower (s : State F) (old to_ : F) : Act F Wish := do
  let cash := s.account.cash
  let back := old - to_
  if lt (cash + lit (1 / 10 ^ 9)) back then pure .waits
  else
    ask (.set { s with account := { s.account with cash := maximum (cash - back) (lit 0) }, budget := some to_ })
    ask .write
    pure .done

/-- Raise the budget: from the USDC the wallet holds beyond the rule's own, and
what it lacks is bought with SOL that is not the rule's. -/
def raise (s : State F) (old to_ bid : F) (ts : ℤ) : Act F Wish := do
  let cash := s.account.cash
  let more := to_ - old
  match ← balances with
  | none => pure .waits
  | some (lamports, usdc) =>
    let free := maximum (lit usdc / lit (10 ^ 6) - cash) (lit 0)
    if le (more * nearly) free then
      let added := minimum more free
      ask (.set { s with account := { s.account with cash := cash + added }, budget := some (old + added) })
      ask .write
      pure .done
    else
      let need := toU64 (ceil ((more - free) / bid * lit (10 ^ 9) * lit (1003 / 1000)))
      let own := toU64 (round (s.account.sol * lit (10 ^ 9)))
      let keep := wrapU64 (wrapU64 (d.feeReserve + fundHeadroom) + own)
      if lamports < wrapU64 (need + keep) then pure .done
      else if ← actFor (.raise to_) need 0 ts bid then pure .done
      else pure .waits

/-- Change the budget by hand to `to` USD, keeping what the run has made or
lost so far as it is. -/
def rebudget (to_ bid : F) (ts : ℤ) : Act F Wish := do
  let s ← state
  if s.ended.isSome then pure .done
  else if !(le minBudgetUsd to_ && le to_ maxBudgetUsd) then pure .done
  else
    -- a raise that was sent and has landed since is seen here
    reconcile ts
    let s ← state
    if s.pending.isSome then pure .waits
    else
      let old := budgetOf s d.live
      if lt (abs (to_ - old)) (lit (5 / 1000)) then pure .done
      else if !s.funded then do
        ask (.set { s with budget := some to_ })
        ask .write
        pure .done
      else if lt to_ old then lower s old to_
      else raise d s old to_ bid ts

/-- Sell every lot the run holds, from the last; the fuel is one more than
the lots. `true` when none is left. -/
def sellAllLoop (ts : ℤ) (close : F) : ℕ → Act F Bool
  | 0 => pure false
  | n + 1 => do
    let s ← state
    match s.account.lots.getLast? with
    | none => pure true
    | some l =>
      if ← actFor (.sell (s.account.lots.length - 1)) (saleAmount l.sol) 0 ts close then sellAllLoop ts close n
      else pure false

def sellAll (ts : ℤ) (close : F) : Act F Bool := do
  let s ← state
  sellAllLoop ts close (s.account.lots.length + 1)

/-- The lots below `n`, highest first: one whose sale is certain to bring its
floor is sold, the swap held to it. -/
def takeGains (take bid : F) (ts : ℤ) (close : F) : ℕ → Act F Unit
  | 0 => pure ()
  | lot + 1 => do
    let s ← state
    if s.pending.isSome then pure () -- nothing on top of an open swap
    else
      match s.account.lots[lot]? with
      | none => pure ()
      | some l =>
        let floor := l.usd * (lit 1 + take)
        if (takePrice l take d.live.slippageBps).any fun at_ => le at_ bid then do
          let _ ← actFor (.sell lot) (saleAmount l.sol) (toU64 (ceil (floor * lit (10 ^ 6)))) ts close
          takeGains take bid ts close lot
        else takeGains take bid ts close lot

/-- The sells a rule wants, in the order given. -/
def ruleSells (ts : ℤ) (close : F) : List ℕ → Act F Unit
  | [] => pure ()
  | lot :: rest => do
    let s ← state
    match s.account.lots[lot]? with
    | none => ruleSells ts close rest
    | some l =>
      ask (.order (.sell lot))
      let _ ← actFor (.sell lot) (saleAmount l.sol) 0 ts close
      ruleSells ts close rest

/-- The buys a rule wants. -/
def ruleBuys (ts : ℤ) (close : F) : List (Order F) → Act F Unit
  | [] => pure ()
  | .sell _ :: rest => ruleBuys ts close rest
  | .buy usd :: rest => do
    let s ← state
    ask (.order (.buy usd))
    let _ ← actFor .buy (toU64 (floor (minimum usd s.account.cash * lit (10 ^ 6)))) 0 ts close
    ruleBuys ts close rest

/-- What the rule wants, sells first, highest lot first. -/
def ruleOrders (bars : List (Bar F)) (ctx : Ctx F) (close : F) (ts : ℤ) : Act F Unit := do
  let s ← state
  -- the total stop is the run's own; a daily pause of the file applies as on paper
  let (wanted, account) := orders d.rule ⟨d.stops.dailyLoss, none⟩ (budgetOf s d.live) s.account bars ctx
  ask (.set { s with account })
  ruleSells ts close ((sellsOf wanted).insertionSort (· ≥ ·))
  ruleBuys ts close wanted

/-- The stop: everything is sold, and the run ends. -/
def stopRun (close : F) (ts : ℤ) : Act F Unit := do
  let s ← state
  ask (.set { s with account := { s.account with frozen := true } })
  if ← sellAll ts close then
    let s ← state
    ask (.set { s with ended := some .stopped })
  else pure ()

/-- The gains that are there, and then what the rule wants. -/
def tradeBar (bars : List (Bar F)) (ctx : Ctx F) (close bid : F) (ts : ℤ) : Act F Unit := do
  let s ← state
  match (actsOf s d.live).takeProfit with
  | none => ruleOrders d bars ctx close ts
  | some take =>
    takeGains d take bid ts close s.account.lots.length
    let s' ← state
    -- what was just sold at a gain is not bought back in the same breath
    if s'.pending.isSome || s.account.trades.length < s'.account.trades.length then pure ()
    else ruleOrders d bars ctx close ts

/-- The close of a bar: the stop first, then what the rule wants. -/
def onBar (bars : List (Bar F)) (ctx : Ctx F) (bid : F) (ts : ℤ) : Act F Unit := do
  match bars.getLast? with
  | none => pure ()
  | some bar =>
    let s ← state
    if s.ended.isSome then pure ()
    else
      reconcile ts
      let s ← state
      if s.pending.isSome then pure () -- nothing on top of an open swap
      else
        fund d bid ts
        let s ← state
        if !s.funded then pure ()
        else
          let equity := s.account.equity bid
          let floor := budgetOf s d.live * (lit 1 - d.live.stopTotalLoss)
          if le equity floor || s.account.frozen then stopRun bar.close ts
          else tradeBar d bars ctx bar.close bid ts

/-- One look of the rule: `onBar`, unless it rests. -/
def look (bars : List (Bar F)) (ctx : Ctx F) (bid ask_ : F) (ts : ℤ) : Act F Unit := do
  let s ← state
  let price := (bars.getLast?.map Bar.close).getD ((bid + ask_) / lit 2)
  if (actsOf s d.live).trigger = .price ∧ s.pending.isNone ∧ (rests s d.live d.barMs price ts).isSome then pure ()
  else onBar d bars ctx bid ts

def sameTake : Option F → Option F → Bool
  | none, none => true
  | some a, some b => eq a b
  | _, _ => false

/-- Change by hand how the run acts. -/
def changeActs (to_ : Acts F) : Act F Unit := do
  let s ← state
  let old := actsOf s d.live
  if (decide (to_.trigger = old.trigger) && sameTake to_.takeProfit old.takeProfit) || s.ended.isSome then pure ()
  else if to_.trigger = .price ∧ d.onePrice = false then pure ()
  else
    ask (.set { s with acts := some to_ })
    ask .write

/-! ### The callers -/

/-- What the program asks of its trader. -/
inductive Call (F : Type)
  /-- The start: an open swap, wishes left while it was stopped, the budget. -/
  | start (toActs : Option (Acts F)) (toBudget : Option F) (bid : F)
  | acts (to_ : Acts F)
  | wish (to_ bid : F)
  /-- A look; between two closes the state is not always written down after it. -/
  | look (bars : List (Bar F)) (ctx : Ctx F) (bid ask : F) (saves : Bool)
  /-- Everything is sold by hand, and the run ends. -/
  | close (bid : F)

def Call.prog : Call F → Act F Unit
  | .start toActs toBudget bid => do
    reconcile (← nowMs)
    match toActs with
    | none => pure ()
    | some to_ => changeActs d to_
    match toBudget with
    | none => pure ()
    | some to_ => do
      let _ ← rebudget d to_ bid (← nowMs)
      pure ()
    let s ← state
    if s.pending.isNone then fund d bid (← nowMs) else pure ()
    ask .write
  | .acts to_ => changeActs d to_
  | .wish to_ bid => do
    let _ ← rebudget d to_ bid (← nowMs)
    ask .write
  | .look bars ctx bid ask_ saves => do
    Lab.look d bars ctx bid ask_ (← nowMs)
    if saves then ask .write else pure ()
  | .close bid => do
    reconcile (← nowMs)
    let s ← state
    if s.pending.isNone then
      if ← sellAll (← nowMs) bid then
        let s ← state
        ask (.set { s with ended := some .closedByHand })
      else pure ()
    else pure ()
    ask .write

end Lab
end MobiusSearcher
