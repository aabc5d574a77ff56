/-
# One rule with real money: its state

The data of `apps/mobius-searcher/src/lab/trade.rs`: what a run keeps
(`State`), what a swap that was sent did, read from the wallet
(`State.settle`), and the prices at which a gain is taken or a rule rests
(`takePrice`, `rests`).

Amounts are lamports and USDC atoms; the account is in floats, as the source
has it. What a run says in its journal is left out, and so is why it ended
beyond who ended it.

Key definitions: `Live`, `State`, `Pending`, `State.settle`, `takePrice`, `rests`.
-/
import MobiusSearcher.Lab.Rules
import MobiusSearcher.Lib.Machine

namespace MobiusSearcher
namespace Lab

open FloatOps

variable {F : Type} [FloatOps F]

def maxBudgetUsd : F := lit 25
def minBudgetUsd : F := lit 1

def maxPriorityFee : ℕ := 7000
def maxTip : ℕ := 4000

/-- Lamports of a sold lot kept back to pay for the sale (signature, priority
fee, tip): a sale never spends SOL the run did not buy. -/
def sellHoldback : ℕ := 5000 + maxPriorityFee + maxTip

/-- The share of the budget that, found in the wallet as USDC, is taken as the budget. -/
def nearly : F := lit (95 / 100)

/-- A swap sent this long ago, ms, can no longer land. -/
def settledAfterMs : ℤ := 120000

/-- SOL the wallet must keep beyond its fee reserve when the budget is set aside. -/
def fundHeadroom : ℕ := 3000000

/-- When a rule with real money acts. -/
inductive Trigger
  /-- At the close of each bar. -/
  | close
  /-- As soon as the price is where the rule would act if the bar closed now. -/
  | price
  deriving DecidableEq, Repr

structure Acts (F : Type) where
  trigger : Trigger
  takeProfit : Option F

structure Live (F : Type) where
  /-- USD the rule may use, set aside as USDC once. -/
  budgetUsd : F
  /-- Share of the budget: down this much, everything is sold and the run ends. -/
  stopTotalLoss : F
  slippageBps : ℕ
  trigger : Trigger
  /-- A gain that is there is taken. -/
  takeProfit : Option F

/-- What became of a swap. -/
inductive Sent
  /-- Nothing was sent. -/
  | notSent
  /-- A dry run: built and simulated, neither signed nor sent. -/
  | simulated
  /-- Sent. Whether it landed is read from the wallet. -/
  | sent
  deriving DecidableEq, Repr

inductive What (F : Type)
  /-- Setting the budget aside: SOL into USDC. -/
  | fund
  | buy
  | sell (lot : ℕ)
  /-- Raising the budget by hand to this many USD. -/
  | raise (to_ : F)

/-- Whether the swap sells SOL. -/
def What.sellsSol : What F → Bool
  | .buy => false
  | _ => true

/-- A swap that was sent: the wallet before it, to tell what it did. -/
structure Pending (F : Type) where
  what : What F
  lamports : ℕ
  usdc : ℕ
  ts : ℤ
  close : F

/-- Who ended a run. -/
inductive End
  | stopped
  | closedByHand
  deriving DecidableEq, Repr

structure State (F : Type) where
  account : Account F
  /-- The budget has been set aside as USDC. -/
  funded : Bool
  ended : Option End
  pending : Option (Pending F)
  /-- The budget, once it was changed by hand. -/
  budget : Option F
  /-- How it acts, once that was changed by hand. -/
  acts : Option (Acts F)

def State.default : State F := ⟨.empty, false, none, none, none, none⟩

/-- The wallet's lamports and USDC atoms. -/
abbrev Wallet := ℕ × ℕ

/-- USD the run may use: the file's, unless it was changed by hand since. -/
def budgetOf (s : State F) (live : Live F) : F := s.budget.getD live.budgetUsd

/-- How the run acts: as the file says, unless it was changed by hand since. -/
def actsOf (s : State F) (live : Live F) : Acts F := s.acts.getD ⟨live.trigger, live.takeProfit⟩

/-- Lamports of a lot that a sale sells. -/
def saleAmount (sol : F) : ℕ := toU64 (round (sol * lit (10 ^ 9))) - sellHoldback

/-- The price of a SOL at which the lot's gain is taken: the sale then brings
its floor even at the swap's on-chain minimum. -/
def takePrice (lot : Lot F) (takeProfit : F) (slippageBps : ℕ) : Option F :=
  let sold : F := lit (saleAmount lot.sol) / lit (10 ^ 9)
  let least : F := lit 1 - lit slippageBps / lit 10000
  if lt (lit 0) sold && lt (lit 0) least then some (lot.usd * (lit 1 + takeProfit) / (sold * least)) else none

/-- A rule that acts on the price does not buy back at once what it has just
sold: until when, and under which price it would. -/
def rests (s : State F) (live : Live F) (barMs : ℤ) (price : F) (ts : ℤ) : Option (ℤ × Option F) :=
  match s.account.trades.getLast? with
  | none => none
  | some sale =>
    if s.account.lots.isEmpty && ts < sale.closed + barMs then
      let until_ := sale.closed + barMs
      if lt sale.net (lit 0) then some (until_, none)
      else
        match s.account.reference with
        | none => none
        | some soldAt =>
          let take := (actsOf s live).takeProfit.getD (lit 0)
          let under := soldAt * (lit 1 - lit live.slippageBps / lit 10000) / (lit 1 + take)
          if le under price then some (until_, some under) else none
    else none

/-- What a sent swap did, from the wallet now against the wallet before. The
flag: accounted for (it landed, or it is certain it did not). -/
def State.settle (s : State F) (live : Live F) (p : Pending F) (wallet : Wallet) (lastLook : Bool) : State F × Bool :=
  let dSol : ℤ := wallet.1 - p.lamports
  let dUsdc : ℤ := wallet.2 - p.usdc
  match p.what with
  | .fund =>
    if 0 < dUsdc then
      ({ s with
        funded := true
        account := { s.account with cash := minimum (budgetOf s live) (lit wallet.2 / lit (10 ^ 6)) } }, true)
    else (s, lastLook)
  | .buy =>
    if dUsdc < 0 ∧ 0 < dSol then
      ({ s with account := s.account.bought (lit (-dUsdc) / lit (10 ^ 6)) (lit dSol / lit (10 ^ 9)) p.ts p.close }, true)
    else (s, lastLook)
  | .sell lot =>
    if 0 < dUsdc ∧ lot < s.account.lots.length then
      ({ s with account := s.account.sold lot (lit dUsdc / lit (10 ^ 6)) p.ts p.close }, true)
    else (s, lastLook)
  | .raise to_ =>
    if 0 < dUsdc then
      let old := budgetOf s live
      -- what the wallet holds beyond the rule's own USDC is what it can be given: never more
      let free := maximum (lit wallet.2 / lit (10 ^ 6) - s.account.cash) (lit 0)
      let added := maximum (minimum (to_ - old) free) (lit 0)
      ({ s with account := { s.account with cash := s.account.cash + added }, budget := some (old + added) }, true)
    else (s, lastLook)

end Lab
end MobiusSearcher
