/-
# The account feed

`AccountFeed` of `crates/market/src/feed.rs`: the accounts the chain WebSocket
watches. A message acknowledges a subscription or brings an account; each
account decoded gives a tick for the scheduler, and a sample for the screen and
the records where one is due. The first account of another owner, pair or feed
id disables its watch.

A run is any order of (re)connects, messages and accounts read over RPC. What
each step did is written in its `Step`: the watch whose account came, when,
and what came out. Base64 and the powers in a price are parameters; the
latency book is left out.

Key definitions: `AccountFeed`, `onAccountAt`, `onMessageAt`, `Input`, `Steps`.
Key theorems: `onAccountAt_cases`, `steps_cases`.
-/
import MobiusSearcher.Market.Accounts
import MobiusSearcher.Lib.Run

namespace MobiusSearcher
namespace Market

open FloatOps Amm Machine

/-! ### JSON -/

/-- What a message says. -/
inductive Json
  | null
  | bool (b : Bool)
  | integer (n : ℤ)
  | float (x : Binary64)
  | string (s : String)
  | array (xs : List Json)
  | object (fields : List (String × Json))

namespace Json

def get (key : String) : Json → Option Json
  | .object fields => fields.lookup key
  | _ => none

def at_ (i : ℕ) : Json → Option Json
  | .array xs => xs[i]?
  | _ => none

def asU64 : Json → Option ℕ
  | .integer n => if 0 ≤ n ∧ n < 2 ^ 64 then some n.toNat else none
  | _ => none

def asStr : Json → Option String
  | .string s => some s
  | _ => none

end Json

/-! ### Watches -/

/-- One account the chain feed subscribes to. -/
inductive Watch
  /-- DEX pool: mid price of `base` in `quote`. -/
  | pool (dex : String) (kind : PoolKind) (address : Address) (pair : String) (base quote : Address)
      (baseDecimals quoteDecimals : ℕ)
  /-- Pyth `PriceUpdateV2` account for `feedId`. -/
  | oracle (symbol : String) (address : Address) (feedId : List UInt8)

def Watch.address : Watch → Address
  | .pool _ _ address _ _ _ _ _ => address
  | .oracle _ address _ => address

def Watch.owner : Watch → String
  | .pool _ kind _ _ _ _ _ _ => poolProgram kind
  | .oracle .. => pythReceiverProgram

/-- Source label shown next to the price. -/
def Watch.source : Watch → String
  | .pool dex .. => dex ++ " pool"
  | .oracle .. => "Pyth"

/-- When and against which chain state an account update arrived. -/
structure Receipt where
  received : ℕ
  now : Ts
  /-- Slot of the account state. -/
  slot : Option ℕ
  /-- Chain head seen at receipt. -/
  headSlot : Option ℕ

inductive HotTick
  | pool (watch : ℕ) (dex pair : String) (mid : Binary64) (slot headSlot : Option ℕ) (received : ℕ) (receivedTs : Ts)
  | oracle (symbol : String) (price conf : Binary64) (publishTime : ℤ) (slot : Option ℕ) (received : ℕ) (receivedTs : Ts)

/-- The price a tick brings. -/
def HotTick.price : HotTick → Binary64
  | .pool _ _ _ mid _ _ _ _ => mid
  | .oracle _ price _ _ _ _ _ => price

inductive SampleSide
  | mid
  | oracle
  deriving DecidableEq

structure MarketSample where
  ts : Ts
  pair : String
  price : UsdPrice
  side : SampleSide
  source : String
  sizeAtoms : ℕ

inductive MetricId
  | oraclePrice
  | poolMid
  | poolSpread

inductive Event
  | error (ts : Ts) (service message : String)
  | sample (s : MarketSample)
  | metric (ts : Ts) (metric : MetricId) (value : Binary64)

/-- An account update decoded. -/
structure Reading where
  price : Binary64
  pair : String
  side : SampleSide
  hot : HotTick

/-- `{:?}` of a kind. -/
def kindName : PoolKind → String
  | .whirlpool => "Whirlpool"
  | .raydiumClmm => "RaydiumClmm"
  | .meteoraDlmm => "MeteoraDlmm"

variable (powi : Binary64 → ℤ → Binary64)

/-- The decimals of a pool's two mints. -/
def decimalsOf (base quote : Address) (baseDecimals quoteDecimals : ℕ) (m : Address) : Option ℕ :=
  if m = base then some baseDecimals else if m = quote then some quoteDecimals else none

/-- What an account of watch `i` says, or why it is not the watch's. -/
def Watch.read (w : Watch) (i : ℕ) (owner : String) (data : Bytes) (rx : Receipt) : Except String Reading :=
  if owner ≠ w.owner then .error ("owner " ++ owner ++ " is not " ++ w.owner)
  else match w with
    | .pool dex kind _ pair base quote baseDecimals quoteDecimals =>
      match (decodePool powi kind data (decimalsOf base quote baseDecimals quoteDecimals)).bind (·.priceOf base quote) with
      | some p => .ok ⟨p, pair, .mid, .pool i dex pair p rx.slot rx.headSlot rx.received rx.now⟩
      | none => .error ("not a " ++ pair ++ " " ++ kindName kind ++ " pool")
    | .oracle symbol _ feedId =>
      match decodePythPriceUpdate powi data with
      | some q =>
        if q.feedId = feedId then
          .ok ⟨q.price, symbol, .oracle, .oracle symbol q.price q.conf q.publishTime (some q.postedSlot) rx.received rx.now⟩
        else .error ("feed id is not " ++ symbol)
      | none => .error "not a Pyth price update"

/-! ### Messages -/

/-- What a subscription's acknowledgement says: the id of the request, and the subscription. -/
def ackOf (v : Json) : Option (ℕ × ℕ) :=
  ((v.get "id").bind Json.asU64).bind fun id => ((v.get "result").bind Json.asU64).map fun sub => (id, sub)

/-- The subscription a notification is of. -/
def subscriptionOf (v : Json) : Option ℕ :=
  if (v.get "method").bind Json.asStr = some "accountNotification" then
    ((v.get "params").bind (Json.get "subscription")).bind Json.asU64
  else none

/-- An account that came for a watch. -/
structure Update where
  watch : ℕ
  owner : String
  data : Bytes
  rx : Receipt

/-- The account in a notification for watch `i`. -/
def accountIn (base64 : String → Option Bytes) (i : ℕ) (v : Json) (rx : Receipt) : Option Update :=
  let result := (v.get "params").bind (Json.get "result")
  let slot := rx.slot.or (((result.bind (Json.get "context")).bind (Json.get "slot")).bind Json.asU64)
  let value := result.bind (Json.get "value")
  let owner := ((value.bind (Json.get "owner")).bind Json.asStr).getD ""
  ((((value.bind (Json.get "data")).bind (Json.at_ 0)).bind Json.asStr).bind base64).map fun data =>
    ⟨i, owner, data, { rx with slot }⟩

/-! ### The feed -/

structure WatchState where
  lastEmit : Option Ts
  lastPrice : Option Binary64
  /-- Latest decoded pool mid, emitted or not. -/
  mid : Option (Ts × Binary64)
  disabled : Bool

/-- Pool mids older than this do not count towards the pool spread. -/
def spreadFreshUs : ℤ := 15000000
/-- An unchanged price is emitted again at least this often. -/
def heartbeatUs : ℤ := 5000000
def subIdBase : ℕ := 100

structure AccountFeed where
  watches : List Watch
  state : ℕ → WatchState
  subs : ℕ → Option ℕ
  emitIntervalUs : ℤ
  lastSpread : Option Ts

namespace AccountFeed

/-- Nothing received yet; the interval is in microseconds, read as an `i64`. -/
def new (watches : List Watch) (emitInterval : ℕ) : AccountFeed :=
  ⟨watches, fun _ => ⟨none, none, none, false⟩, fun _ => none, wrapI64 emitInterval, none⟩

/-- `accountSubscribe` requests, id and account; the subscriptions so far are gone. -/
def subscribeRequests (f : AccountFeed) : AccountFeed × List (ℕ × Address) :=
  ({ f with subs := fun _ => none }, f.watches.zipIdx.map fun (w, i) => (subIdBase + i, w.address))

/-- Whether a sample of this price is due. -/
def due (f : AccountFeed) (st : WatchState) (price : Binary64) (now : Ts) : Bool :=
  (st.lastEmit.map fun t => t.since now).all fun d =>
    f.emitIntervalUs ≤ d && (!st.lastPrice.any (eq · price) || heartbeatUs ≤ d)

/-- The fresh mids of the pools of a pair. -/
def mids (f : AccountFeed) (pair : String) (now : Ts) : List Binary64 :=
  f.watches.zipIdx.filterMap fun (w, i) => match w with
    | .pool _ _ _ p _ _ _ _ =>
      if p = pair then ((f.state i).mid.filter fun m => m.1.since now < spreadFreshUs).map Prod.snd else none
    | .oracle .. => none

/-- The mean of the pair's mids and the distance between them. -/
def spread (f : AccountFeed) (pair : String) (now : Ts) : AccountFeed × List Event :=
  let mids := f.mids pair now
  let mean := mids.foldl (· + ·) (lit 0) / lit mids.length
  let lo := mids.foldl minimum (lit ((2 - 1 / 2 ^ 52) * 2 ^ 1023))
  let hi := mids.foldl maximum (lit (-((2 - 1 / 2 ^ 52) * 2 ^ 1023)))
  if mids.isEmpty then (f, [])
  else
    ({ f with lastSpread := some now }, .metric now .poolMid mean ::
      if 2 ≤ mids.length then [.metric now .poolSpread ((hi - lo) / lo * lit 10000)] else [])

/-- The state of a watch with this price decoded. -/
def noted (f : AccountFeed) (st : WatchState) (r : Reading) (now : Ts) : WatchState :=
  let st := { st with mid := if r.side = .mid then some (now, r.price) else st.mid }
  if f.due st r.price now then { st with lastEmit := some now, lastPrice := some r.price } else st

/-- The sample of a price, and the oracle's price again as a metric. -/
def samples (w : Watch) (r : Reading) (now : Ts) : List Event :=
  .sample ⟨now, r.pair, ⟨toU64 (round (r.price * lit 1000000))⟩, r.side, w.source, 0⟩ ::
    if r.side = .oracle ∧ r.pair = "SOL/USD" then [.metric now .oraclePrice r.price] else []

/-- Decode one account update for watch `i`. The first wrong owner, pair or
feed id disables that watch with a single error event. -/
def onAccountAt (f : AccountFeed) (i : ℕ) (owner : String) (data : Bytes) (rx : Receipt) :
    AccountFeed × List Event × Option HotTick :=
  match f.watches[i]? with
  | none => (f, [], none)
  | some w =>
    let st := f.state i
    if st.disabled then (f, [], none)
    else match w.read powi i owner data rx with
      | .error why =>
        ({ f with state := Function.update f.state i { st with disabled := true } },
          [.error rx.now "chain feed" (w.source ++ " disabled: " ++ why)], none)
      | .ok r =>
        let out := if f.due st r.price rx.now then samples w r rx.now else []
        let f' := { f with state := Function.update f.state i (f.noted st r rx.now) }
        if r.side = .mid ∧ f.lastSpread.all fun t => f.emitIntervalUs ≤ t.since rx.now then
          let (f'', spreads) := f'.spread r.pair rx.now
          (f'', out ++ spreads, some r.hot)
        else (f', out, some r.hot)

/-- The watch whose request it was. -/
def watchOf (f : AccountFeed) (id : ℕ) : Option ℕ :=
  if subIdBase ≤ id ∧ id - subIdBase < f.watches.length then some (id - subIdBase) else none

variable (base64 : String → Option Bytes)

/-- The account a notification brings, of the watch its subscription is for. -/
def notice (f : AccountFeed) (v : Json) (rx : Receipt) : Option Update :=
  ((subscriptionOf v).bind f.subs).bind fun i => accountIn base64 i v rx

/-- Handle one WebSocket message: an acknowledgement, or a notification. -/
def onMessageAt (f : AccountFeed) (v : Json) (rx : Receipt) : AccountFeed × List Event × Option HotTick :=
  match ackOf v with
  | some (id, sub) =>
    match f.watchOf id with
    | some i => ({ f with subs := Function.update f.subs sub (some i) }, [], none)
    | none => (f, [], none)
  | none =>
    match f.notice base64 v rx with
    | some u => f.onAccountAt powi u.watch u.owner u.data u.rx
    | none => (f, [], none)

end AccountFeed

/-! ### Runs -/

inductive Input
  /-- The socket is connected again: everything is subscribed anew. -/
  | subscribe
  | message (v : Json) (rx : Receipt)
  /-- An account read over RPC. -/
  | account (i : ℕ) (owner : String) (data : Bytes) (rx : Receipt)

/-- What a step did: whose account came and when, and what came out. -/
structure Step where
  input : Input
  watch : Option ℕ
  now : Ts
  events : List Event
  tick : Option HotTick

variable (base64 : String → Option Bytes)

namespace AccountFeed

/-- The account an input brings. -/
def hears (f : AccountFeed) : Input → Option Update
  | .subscribe => none
  | .message v rx => if (ackOf v).isSome then none else f.notice base64 v rx
  | .account i owner data rx => some ⟨i, owner, data, rx⟩

def take (f : AccountFeed) : Input → AccountFeed × List Event × Option HotTick
  | .subscribe => (f.subscribeRequests.1, [], none)
  | .message v rx => f.onMessageAt powi base64 v rx
  | .account i owner data rx => f.onAccountAt powi i owner data rx

/-- The step an input makes. -/
def stepOf (f : AccountFeed) (input : Input) : Step :=
  let u := f.hears base64 input
  let out := f.take powi base64 input
  ⟨input, u.map Update.watch, (u.map fun u => u.rx.now).getD ⟨0⟩, out.2.1, out.2.2⟩

/-- The inputs taken in order: what they did, and the feed after them. -/
def played (f : AccountFeed) : List Input → List Step × AccountFeed
  | [] => ([], f)
  | input :: rest =>
    let later := (f.take powi base64 input).1.played rest
    (f.stepOf powi base64 input :: later.1, later.2)

end AccountFeed

def Steps (f : AccountFeed) (e : Step) (f' : AccountFeed) : Prop :=
  e = f.stepOf powi base64 e.input ∧ f' = (f.take powi base64 e.input).1

end Market
end MobiusSearcher
