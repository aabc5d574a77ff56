/-
# The event log

`crates/storage/src/store.rs`: what is written to the log and how it is kept.
`write_batch` thins the events and writes a row for each that is left;
`compact` moves rows into compressed blocks of up to 1024; `load_events`
reads the blocks, then the rows. A table is kept per session, as the list of
its rows in the order they were written. A transaction that does not commit
leaves the tables as they were, but not the thinning state, which is memory.

The text of an event and the compression are parameters (`Codec`). Sequence
numbers are `u64`, stored as `i64`. Clock differences wrap at 64 bits. Left
out: the analysis tables, the counts of events and the raw quotes held back.

Key definitions: `Event`, `Thinning.keep`, `Store.writeBatch`, `Store.compact`,
`Store.loadEvents`, `Op`, `Store.apply`.
-/
import MobiusSearcher.Core.Units
import MobiusSearcher.Lib.Table
import Mathlib.Data.UInt

namespace MobiusSearcher.Storage

open Machine Table

def blockEvents : ℕ := 1024
def blockMaxAgeUs : ℤ := 60000000
def compactMaxRows : ℕ := 64 * blockEvents
def metricEveryUs : ℤ := 1000000
def healthEveryUs : ℤ := 5000000

/-! ### Events -/

inductive MetricId
  | price | spread | grossEdge | netEdge | pnl | equity | jupiterLatency | rpcLatency | simLatency
  | bundleLatency | computeUnits | jitoTip | slippage | oraclePrice | poolMid | poolSpread | priorityFee
  | networkTps
  deriving DecidableEq, Repr

inductive ServiceId
  | jupiter | rpc | webSocket | jito | db | marketFeed
  deriving DecidableEq, Repr

inductive ServiceState
  | idle | ok | degraded | rateLimited | down | disabled
  deriving DecidableEq, Repr

/-- The state as it is written (`jstr`). -/
def ServiceState.jstr : ServiceState → String
  | idle => "idle"
  | ok => "ok"
  | degraded => "degraded"
  | rateLimited => "rate_limited"
  | down => "down"
  | disabled => "disabled"

/-- The kinds of events that are never thinned. -/
inductive Kind
  | session | slot | blockHeight | sample | opportunity | stage | simulation | risk | execution | trade
  | rateLimited | error | killSwitch | tipFloor | network | equity | thresholds | inventory | log | rawQuote
  deriving DecidableEq, Repr

def Kind.label : Kind → String
  | session => "session"
  | slot => "slot"
  | blockHeight => "block_height"
  | sample => "sample"
  | opportunity => "opportunity"
  | stage => "stage"
  | simulation => "simulation"
  | risk => "risk"
  | execution => "execution"
  | trade => "trade"
  | rateLimited => "rate_limited"
  | error => "error"
  | killSwitch => "kill_switch"
  | tipFloor => "tip_floor"
  | network => "network"
  | equity => "equity"
  | thresholds => "thresholds"
  | inventory => "inventory"
  | log => "log"
  | rawQuote => "raw_quote"

/-- An event: a metric, a health snapshot, or one of the kinds that are all
kept, with its time. What else it carries is a `φ` or a `δ`. -/
inductive Event (φ δ : Type*)
  | metric (ts : Ts) (metric : MetricId) (value : φ)
  | health (ts : Ts) (service : ServiceId) (state : ServiceState) (snapshot : δ)
  | other (kind : Kind) (ts : Ts) (data : δ)
  deriving DecidableEq, Repr

variable {φ δ β : Type*}

namespace Event

def ts : Event φ δ → Ts
  | metric ts _ _ | health ts _ _ _ | other _ ts _ => ts

def kind : Event φ δ → String
  | metric .. => "metric"
  | health .. => "health"
  | other k _ _ => k.label

end Event

/-! ### Thinning -/

/-- When each metric and each service's health was last kept. -/
structure Thinning where
  metric : MetricId → Option Ts
  health : ServiceId → Option (Ts × String)

namespace Thinning

def default : Thinning := ⟨fun _ => none, fun _ => none⟩

/-- `(a - b).abs() >= every`, at 64 bits: the absolute value of the least
`i64` is itself. -/
def apart (a b : Ts) (every : ℤ) : Bool := every ≤ wrapI64 |wrapI64 (a.micros - b.micros)|

/-- Whether the event goes into the log. -/
def keep (thin : Thinning) : Event φ δ → Bool × Thinning
  | .metric ts metric _ =>
    if metric = .pnl ∨ metric = .equity then (true, thin)
    else
      let keep := (thin.metric metric).all fun t => apart ts t metricEveryUs
      (keep, if keep then { thin with metric := Function.update thin.metric metric (some ts) } else thin)
  | .health ts service state _ =>
    let keep := (thin.health service).all fun p => p.2 != state.jstr || apart ts p.1 healthEveryUs
    (keep, if keep then { thin with health := Function.update thin.health service (some (ts, state.jstr)) } else thin)
  | .other .. => (true, thin)

/-- The events of a batch that thinning leaves. -/
def kept : Thinning → List (UInt64 × Event φ δ) → List (UInt64 × Event φ δ)
  | _, [] => []
  | thin, p :: batch =>
    if (thin.keep p.2).1 then p :: kept (thin.keep p.2).2 batch else kept (thin.keep p.2).2 batch

end Thinning

/-! ### Tables -/

/-- A row of `events`. -/
structure Row where
  seq : ℤ
  ts : ℤ
  kind : String
  json : List Char
  deriving DecidableEq, Repr

/-- A row of `event_blocks`. -/
structure Block (β : Type*) where
  firstSeq : ℤ
  lastSeq : ℤ
  t0 : ℤ
  t1 : ℤ
  n : ℕ
  rawBytes : ℕ
  data : β
  deriving Repr

/-- How an event is written as text and read, and text compressed and read back. -/
structure Codec (φ δ β : Type*) where
  toJson : Event φ δ → List Char
  fromJson : List Char → Option (Event φ δ)
  deflate : List Char → β
  inflate : β → Option (List Char)

inductive StoreError
  | sql
  | noSession (id : String)
  | io
  deriving DecidableEq, Repr

/-- The tables the log is in, by session, and the thinning state. -/
structure Store (β : Type*) where
  sessions : List String
  events : String → List Row
  blocks : String → List (Block β)
  thin : Thinning

namespace Store

/-- A store opened on a new file. -/
def new : Store β := ⟨[], fun _ => [], fun _ => [], .default⟩

def beginSession (s : Store β) (id : String) : Store β :=
  { s with thin := .default, sessions := if id ∈ s.sessions then s.sessions else s.sessions ++ [id] }

/-- The store opened again: the tables are on disk. -/
def reopen (s : Store β) : Store β := { s with thin := .default }

variable (c : Codec φ δ β)

/-- The row of an event, `seq as i64`. -/
def row (seq : UInt64) (e : Event φ δ) : Row := ⟨wrapI64 seq.toNat, e.ts.micros, e.kind, c.toJson e⟩

/-- What the database does with a batch: whether the transaction begins,
whether it takes the statements of an event, and whether it commits. -/
structure Disk where
  begins : Bool
  takes : UInt64 → Bool
  commits : Bool

/-- The rows of a batch, one by one: `none` at the first that is refused. A
row of a session that is not in `sessions` is. -/
def writeRows (known : Bool) (takes : UInt64 → Bool) :
    Thinning → List Row → List (UInt64 × Event φ δ) → Thinning × Option (List Row)
  | thin, rows, [] => (thin, some rows)
  | thin, rows, p :: batch =>
    if (thin.keep p.2).1 then
      if known && takes p.1 then writeRows known takes (thin.keep p.2).2 (put Row.seq rows (row c p.1 p.2)) batch
      else ((thin.keep p.2).2, none)
    else writeRows known takes (thin.keep p.2).2 rows batch

def writeBatch (s : Store β) (session : String) (batch : List (UInt64 × Event φ δ)) (disk : Disk) :
    Store β × Except StoreError Unit :=
  if disk.begins then
    match writeRows c (session ∈ s.sessions) disk.takes s.thin (s.events session) batch with
    | (thin, some rows) =>
      if disk.commits then ({ s with thin, events := Function.update s.events session rows }, .ok ())
      else ({ s with thin }, .error .sql)
    | (thin, none) => ({ s with thin }, .error .sql)
  else (s, .error .sql)

/-- The block of a chunk of rows: their texts as lines, compressed. -/
def block (chunk : Chunk Row) : Block β :=
  let text := List.intercalate ['\n'] (chunk.rows.map Row.json)
  { firstSeq := chunk.first.seq
    lastSeq := chunk.last.seq
    t0 := (chunk.more.map Row.ts).foldl min chunk.first.ts
    t1 := (chunk.more.map Row.ts).foldl max chunk.first.ts
    n := chunk.rows.length
    rawBytes := (text.map Char.utf8Size).sum
    data := c.deflate text }

/-- How many rows a compaction takes: full blocks, or everything once the
oldest row is a minute old or when forced. -/
def compactTake (rows : List Row) (now : Ts) (force : Bool) : ℕ :=
  let n := rows.length
  let oldest := (rows.map Row.ts).min?
  let stale := oldest.any fun t => blockMaxAgeUs ≤ wrapI64 (now.micros - t)
  min (if force || stale then n else n / blockEvents * blockEvents) compactMaxRows

/-- Moves the oldest rows into blocks, in one transaction. -/
def compact (s : Store β) (session : String) (now : Ts) (force commits : Bool) :
    Store β × Except StoreError ℕ :=
  let take := compactTake (s.events session) now force
  let rows := (ordered Row.seq (s.events session)).take take
  match rows.getLast? with
  | none => (s, .ok 0) -- nothing to take
  | some last =>
    if commits then
      ({ s with
          blocks := Function.update s.blocks session
            (((chunks blockEvents rows).map (block c)).foldl (put Block.firstSeq) (s.blocks session))
          events := Function.update s.events session (above Row.seq last.seq (s.events session)) },
        .ok rows.length)
    else (s, .error .sql)

/-- All recorded events of a session: the blocks, then the rows. A text that
is no event is skipped. -/
def loadEvents (s : Store β) (id : String) : Except StoreError (List (Event φ δ)) :=
  if id ∈ s.sessions then
    match (ordered Block.firstSeq (s.blocks id)).mapM fun b => c.inflate b.data with
    | none => .error .io
    | some texts =>
      .ok (texts.flatMap (fun text => (text.splitOn '\n').filterMap c.fromJson) ++
        (ordered Row.seq (s.events id)).filterMap fun r => c.fromJson r.json)
  else .error (.noSession id)

end Store

/-! ### Runs -/

/-- What is called, with what the database answers. `load_events` changes nothing. -/
inductive Op (φ δ : Type*)
  | beginSession (id : String)
  | reopen
  | writeBatch (session : String) (batch : List (UInt64 × Event φ δ)) (disk : Store.Disk)
  | compact (session : String) (now : Ts) (force commits : Bool)

namespace Store

variable (c : Codec φ δ β)

def apply (s : Store β) : Op φ δ → Store β
  | .beginSession id => s.beginSession id
  | .reopen => s.reopen
  | .writeBatch session batch disk => (s.writeBatch c session batch disk).1
  | .compact session now force commits => (s.compact c session now force commits).1

/-- The store after the calls `ops`. -/
def after (s : Store β) (ops : List (Op φ δ)) : Store β := ops.foldl (apply c) s

/-- What a call adds to the log of `session`: the events of a batch that was
written, but those that thinning drops. -/
def wrote (s : Store β) (session : String) : Op φ δ → List (UInt64 × Event φ δ)
  | .writeBatch target batch disk =>
    if target = session ∧ (s.writeBatch c target batch disk).2.isOk then s.thin.kept batch else []
  | .beginSession _ | .reopen | .compact .. => []

/-- What the calls `ops`, from the store `s`, add to the log of `session`. -/
def journal (s : Store β) (session : String) : List (Op φ δ) → List (UInt64 × Event φ δ)
  | [] => []
  | op :: ops => s.wrote c session op ++ journal (s.apply c op) session ops

end Store

/-- The sequence numbers a call offers for `session`. -/
def Op.offered (session : String) : Op φ δ → List UInt64
  | .writeBatch target batch _ => if target = session then batch.map Prod.fst else []
  | .beginSession _ | .reopen | .compact .. => []

end MobiusSearcher.Storage
