/-
# Retention

`crates/storage/src/retention.rs`: `prune` deletes sessions by age, then the
old detail rows of those that are left, then sessions until the database is
small enough. A deletion takes up to 5000 rows a statement. `Pass` is the
database on the way, with what it was after each statement so far, so that a
property of every state in between can be stated: an error ends `prune` at a
statement. What `used_bytes` reads is a parameter, one number a reading.

Cut-offs and the size cap are computed unchecked. Left out: the vacuum and
the checkpoint at the end, which change no row.

Key definitions: `Db`, `Pass`, `deleteChunked`, `agePass`, `detailPass`,
`capPass`, `prune`.
-/
import MobiusSearcher.Core.Units
import MobiusSearcher.Lib.Table

namespace MobiusSearcher.Storage

open Machine Table

structure Retention where
  keepDays : ℕ
  keepTradingDays : ℕ
  maxDbMb : ℕ
  deriving DecidableEq, Repr

def Retention.default : Retention := ⟨7, 90, 1024⟩

def dayUs : ℤ := 86400000000
def hourUs : ℤ := 3600000000
def deleteChunk : ℕ := 5000

/-- The tables of per-session rows, but for `sessions` itself. -/
inductive Tbl
  | events | eventBlocks | eventCounts | samples | opportunities | quotes | attribution | legAging | inventory
  | simulations | riskDecisions | executions | trades | pnl | errors | latency | systemMetrics
  deriving DecidableEq, Repr

/-- `TABLES`, in its order; `sessions` comes last. -/
def Tbl.all : List Tbl :=
  [.events, .eventBlocks, .eventCounts, .samples, .opportunities, .quotes, .attribution, .legAging, .inventory,
    .simulations, .riskDecisions, .executions, .trades, .pnl, .errors, .latency, .systemMetrics]

/-- The time column of a table, where its rows are pruned by time. -/
def Tbl.column : Tbl → Option String
  | events => some "ts"
  | eventBlocks => some "t1"
  | eventCounts => none
  | samples => some "ts"
  | opportunities => some "detected_at"
  | quotes => some "ts"
  | attribution => some "ts"
  | legAging => none
  | inventory => none
  | simulations => some "ts"
  | riskDecisions => some "ts"
  | executions => none
  | trades => none
  | pnl => none
  | errors => some "ts"
  | latency => some "ts"
  | systemMetrics => some "ts"

structure SessionRow where
  id : String
  startedAt : ℤ
  endedAt : Option ℤ
  deriving DecidableEq, Repr

/-- A row: its session, its time (of the table's time column, where it has
one), the start of its time span (`t0`, of a block), and the rest. -/
structure DetailRow (ρ : Type*) where
  session : String
  t0 : ℤ
  time : ℤ
  body : ρ
  deriving DecidableEq, Repr

variable {ρ : Type*}

/-- The database. Session ids are a primary key. -/
structure Db (ρ : Type*) where
  sessions : List SessionRow
  rows : Tbl → List (DetailRow ρ)
  nodup : (sessions.map SessionRow.id).Nodup

namespace Db

/-- The rows of a session in a table. -/
def rowsOf (db : Db ρ) (id : String) (t : Tbl) : List (DetailRow ρ) := (db.rows t).filter fun r => r.session = id

/-- A trade or an execution of the session is recorded (`protected`). -/
def isProtected (db : Db ρ) (id : String) : Bool :=
  !(db.rowsOf id .trades).isEmpty || !(db.rowsOf id .executions).isEmpty

/-- First and last event time of a session. -/
def sessionSpan (db : Db ρ) (id : String) : Option ℤ × Option ℤ :=
  let ts := (db.rowsOf id .eventBlocks).map DetailRow.t0 ++ (db.rowsOf id .eventBlocks).map DetailRow.time ++
    (db.rowsOf id .events).map DetailRow.time
  (ts.min?, ts.max?)

/-- A session's last activity: its end or its start, or its newest event. -/
def lastActivity (db : Db ρ) (s : SessionRow) : ℤ :=
  match (db.sessionSpan s.id).2 with
  | some t => max (s.endedAt.getD s.startedAt) t
  | none => s.endedAt.getD s.startedAt

/-- Sessions oldest first. -/
def byStart (db : Db ρ) : List SessionRow := db.sessions.insertionSort fun a b => a.startedAt ≤ b.startedAt

/-- Sessions oldest first: id, last activity, still open. -/
def sessionsByAge (db : Db ρ) : List (String × ℤ × Bool) :=
  db.byStart.map fun s => (s.id, db.lastActivity s, s.endedAt.isNone)

def setRows (db : Db ρ) (t : Tbl) (l : List (DetailRow ρ)) : Db ρ := { db with rows := Function.update db.rows t l }

def dropSession (db : Db ρ) (id : String) : Db ρ where
  sessions := db.sessions.filter fun s => s.id ≠ id
  rows := db.rows
  nodup := db.nodup.sublist (List.filter_sublist.map _)

end Db

/-- Which rows a deletion is about. -/
inductive Cond
  | ofSession (id : String)
  | before (id : String) (cutoff : ℤ)
  deriving DecidableEq, Repr

def Cond.holds : Cond → DetailRow ρ → Bool
  | ofSession id, r => r.session = id
  | before id cutoff, r => r.session = id && r.time < cutoff

/-- The database, what it was after each statement (newest first), and how
many times its size was read. -/
structure Pass (ρ : Type*) where
  db : Db ρ
  seen : List (Db ρ)
  reads : ℕ

namespace Pass

/-- Every state so far. -/
def states (p : Pass ρ) : List (Db ρ) := p.db :: p.seen

/-- One statement. -/
def execute (p : Pass ρ) (db : Db ρ) : Pass ρ := { p with db, seen := db :: p.seen }

/-- Deletes the rows that meet the condition, some at a time; how many it deleted. -/
def deleteChunked (t : Tbl) (cond : Cond) (p : Pass ρ) : Pass ρ × ℕ :=
  let n := min deleteChunk ((p.db.rows t).countP cond.holds)
  let p' := p.execute (p.db.setRows t (dropFirst cond.holds deleteChunk (p.db.rows t)))
  if n < deleteChunk then (p', n)
  else
    let q := deleteChunked t cond p'
    (q.1, n + q.2)
  termination_by (p.db.rows t).countP cond.holds
  decreasing_by
    simp only [execute, Db.setRows, Function.update_self, countP_dropFirst, deleteChunk] at *
    omega

/-- Delete a session and all its rows. -/
def deleteSession (id : String) (p : Pass ρ) : Pass ρ :=
  let p := Tbl.all.foldl (fun p t => (deleteChunked t (.ofSession id) p).1) p
  p.execute (p.db.dropSession id)

/-- A reading of the size. -/
def usedBytes (used : ℕ → ℕ) (p : Pass ρ) : ℕ × Pass ρ := (used p.reads, { p with reads := p.reads + 1 })

end Pass

/-- A session that the first pass leaves: whether it has a trade or an execution, and whether it is running. -/
structure Kept where
  id : String
  isProtected : Bool
  running : Bool
  deriving DecidableEq, Repr

structure PruneReport where
  sessionsDeleted : List String
  detailRowsDeleted : ℕ
  bytesBefore : ℕ
  bytesAfter : ℕ
  deriving DecidableEq, Repr

section Prune

variable (r : Retention) (used : ℕ → ℕ) (now : Ts) (current : Option String)

def Retention.cutoff : ℤ := wrapI64 (now.micros - wrapI64 (r.keepDays * dayUs))

def Retention.tradingCutoff : ℤ := wrapI64 (now.micros - wrapI64 (r.keepTradingDays * dayUs))

/-- The session being recorded, or an open one with activity in the last hour. -/
def isRunning (id : String) (last : ℤ) (isOpen : Bool) : Bool :=
  current = some id || isOpen && wrapI64 (now.micros - last) < hourUs

/-- Deletes the sessions that are too old: the ids deleted, and those kept. -/
def agePass : List (String × ℤ × Bool) → Pass ρ → Pass ρ × List String × List Kept
  | [], p => (p, [], [])
  | (id, last, isOpen) :: l, p =>
    let isProtected := p.db.isProtected id
    let limit := if isProtected then r.tradingCutoff now else r.cutoff now
    let running := isRunning now current id last isOpen
    if !running && last < limit then
      let q := agePass l (p.deleteSession id)
      (q.1, id :: q.2.1, q.2.2)
    else
      let q := agePass l p
      (q.1, q.2.1, ⟨id, isProtected, running⟩ :: q.2.2)

/-- Drops the rows of a session that are older than the cut-off, table by table. -/
def dropDetail (id : String) : List Tbl → Pass ρ → Pass ρ × ℕ
  | [], p => (p, 0)
  | t :: ts, p =>
    match t.column with
    | none => dropDetail id ts p
    | some _ =>
      let d := p.deleteChunked t (.before id (r.cutoff now))
      let q := dropDetail id ts d.1
      (q.1, d.2 + q.2)

/-- Long-running sessions: drops detail older than the cut-off. -/
def detailPass : List Kept → Pass ρ → Pass ρ × ℕ
  | [], p => (p, 0)
  | k :: ks, p =>
    if k.isProtected then detailPass ks p
    else
      let d := dropDetail r now k.id Tbl.all p
      let q := detailPass ks d.1
      (q.1, d.2 + q.2)

/-- Size cap: oldest unprotected sessions first. -/
def capPass : List Kept → Pass ρ → Pass ρ × List String
  | [], p => (p, [])
  | k :: ks, p =>
    let u := p.usedBytes used
    if u.1 ≤ wrapU64 (r.maxDbMb * 1000000) then (u.2, [])
    else if !k.isProtected && !k.running then
      let q := capPass ks (u.2.deleteSession k.id)
      (q.1, k.id :: q.2)
    else capPass ks u.2

/-- Applies the retention: the report, and what the database was after each statement, newest first. -/
def prune (db : Db ρ) : PruneReport × Pass ρ :=
  let start := Pass.usedBytes used ⟨db, [], 0⟩
  let aged := agePass r now current db.sessionsByAge start.2
  let detail := detailPass r now aged.2.2 aged.1
  let capped := capPass r used aged.2.2 detail.1
  let stop := capped.1.usedBytes used
  (⟨aged.2.1 ++ capped.2, detail.2, start.1, stop.1⟩, stop.2)

end Prune

end MobiusSearcher.Storage
