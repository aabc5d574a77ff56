/-
# The lab on paper

`apps/mobius-searcher/src/lab/mod.rs`, `run`: the rules of a file on live
candles, each experiment with a paper account of its own. The program asks the
exchange, the clock and the database, is stopped anywhere, and is started again
with the same file. A candle is booked whole or not at all (`record_lab_bar` of
`crates/storage/src/research.rs`): its fills, its equity and the account after
it.

What the exchange and the clock may answer is bounded: a page of candles reaches
back from the moment asked to what was booked, the clock is past what was booked,
and neither gives a time at the end of an `i64`. Left out: what is printed, and
the rows of other runs.

Key definitions: `Plan`, `Call`, `history`, `bookBar`, `poll`, `run`, `Store`, `Answers`.
-/
import MobiusSearcher.Lab.Paper
import MobiusSearcher.Lab.Warm
import MobiusSearcher.Lib.Machine
import MobiusSearcher.Lib.Prog
import Mathlib.Data.List.Destutter

namespace MobiusSearcher
namespace Lab
namespace Bench

open FloatOps FloatFns Machine

/-! ### The program -/

structure Experiment (F : Type) where
  name : String
  rule : Rule F
  model : Option (Model F)

/-- The length of a bar, in milliseconds. -/
def barOf : String → Option ℤ
  | "1m" => some 60000
  | "5m" => some 300000
  | "15m" => some 900000
  | "30m" => some 1800000
  | "1h" => some 3600000
  | "1H" => some 3600000
  | "4h" => some 14400000
  | "4H" => some 14400000
  | _ => none

/-- A rules file. -/
structure Plan (F : Type) where
  instrument : String
  bar : String
  barMs : ℤ
  bars : barOf bar = some barMs
  capital : F
  costs : Costs F
  stops : Stops F
  experiments : List (Experiment F)
  /-- No two experiments have one name. -/
  names : (experiments.map (·.name)).Nodup

/-- A row of an answer of the exchange, its numbers as they are read. -/
structure Row (F : Type) where
  bar : Bar F
  complete : Bool

/-- A fill as it is stored. -/
structure LabFill (F : Type) where
  ts : ℤ
  barTs : ℤ
  buy : Bool
  price : F
  bid : F
  ask : F
  usd : F
  sol : F
  costUsd : F

/-- What the program asks of the clock, the exchange and the database, and whether to go on. -/
inductive Call (F J : Type)
  | now
  | goesOn
  | page (inst : String) (after : ℤ)
  | ticker
  | begin
  | cached (inst : String) (start : ℤ)
  | keep (inst : String) (bars : List (Bar F))
  | stateOf (experiment : String)
  | record (experiment : String) (bar : Bar F) (fills : List (LabFill F)) (equity solValue : F) (state : J)

def Call.Ans {F J : Type} : Call F J → Type
  | .now => ℤ
  | .goesOn => Bool
  | .page .. => Except String (List (Row F))
  | .ticker => Except String (Option (F × F))
  | .begin => Except String Unit
  | .cached .. => Except String (List (Bar F))
  | .keep .. => Except String Unit
  | .stateOf _ => Except String (Option (ℤ × J))
  | .record .. => Except String Unit

abbrev Script (F J α : Type) := Prog (@Call.Ans F J) α

section Calls

variable {F J : Type}

def ask (o : Call F J) : Script F J o.Ans := .query o

def now : Script F J ℤ := ask .now

def goesOn : Script F J Bool := ask .goesOn

def page (inst : String) (after : ℤ) : Script F J (Except String (List (Row F))) := ask (.page inst after)

def ticker : Script F J (Except String (Option (F × F))) := ask .ticker

def begin : Script F J (Except String Unit) := ask .begin

def cached (inst : String) (start : ℤ) : Script F J (Except String (List (Bar F))) := ask (.cached inst start)

def keep (inst : String) (bars : List (Bar F)) : Script F J (Except String Unit) := ask (.keep inst bars)

def stateOf (experiment : String) : Script F J (Except String (Option (ℤ × J))) := ask (.stateOf experiment)

def record (experiment : String) (bar : Bar F) (fills : List (LabFill F)) (equity solValue : F) (state : J) :
    Script F J (Except String Unit) := ask (.record experiment bar fills equity solValue state)

end Calls

/-- Start of the newest bar. -/
def newest {F : Type} (bars : List (Bar F)) : ℤ := bars.getLast?.elim 0 (·.ts)

/-- What a trained model's other coin is. -/
def modelCoin : String := "BTC-USDT"

section Program

variable {F J : Type} [FloatFns F]

def nan : F := infinity - infinity

/-- Completed candles of an answer, as it gives them (newest first). -/
def candles (rows : List (Row F)) : List (Bar F) :=
  ((rows.filter (·.complete)).map (·.bar)).filter fun b => isFinite b.open_ && isFinite b.close && decide (0 < b.ts)

/-- Oldest first, the first of those that start together. -/
def settled (bars : List (Bar F)) : List (Bar F) :=
  (bars.insertionSort fun a b => a.ts ≤ b.ts).destutter fun a b => a.ts ≠ b.ts

/-- Page by page back; `tries` bounds the pages. -/
def pages (inst : String) (back : ℤ) : ℕ → ℤ → List (Bar F) → Script F J (Except String (List (Bar F)))
  | 0, _, _ => pure (.error "pages")
  | tries + 1, after, out => do
    if after > back then
      match ← page inst after with
      | .error e => pure (.error e)
      | .ok rows =>
        match rows.getLast? with
        | none => pure (.ok out)
        | some oldest => pages inst back tries oldest.bar.ts (out ++ (candles rows).filter (back ≤ ·.ts))
    else pure (.ok out)

/-- Completed candles older than `before` back to `back`, oldest first. -/
def history (tries : ℕ) (inst : String) (before back : ℤ) : Script F J (Except String (List (Bar F))) := do
  match ← pages inst back tries before [] with
  | .error e => pure (.error e)
  | .ok out => pure (.ok (settled out))

/-- For each of `bars`, the close of the bar of `other` that started with it. -/
def beside : List (Bar F) → List (Bar F) → List F
  | [], _ => []
  | b :: bars, other =>
    let rest := other.dropWhile (·.ts < b.ts)
    ((rest.head?.filter (·.ts = b.ts)).elim nan (·.close)) :: beside bars rest

variable (p : Plan F) (read : J → Except String (Account F)) (write : Account F → J) (tries : ℕ)

/-- The longest look back, and four bars. -/
def warmup : ℕ := ((p.experiments.map fun e => e.rule.warmup modelHistory).max?).getD 2 + 4

/-- The other coin a model rule reads, if the plan has one. -/
def otherOf : Option String := if p.experiments.any (·.model.isSome) then some modelCoin else none

/-- What the database lacks at either end. -/
def lacking (inst : String) (start : ℤ) (have_ : List (Bar F)) : Script F J (Except String (List (Bar F))) := do
  match have_.head?, have_.getLast? with
  | some first, some last =>
    let t ← now
    match ← history tries inst t (wrapI64 (last.ts + 1)) with
    | .error e => pure (.error e)
    | .ok later =>
      if first.ts > wrapI64 (start + p.barMs) then
        match ← history tries inst first.ts start with
        | .error e => pure (.error e)
        | .ok earlier => pure (.ok (later ++ earlier))
      else pure (.ok later)
  | _, _ =>
    let t ← now
    history tries inst t start

/-- The candles from `start` on: what the database has, plus what it lacks. -/
def barsSince (inst : String) (start : ℤ) : Script F J (Except String (List (Bar F))) := do
  match ← cached inst start with
  | .error e => pure (.error e)
  | .ok have_ =>
    match ← lacking p tries inst start have_ with
    | .error e => pure (.error e)
    | .ok fetched =>
      match ← keep inst fetched with
      | .error e => pure (.error e)
      | .ok _ => cached inst start

/-- An experiment, the last bar it has seen and its account. -/
structure Desk (F : Type) where
  experiment : Experiment F
  seen : ℤ
  acct : Account F

/-- As it was stored; a new one starts at the last closed bar. -/
def openDesk (bars : List (Bar F)) (e : Experiment F) : Script F J (Except String (Desk F)) := do
  match ← stateOf e.name with
  | .error m => pure (.error m)
  | .ok none => pure (.ok ⟨e, newest bars, Account.new p.capital⟩)
  | .ok (some (ts, json)) =>
    match read json with
    | .error m => pure (.error m)
    | .ok acct => pure (.ok ⟨e, ts, acct⟩)

def openDesks (bars : List (Bar F)) : List (Experiment F) → Script F J (Except String (List (Desk F)))
  | [] => pure (.ok [])
  | e :: es => do
    match ← openDesk p read bars e with
    | .error m => pure (.error m)
    | .ok d =>
      match ← openDesks bars es with
      | .error m => pure (.error m)
      | .ok ds => pure (.ok (d :: ds))

/-- The exchange's best bid and ask now, if it has a usable one. -/
def book : Script F J (Option (F × F)) := do
  match ← ticker with
  | .error _ => pure none
  | .ok none => pure none
  | .ok (some (bid, ask)) => pure (if lt (lit 0) bid && le bid ask then some (bid, ask) else none)

/-- The fills of a bar as they are stored, each with the time it is written at. -/
def fillRows (bar : Bar F) (bid ask : F) : List (Entry F) → Script F J (List (LabFill F))
  | [] => pure []
  | e :: es => do
    let t ← now
    let rest ← fillRows bar bid ask es
    pure (⟨t, bar.ts, e.filled.buy, if e.filled.buy then ask else bid, bid, ask, e.filled.usd, e.filled.sol,
      e.filled.costUsd⟩ :: rest)

/-- One bar of one experiment: decided on with a book, only marked without. -/
def bookBar (e : Experiment F) (acct : Account F) (quote : Option (F × F)) (bar : Bar F) (upTo : List (Bar F))
    (other : List F) : Script F J (Except String (Account F)) := do
  let solValue := acct.sol * bar.close
  match quote with
  | some (bid, ask) =>
    let t ← now
    match step p.costs e.rule p.stops p.capital acct ⟨upTo, ⟨e.model, other, modelHistory⟩, ask, bid, t⟩ with
    | none => pure (.error "no such lot")
    | some (after, done, equity) =>
      let fills ← fillRows bar bid ask done
      match ← record e.name bar fills equity solValue (write after) with
      | .error m => pure (.error m)
      | .ok _ => pure (.ok after)
  | none =>
    match ← record e.name bar [] (acct.equity bar.close) solValue (write acct) with
    | .error m => pure (.error m)
    | .ok _ => pure (.ok acct)

/-- The bars an experiment has not seen; a book is of the last only. -/
def bookBars (bars : List (Bar F)) (other : List F) (quote : Option (F × F)) (last : Bar F) (d : Desk F) :
    List (Bar F × ℕ) → Account F → Script F J (Except String (Account F))
  | [], acct => pure (.ok acct)
  | (bar, i) :: rest, acct => do
    if bar.ts > d.seen then
      match ← bookBar p write d.experiment acct (quote.filter fun _ => bar.ts = last.ts) bar (bars.take (i + 1))
        (other.take (i + 1)) with
      | .error m => pure (.error m)
      | .ok acct => bookBars bars other quote last d rest acct
    else bookBars bars other quote last d rest acct

def bookDesks (bars : List (Bar F)) (other : List F) (quote : Option (F × F)) (last : Bar F) :
    List (Desk F) → Script F J (Except String (List (Desk F)))
  | [] => pure (.ok [])
  | d :: ds => do
    match ← bookBars p write bars other quote last d bars.zipIdx d.acct with
    | .error m => pure (.error m)
    | .ok acct =>
      match ← bookDesks bars other quote last ds with
      | .error m => pure (.error m)
      | .ok ds => pure (.ok (⟨d.experiment, last.ts, acct⟩ :: ds))

/-- What the program remembers between polls. -/
structure Memory (F : Type) where
  bars : List (Bar F)
  other : List (Bar F)
  desks : List (Desk F)

/-- The other coin's bars with the fresh ones; a model without them gives no signal. -/
def otherBars (m : Memory F) : Script F J (Except String (List (Bar F))) :=
  match otherOf p with
  | none => pure (.ok m.other)
  | some inst => do
    let t ← now
    match ← history tries inst t (wrapI64 (newest m.other + 1)) with
    | .error _ => pure (.ok m.other)
    | .ok fresh =>
      match ← keep inst fresh with
      | .error e => pure (.error e)
      | .ok _ => pure (.ok (m.other ++ fresh))

/-- A signal older than this share of a bar is not acted on. -/
def lateShare : F := lit 1 / lit 3

/-- The bar closed not too long before `t`. -/
def onTime (t ts : ℤ) : Bool :=
  le (lit (wrapI64 (t - wrapI64 (ts + p.barMs)) : ℤ) : F) (lit (p.barMs : ℤ) * lateShare)

/-- The bars booked for every experiment, and old ones forgotten. -/
def bookAll (m : Memory F) (bars other : List (Bar F)) (last : Bar F) (quote : Option (F × F)) :
    Script F J (Except String (Memory F)) := do
  match ← bookDesks p write bars (beside bars other) quote last m.desks with
  | .error e => pure (.error e)
  | .ok desks => pure (.ok ⟨drained (warmup p + 8) bars, drained (warmup p + 8) other, desks⟩)

/-- A bar seen too late is booked without a book. -/
def bookFresh (m : Memory F) (bars other : List (Bar F)) (last : Bar F) : Script F J (Except String (Memory F)) := do
  let t ← now
  let quote ← if onTime p t last.ts then book else pure none
  bookAll p write m bars other last quote

/-- Every five seconds: the candles since the newest. -/
def poll (m : Memory F) : Script F J (Except String (Memory F)) := do
  let t ← now
  match ← history tries p.instrument t (wrapI64 (newest m.bars + 1)) with
  | .error _ => pure (.ok m)
  | .ok [] => pure (.ok m)
  | .ok (b :: fresh) =>
    match ← otherBars p tries m with
    | .error e => pure (.error e)
    | .ok other =>
      match ← keep p.instrument (b :: fresh) with
      | .error e => pure (.error e)
      | .ok _ =>
        bookFresh p write m (m.bars ++ b :: fresh) other ((b :: fresh).getLast (List.cons_ne_nil _ _))

/-- Until it is stopped; `polls` bounds how often. -/
def polls : ℕ → Memory F → Script F J Unit
  | 0, _ => pure ()
  | n + 1, m => do
    if ← goesOn then
      match ← poll p write tries m with
      | .error _ => pure ()
      | .ok m => polls n m
    else pure ()

/-- The rules on live prices, on paper. -/
def run (n : ℕ) : Script F J Unit := do
  match ← begin with
  | .error _ => pure ()
  | .ok _ =>
    let t ← now
    let start := wrapI64 (t - wrapI64 (warmup p * p.barMs))
    match ← barsSince p tries p.instrument start with
    | .error _ => pure ()
    | .ok bars =>
      match ← (match otherOf p with
        | some inst => barsSince p tries inst start
        | none => pure (.ok [])) with
      | .error _ => pure ()
      | .ok other =>
        match ← openDesks p read bars p.experiments with
        | .error _ => pure ()
        | .ok desks => polls p write tries n ⟨bars, other, desks⟩

end Program

/-! ### The database -/

/-- A bar that was booked. -/
structure Point (F : Type) where
  ts : ℤ
  close : F
  equity : F
  solValue : F

/-- What is stored of an experiment. -/
structure Rows (F J : Type) where
  equity : List (Point F)
  fills : List (LabFill F)
  state : Option (ℤ × J)

/-- What a program was told: the time, or completed candles of a coin. -/
inductive Heard (F : Type)
  | clock (t : ℤ)
  | candles (inst : String) (bars : List (Bar F))

/-- The rows of each experiment, the candles of each coin, and what the programs were told, the latest first. -/
structure Store (F J : Type) where
  rows : String → Rows F J
  cache : String → List (Bar F)
  log : List (Heard F)

section World

variable {F J : Type}

/-- `INSERT OR REPLACE` of a candle. -/
def insertBar (bars : List (Bar F)) (b : Bar F) : List (Bar F) := bars.filter (·.ts ≠ b.ts) ++ [b]

def Rows.book (r : Rows F J) (bar : Bar F) (fills : List (LabFill F)) (equity solValue : F) (state : J) : Rows F J :=
  ⟨r.equity.filter (·.ts ≠ bar.ts) ++ [⟨bar.ts, bar.close, equity, solValue⟩], r.fills ++ fills, some (bar.ts, state)⟩

def Store.put (w : Store F J) (name : String) (r : Rows F J) : Store F J :=
  { w with rows := Function.update w.rows name r }

def Store.insert (w : Store F J) (inst : String) (bars : List (Bar F)) : Store F J :=
  { w with cache := Function.update w.cache inst (bars.foldl insertBar (w.cache inst)) }

def Store.hear (w : Store F J) (h : Heard F) : Store F J := { w with log := h :: w.log }

/-- A transaction: it is done, or it failed and is done or not. -/
def Commits (w done : Store F J) (r : Except String Unit) (w' : Store F J) : Prop :=
  w' = done ∨ (w' = w ∧ r ≠ .ok ())

/-- Each starts after the one before. -/
def Rising (bars : List (Bar F)) : Prop := bars.Pairwise fun a b => a.ts < b.ts

/-- The time of a candle, and when it closes, fit an `i64`. -/
def Dated (ts : ℤ) : Prop := 0 < ts ∧ ts + 14400000 ≤ i64Max

variable [FloatFns F] (p : Plan F)

/-- A page that came is remembered. -/
def Store.answered (w : Store F J) (inst : String) : Except String (List (Row F)) → Store F J
  | .ok rows => w.hear (.candles inst (candles rows))
  | .error _ => w

/-- Every bar the file's experiments have booked is before `t`. -/
def Past (w : Store F J) (t : ℤ) : Prop := ∀ e ∈ p.experiments, ∀ q ∈ (w.rows e.name).equity, q.ts < t

/-- The candles of an answer to `after` reach back from there: there is one as new as each that was booked before it. -/
def Reaches (w : Store F J) (after : ℤ) (rows : List (Row F)) : Prop :=
  ∀ e ∈ p.experiments, ∀ q ∈ (w.rows e.name).equity, q.ts < after → ∃ b ∈ candles rows, q.ts ≤ b.ts

/-- What the clock, the exchange and the database may answer, and what becomes of them. -/
def Answers (w : Store F J) : (o : Call F J) → o.Ans → Store F J → Prop
  | .now, (t : ℤ), w' => w' = w.hear (.clock t) ∧ (0 ≤ t ∧ t ≤ i64Max) ∧ Past p w t
  | .page inst after, (r : Except String (List (Row F))), w' =>
    w' = w.answered inst r ∧ ∀ rows, r = .ok rows → (∀ b ∈ candles rows, Dated b.ts) ∧
      (rows ≠ [] → inst = p.instrument → Reaches p w after rows)
  | .cached inst start, (r : Except String (List (Bar F))), w' =>
    w' = w ∧ ∀ bars, r = .ok bars → Rising bars ∧ ∀ b, b ∈ bars ↔ b ∈ w.cache inst ∧ start ≤ b.ts
  | .keep inst bars, r, w' => Commits w (w.insert inst bars) r w'
  | .stateOf e, (r : Except String (Option (ℤ × J))), w' => w' = w ∧ ∀ s, r = .ok s → s = (w.rows e).state
  | .record e bar fills equity solValue state, r, w' =>
    Commits w (w.put e ((w.rows e).book bar fills equity solValue state)) r w'
  | .goesOn, _, w' => w' = w
  | .ticker, _, w' => w' = w
  | .begin, _, w' => w' = w

/-- The books are the same; more was heard, and candles were kept. -/
structure Later (w w' : Store F J) : Prop where
  rows : w'.rows = w.rows
  log : w.log <:+ w'.log
  cache : ∀ inst, ∀ b ∈ w.cache inst, ∃ c ∈ w'.cache inst, c.ts = b.ts
  dated : ∀ inst, ∀ c ∈ w'.cache inst, Dated c.ts ∨ ∃ b ∈ w.cache inst, b.ts = c.ts

end World

end Bench
end Lab
end MobiusSearcher
