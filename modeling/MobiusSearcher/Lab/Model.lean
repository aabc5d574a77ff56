/-
# A trained model

`apps/mobius-searcher/src/lab/model.rs`: the features at the close of the last
candle, from the candles and the other coin's closes (`features`), the
probability a model gives to a rise (`Trained.probability`, none where an index
of a malformed file is out of range), and whether it wants in (`Trained.signal`).

What is read of a file and only checked or shown (the names of the features) is
left out; the day the training data ends is its year, month and day as read.

Key definitions: `features`, `Trained`, `Trained.signal`, `Trained.toModel`.
-/
import MobiusSearcher.Lab.Rules

namespace MobiusSearcher
namespace Lab

open FloatOps FloatFns

/-- The last `k`, or all when there are fewer. -/
def recent {α : Type} (k : ℕ) (xs : List α) : List α := xs.drop (xs.length - k)

/-- Bars of history the features look back over. -/
def modelHistory : ℕ := 673

def lookbacks : List ℕ := [1, 4, 16, 96, 288, 672]

structure Tree (F : Type) where
  /-- Per level, per node of that level: the feature and the bin a row must be
  above to go right. -/
  splits : List (List (Option (ℕ × ℕ)))
  leaves : List F

inductive Fitted (F : Type)
  | logit (mean sd weights : List F)
  /-- The edges of each feature are in order. -/
  | trees (base : F) (edges : List (List F)) (trees : List (Tree F))

structure Trained (F : Type) where
  /-- Day (UTC) the training data ends: year, month and day. -/
  trainedTo : ℤ × ℤ × ℤ
  /-- The first bar it was not trained on, when the file says it to the bar. -/
  unseenFromMs : Option ℤ
  /-- Bars a position is held after the last signal. -/
  horizonBars : ℕ
  /-- In when the probability of a rise is at least this. -/
  threshold : F
  model : Fitted F

variable {F : Type} [FloatFns F]

/-! ### Features -/

def total (xs : List F) : F := xs.foldl (fun s x => s + x) (lit 0)

def meanOf (xs : List F) (n : ℕ) : F := total xs / lit n

/-- Deviation around the mean; `ddof` 1 for a sample, 0 for the values themselves. -/
def sdOf (xs : List F) (ddof : ℕ) : F :=
  let m := meanOf xs xs.length
  sqrt (total (xs.map fun v => (v - m) * (v - m)) / lit (xs.length - ddof : ℕ))

/-- One-bar returns. -/
def returns (closes : List F) : List F := (closes.zip closes.tail).map fun (a, b) => ln (b / a)

/-- The return over the last `k` of a full history, in deviations. -/
def back (closes : List F) (k : ℕ) (dev : F) : F :=
  ln (closes.getD (modelHistory - 1) (lit 0) / closes.getD (modelHistory - 1 - k) (lit 0)) / (dev * sqrt (lit k))

/-- How far the last close is over the mean of the last `k`, in their deviations. -/
def zOver (closes : List F) (close : F) (k : ℕ) : F :=
  (close - meanOf (recent k closes) k) / sdOf (recent k closes) 0

/-- Where the last close is in the range of the last `k` bars. -/
def rangeAt (bars : List (Bar F)) (close : F) (k : ℕ) : F :=
  let lo := ((recent k bars).map Bar.low).foldl minimum f64Max
  let hi := ((recent k bars).map Bar.high).foldl maximum f64Min
  (close - lo) / (hi - lo)

def volumeOver (bars : List (Bar F)) (k : ℕ) : F := meanOf ((recent k bars).map Bar.volume) k

/-- The hour of the day and the day of the week, with their fractions. -/
def hourOf (ts : ℤ) : F :=
  lit ((ts / 3600000).tmod 24) + lit ((ts / 900000).tmod 4) / lit 4

def dayOf (ts : ℤ) : F := lit ((ts / 86400000 + 4).tmod 7) + hourOf ts / lit 24

/-- The features of a full history that ends with `last`. -/
def featuresOf (bars : List (Bar F)) (btc : List F) (last : Bar F) : List F :=
  let c := bars.map Bar.close
  let r := returns c
  let dev := sdOf r 1
  let devBtc := sdOf (returns btc) 1
  let span := last.high - last.low + lit (1 / 1000000000000)
  let turn : F := lit (6283185307179586 / 1000000000000000)
  lookbacks.map (fun k => back c k dev) ++
  [96, 288, 672].map (zOver c last.close) ++
  [96, 672].map (rangeAt bars last.close) ++
  [sdOf (recent 16 r) 1 / dev,
   ln (volumeOver bars 4 / volumeOver bars 672),
   ln ((last.volume + lit (1 / 1000000000)) / volumeOver bars 96),
   (last.close - last.open_) / span,
   (last.high - maximum last.close last.open_) / span] ++
  [1, 4, 96].map (fun k => back btc k devBtc) ++
  [back c 4 dev - back btc 4 devBtc,
   back c 96 dev - back btc 96 devBtc,
   sin (turn * hourOf last.ts / lit 24), cos (turn * hourOf last.ts / lit 24),
   sin (turn * dayOf last.ts / lit 7), cos (turn * dayOf last.ts / lit 7),
   lit (min (r.reverse.takeWhile fun x => lt x (lit 0)).length 8 : ℕ) / lit 8]

/-- The features at the close of the last of `bars`; `btc` holds the other coin's closes
for the same bars. None without enough history. -/
def features (bars : List (Bar F)) (btc : List F) : Option (List F) :=
  if bars.length < modelHistory ∨ btc.length ≠ bars.length then none
  else
    (recent modelHistory bars).getLast?.bind fun last =>
      let f := featuresOf (recent modelHistory bars) (recent modelHistory btc) last
      if f.all isFinite then some f else none

/-! ### The model -/

namespace Trained

/-- Start of the first bar the model has not been trained on, in ms. -/
def unseenFrom (m : Trained F) : ℤ :=
  match m.unseenFromMs with
  | some ms => ms
  | none =>
    -- days from the civil date
    let (y, mo, d) := m.trainedTo
    let y := if mo ≤ 2 then y - 1 else y
    let era := y / 400
    let yoe := y % 400
    let doy := (153 * (if 2 < mo then mo - 3 else mo + 9) + 2).tdiv 5 + d - 1
    let doe := yoe * 365 + yoe.tdiv 4 - yoe.tdiv 100 + doy
    (era * 146097 + doe - 719468) * 86400000

def logistic (m : F) : F := lit 1 / (lit 1 + exp (lit 0 - m))

/-- The nearest number between the two; what is no number stays. -/
def clampTo (lo hi x : F) : F := if lt x lo then lo else if lt hi x then hi else x

/-- The leaf of a tree the row of these bins falls in. -/
def leafOf (bin : List ℕ) (t : Tree F) : Option F := do
  let leaf ← t.splits.foldlM (fun node level =>
    match level[node]?.join with
    | some (feature, at_) => bin[feature]?.map fun b => node * 2 + if at_ < b then 1 else 0
    | none => some (node * 2)) 0
  t.leaves[leaf]?

/-- The probability that the price is higher after the horizon. -/
def probability (m : Trained F) (x : List F) : Option F :=
  match m.model with
  | .logit mean sd weights =>
    let z := ((x.zip mean).zip sd).map fun ((x, m), s) => clampTo (lit (-5)) (lit 5) ((x - m) / s)
    weights.head?.map fun w => logistic (w + total ((z.zip weights.tail).map fun (z, w) => z * w))
  | .trees base edges trees =>
    let bin := (x.zip edges).map fun (x, e) => (e.takeWhile fun edge => lt edge x).length
    (trees.mapM (leafOf bin)).map fun leaves => logistic (base + total leaves)

/-- Whether the model wants in at the close of the last of `bars`: not on days it was
trained on, where it has seen the answers. -/
def signal (m : Trained F) (bars : List (Bar F)) (btc : List F) : Option Bool :=
  match bars.getLast? with
  | none => some false
  | some last =>
    if last.ts < m.unseenFrom then some false
    else
      match features bars btc with
      | none => some false
      | some x => (m.probability x).map fun p => le m.threshold p

/-- The model as a rule reads it. -/
def toModel (m : Trained F) : Model F where
  signal bars btc := (m.signal bars btc).getD false
  horizonBars := m.horizonBars

end Trained

end Lab
end MobiusSearcher
