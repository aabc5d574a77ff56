/-
# The search for liquidations has no gap

`replay` of `apps/mobius-searcher/src/research/liquidation.rs`, and what it reads
and writes of `crates/storage/src/research.rs`: it goes on from the range of
blocks searched before, upwards to the chain head and downwards to the first
block of the period, a window of blocks a request, some requests at once. A run
may end at every question it asks, and the store keeps what was written.

The node answers as it likes. A log's decoding and what is worked out about an
event are parameters. The store is seen by one target: of the rows of other
venues nothing is said. `answered` is not in the store; only the proofs read it.

A run is given the head of the chain and the blocks of its period; what it does
before it knows them has no part in the search. The ranges are counted in `u64`,
which wraps, so that building them may not end: a run lives to as many rounds of
the two loops as `rounds` says.

Key definitions: `Store`, `Op`, `replay`, `replays`, `Joins`, `Covered`.
Key theorems: `ranges_spec`, `ranges_end`, `replay_sound`, `scan_has_no_gap`.
-/
import MobiusSearcher.Lib.Machine
import MobiusSearcher.Lib.Prog
import MobiusSearcher.Lib.Table

namespace MobiusSearcher
namespace Research.Scan

open Machine Table

/-- Blocks at the chain head left for the next run. -/
def tipMargin : ℕ := 10
/-- How many requests run at once. -/
def atOnce : ℕ := 6

/-! ### The store -/

/-- One `Liquidate` event. -/
structure Liquidation where
  block : ℕ
  logIndex : ℕ
  tx : String
  market : String
  caller : String
  borrower : String
  repaidAssets : ℕ
  seizedAssets : ℕ
  badDebtAssets : ℕ
  deriving DecidableEq, Repr

/-- A row of the events: what was found, and what was worked out about it. -/
structure LiqEvent (ω : Type) where
  venue : String
  block : ℕ
  logIndex : ℕ
  tx : String
  market : String
  borrower : String
  caller : String
  repaid : String
  seized : String
  badDebt : String
  worked : Option ω

def event {ω : Type} (venue : String) (l : Liquidation) : LiqEvent ω :=
  { venue, block := l.block, logIndex := l.logIndex, tx := l.tx, market := l.market, borrower := l.borrower,
    caller := l.caller, repaid := toString l.repaidAssets, seized := toString l.seizedAssets,
    badDebt := toString l.badDebtAssets, worked := none }

def LiqEvent.key {ω : Type} (e : LiqEvent ω) : String × ℕ × ℕ := (e.venue, e.block, e.logIndex)

/-- A log request that was answered, of the blocks `lo..=hi`. -/
structure Answer (L : Type) where
  lo : ℕ
  hi : ℕ
  logs : List L

structure Store (L ω : Type) where
  /-- The target's row of `liq_scan`: blocks `first..next - 1` have been searched. -/
  scan : Option (ℕ × ℕ)
  events : List (LiqEvent ω)
  answered : List (Answer L)

namespace Store

variable {L ω : Type}

/-- `INSERT OR IGNORE`. -/
def insert (w : Store L ω) (e : LiqEvent ω) : Store L ω :=
  if w.events.any (·.key = e.key) then w else { w with events := w.events ++ [e] }

/-- What was worked out about an event is stored. -/
def update (w : Store L ω) (u : (String × ℕ × ℕ) × ω) : Store L ω :=
  { w with events := w.events.map fun e => if e.key = u.1 then { e with worked := some u.2 } else e }

/-- Requests are answered. -/
def hear (w : Store L ω) (requests : List (ℕ × ℕ)) (answers : List (Except String (List L))) : Store L ω :=
  { w with answered := w.answered ++ (requests.zip answers).filterMap fun x =>
      x.2.toOption.map fun logs => ⟨x.1.1, x.1.2, logs⟩ }

end Store

/-! ### A run -/

/-- What a run asks of the store and of the node. -/
inductive Op (ω : Type)
  | liqScan
  /-- A group of requests, each for the logs of some blocks. -/
  | logs (requests : List (ℕ × ℕ))
  | insertLiqEvent (e : LiqEvent ω)
  | setLiqScan (first next : ℕ)
  /-- The search is done, and the events from block `start` on are worked out. -/
  | workOut (start tip : ℕ)

def Op.Ans (L : Type) {ω : Type} : Op ω → Type
  | liqScan => Except String (Option (ℕ × ℕ))
  | logs _ => List (Except String (List L))
  | insertLiqEvent _ | setLiqScan .. => Except String Unit
  | workOut .. => Unit

/-- What may be answered, and what becomes of the store. A write that fails writes nothing. -/
def answers {L ω : Type} (w : Store L ω) : (o : Op ω) → o.Ans L → Store L ω → Prop
  | .liqScan, a, w' => w' = w ∧ ∀ record, a = .ok record → record = w.scan
  | .logs requests, a, w' => List.length a = requests.length ∧ w' = w.hear requests a
  | .insertLiqEvent e, a, w' => w' = if Except.isOk a then w.insert e else w
  | .setLiqScan first next, a, w' => w' = if Except.isOk a then { w with scan := some (first, next) } else w
  | .workOut .., _, w' => ∃ us : List ((String × ℕ × ℕ) × ω), w' = us.foldl Store.update w

/-- A run's head of the chain, its period in blocks, and its target's window. -/
structure Replay where
  head : ℕ
  period : ℕ
  logWindow : ℕ
  rounds : ℕ

def Replay.start (c : Replay) : ℕ := c.head - c.period

def Replay.tip (c : Replay) : ℕ := c.head - tipMargin

/-- A request; `up` extends the searched range upwards. -/
structure Range where
  lo : ℕ
  hi : ℕ
  up : Bool
  deriving DecidableEq, Repr

/-- The range searched once the request is stored. -/
def Range.extend (r : Range) (scan : ℕ × ℕ) : ℕ × ℕ := if r.up then (scan.1, r.hi + 1) else (r.lo, scan.2)

/-- The requests from `lo` up to `tip`. -/
def upRanges (logWindow tip : ℕ) : ℕ → ℕ → Option (List Range)
  | 0, _ => none
  | rounds + 1, lo =>
    if lo ≤ tip then
      -- `lo + log_window - 1`, wrapping
      let hi := min (wrapU64 (lo + logWindow + (2 ^ 64 - 1))) tip
      (upRanges logWindow tip rounds (hi + 1)).map (⟨lo, hi, true⟩ :: ·)
    else some []

/-- The requests from `hi` down to `start`. -/
def downRanges (logWindow start : ℕ) : ℕ → ℕ → Option (List Range)
  | 0, _ => none
  | rounds + 1, hi =>
    if start < hi then
      let lo := max (hi - logWindow) start
      (downRanges logWindow start rounds lo).map (⟨lo, hi - 1, false⟩ :: ·)
    else some []

/-- The requests of a run that goes on from `scan`. -/
def Replay.ranges (c : Replay) (scan : ℕ × ℕ) : Option (List Range) :=
  (upRanges c.logWindow c.tip c.rounds scan.2).bind fun ups =>
    (downRanges c.logWindow c.start c.rounds scan.1).map fun downs => ups ++ downs

section Program

variable {L ω : Type} (decode : L → Except String Liquidation) (venue : String)

abbrev Act (L ω α : Type) : Type := Prog (fun o : Op ω => o.Ans L) α

def ask (o : Op ω) : Act L ω (o.Ans L) := .query o

def insertLiqEvents : List (LiqEvent ω) → Act L ω (Except String Unit)
  | [] => pure (.ok ())
  | e :: es => (ask (.insertLiqEvent e)).bind fun a =>
    match a with
    | .error m => pure (.error m)
    | .ok _ => insertLiqEvents es

/-- What was answered to a request is stored, and the searched range extended. -/
def keepAnswer (r : Range) (answer : Except String (List L)) (scan : ℕ × ℕ) : Act L ω (Except String (ℕ × ℕ)) :=
  match answer with
  | .error m => pure (.error m)
  | .ok logs =>
    match logs.mapM decode with
    | .error m => pure (.error m)
    | .ok found => (insertLiqEvents (found.map (event venue))).bind fun a =>
      match a with
      | .error m => pure (.error m)
      | .ok _ => (ask (.setLiqScan (r.extend scan).1 (r.extend scan).2)).bind fun a =>
        match a with
        | .error m => pure (.error m)
        | .ok _ => pure (.ok (r.extend scan))

/-- The answers of a group, in order, up to one that is an error. -/
def keepAnswers : List (Range × Except String (List L)) → ℕ × ℕ → Act L ω (Except String (ℕ × ℕ))
  | [], scan => pure (.ok scan)
  | (r, answer) :: rest, scan => (keepAnswer decode venue r answer scan).bind fun a =>
    match a with
    | .error m => pure (.error m)
    | .ok scan => keepAnswers rest scan

/-- One group of requests after another. -/
def searchGroups : List (Chunk Range) → ℕ × ℕ → Act L ω (Except String (ℕ × ℕ))
  | [], scan => pure (.ok scan)
  | group :: groups, scan => (ask (.logs (group.rows.map fun r => (r.lo, r.hi)))).bind fun answers =>
    (keepAnswers decode venue (group.rows.zip answers) scan).bind fun a =>
      match a with
      | .error m => pure (.error m)
      | .ok scan => searchGroups groups scan

/-- Bring a target's recorded liquidations up to the chain head, going back the period. -/
def replay (c : Replay) : Act L ω Unit :=
  (ask .liqScan).bind fun record =>
    match record with
    | .error _ => pure ()
    | .ok record =>
      let scan := (record.filter fun r => c.start ≤ r.2).getD (c.start, c.start)
      match c.ranges scan with
      | none => pure ()
      | some ranges => (searchGroups decode venue (chunks atOnce ranges) scan).bind fun a =>
        match a with
        | .error _ => pure ()
        | .ok _ => ask (.workOut c.start c.tip)

/-- Runs on one target, each of which may end at whatever it asks. Between them the rows of other venues change. -/
def replays : Shell (fun o : Op ω => o.Ans L) (Store L ω) Replay where
  prog := replay decode venue
  calls _ _ := True
  answers := answers
  restart := id
  passes w w' := w'.scan = w.scan ∧ w'.answered = w.answered ∧
    w'.events.filter (·.venue = venue) = w.events.filter (·.venue = venue)

end Program

/-! ### The requests -/

section Ranges

variable {logWindow tip start rounds lo hi : ℕ} {scan : ℕ × ℕ} {rs rs' : List Range}

/-- Each request begins where the searched range ends, above or below. -/
def Joins : ℕ × ℕ → List Range → Prop
  | _, [] => True
  | scan, r :: rs => (if r.up then r.lo = scan.2 else r.hi + 1 = scan.1) ∧ Joins (r.extend scan) rs

def extendAll (scan : ℕ × ℕ) (rs : List Range) : ℕ × ℕ := rs.foldl (fun scan r => r.extend scan) scan

@[simp] theorem extendAll_nil (scan : ℕ × ℕ) : extendAll scan [] = scan := rfl

@[simp] theorem extendAll_cons (scan : ℕ × ℕ) (r : Range) (rs : List Range) :
    extendAll scan (r :: rs) = extendAll (r.extend scan) rs := rfl

theorem extendAll_append : extendAll scan (rs ++ rs') = extendAll (extendAll scan rs) rs' := List.foldl_append ..

theorem joins_append : Joins scan (rs ++ rs') ↔ Joins scan rs ∧ Joins (extendAll scan rs) rs' := by
  induction rs generalizing scan with
  | nil => simp [Joins]
  | cons r rs ih => simp [Joins, ih, and_assoc]

/-- Upwards the requests leave nothing out up to the tip. -/
theorem upRanges_spec (first : ℕ) (h : upRanges logWindow tip rounds lo = some rs) :
    Joins (first, lo) rs ∧ (extendAll (first, lo) rs).1 = first ∧ tip < (extendAll (first, lo) rs).2 := by
  induction rounds generalizing lo rs with
  | zero => exact absurd h (by simp [upRanges])
  | succ rounds ih =>
    unfold upRanges at h
    split at h
    · obtain ⟨rs', hrs, rfl⟩ := Option.map_eq_some_iff.mp h
      obtain ⟨hj, hfirst, hnext⟩ := ih hrs
      exact ⟨⟨rfl, hj⟩, hfirst, hnext⟩
    · rename_i hlo
      obtain rfl := Option.some.inj h
      exact ⟨trivial, rfl, not_le.mp hlo⟩

/-- Downwards they leave nothing out down to the start. -/
theorem downRanges_spec (next : ℕ) (h : downRanges logWindow start rounds hi = some rs) :
    Joins (hi, next) rs ∧ (extendAll (hi, next) rs).1 ≤ start ∧ (extendAll (hi, next) rs).2 = next := by
  induction rounds generalizing hi rs with
  | zero => exact absurd h (by simp [downRanges])
  | succ rounds ih =>
    unfold downRanges at h
    split at h
    · rename_i hhi
      obtain ⟨rs', hrs, rfl⟩ := Option.map_eq_some_iff.mp h
      obtain ⟨hj, hfirst, hnext⟩ := ih hrs
      refine ⟨⟨?_, hj⟩, hfirst, hnext⟩
      simp only [Bool.false_eq_true, if_false]
      omega
    · rename_i hhi
      obtain rfl := Option.some.inj h
      exact ⟨trivial, not_lt.mp hhi, rfl⟩

/-- A run's requests join what was searched before, and take it over the whole period. -/
theorem ranges_spec {c : Replay} (h : c.ranges scan = some rs) :
    Joins scan rs ∧ (extendAll scan rs).1 ≤ c.start ∧ c.tip < (extendAll scan rs).2 := by
  obtain ⟨ups, hups, h⟩ := Option.bind_eq_some_iff.mp h
  obtain ⟨downs, hdowns, rfl⟩ := Option.map_eq_some_iff.mp h
  obtain ⟨hj, hfirst, hnext⟩ := upRanges_spec scan.1 hups
  obtain ⟨hj', hfirst', hnext'⟩ := downRanges_spec (extendAll scan ups).2 hdowns
  have hmid : extendAll scan ups = (scan.1, (extendAll scan ups).2) := Prod.ext hfirst rfl
  rw [extendAll_append, joins_append, hmid]
  exact ⟨⟨hj, hj'⟩, hfirst', hnext'.symm ▸ hnext⟩

/-- Upwards the loop ends: a window takes it on. -/
theorem upRanges_ends (hw : 0 < logWindow) (hfit : tip + logWindow ≤ 2 ^ 64) (h : tip + 1 - lo < rounds) :
    (upRanges logWindow tip rounds lo).isSome := by
  induction rounds generalizing lo with
  | zero => omega
  | succ rounds ih =>
    unfold upRanges
    split
    · rename_i hlo
      have hsum : lo + logWindow + (2 ^ 64 - 1) = lo + logWindow - 1 + 2 ^ 64 := by omega
      have hwrap : wrapU64 (lo + logWindow + (2 ^ 64 - 1)) = lo + logWindow - 1 := by
        rw [hsum, wrapU64, Nat.add_mod_right, Nat.mod_eq_of_lt (by omega)]
      rw [Option.isSome_map, hwrap]
      exact ih (by omega)
    · rfl

/-- Downwards it ends too. -/
theorem downRanges_ends (hw : 0 < logWindow) (h : hi - start < rounds) :
    (downRanges logWindow start rounds hi).isSome := by
  induction rounds generalizing hi with
  | zero => omega
  | succ rounds ih =>
    unfold downRanges
    split
    · rw [Option.isSome_map]
      exact ih (by omega)
    · rfl

/-- With a window that does not wrap, the requests are found in as many rounds as there are blocks to search. -/
theorem ranges_end {c : Replay} (hw : 0 < c.logWindow) (hfit : c.tip + c.logWindow ≤ 2 ^ 64)
    (hup : c.tip + 1 - scan.2 < c.rounds) (hdown : scan.1 - c.start < c.rounds) : (c.ranges scan).isSome := by
  obtain ⟨ups, hups⟩ := Option.isSome_iff_exists.mp (upRanges_ends hw hfit hup)
  obtain ⟨downs, hdowns⟩ := Option.isSome_iff_exists.mp (downRanges_ends hw hdown)
  simp [Replay.ranges, hups, hdowns]

end Ranges

/-! ### What is covered -/

section Covered

variable {L ω : Type} (decode : L → Except String Liquidation) (venue : String)

/-- There is a row for an event of the target at that place. -/
def Store.Has (w : Store L ω) (block logIndex : ℕ) : Prop :=
  ∃ e ∈ w.events, e.venue = venue ∧ e.block = block ∧ e.logIndex = logIndex

/-- The events of a list of logs are stored. -/
def Store.Keeps (w : Store L ω) (logs : List L) : Prop :=
  ∃ found, logs.mapM decode = .ok found ∧ ∀ l ∈ found, w.Has venue l.block l.logIndex

/-- The block was in a request that was answered, and the events of the answer are stored. -/
def Covered (w : Store L ω) (b : ℕ) : Prop :=
  ∃ a ∈ w.answered, a.lo ≤ b ∧ b ≤ a.hi ∧ w.Keeps decode venue a.logs

/-- Every block of the range is covered. -/
def Span (w : Store L ω) (scan : ℕ × ℕ) : Prop := ∀ b, scan.1 ≤ b → b < scan.2 → Covered decode venue w b

/-- The recorded range is covered. -/
def Inv (w : Store L ω) : Prop := ∀ scan, w.scan = some scan → Span decode venue w scan

/-- What is answered stays, and so does every row. -/
structure Later (w w' : Store L ω) : Prop where
  answered : ∀ a ∈ w.answered, a ∈ w'.answered
  has : ∀ block logIndex, w.Has venue block logIndex → w'.Has venue block logIndex

variable {decode venue} {w w' w'' : Store L ω} {scan : ℕ × ℕ} {r : Range} {b : ℕ}

theorem Later.refl (w : Store L ω) : Later venue w w := ⟨fun _ h => h, fun _ _ h => h⟩

theorem Later.trans (h : Later venue w w') (h' : Later venue w' w'') : Later venue w w'' :=
  ⟨fun a ha => h'.answered a (h.answered a ha), fun b i hb => h'.has b i (h.has b i hb)⟩

theorem Covered.later (h : Covered decode venue w b) (hl : Later venue w w') : Covered decode venue w' b := by
  obtain ⟨a, ha, hlo, hhi, found, hfound, hall⟩ := h
  exact ⟨a, hl.answered a ha, hlo, hhi, found, hfound, fun l hm => hl.has _ _ (hall l hm)⟩

theorem Span.later (h : Span decode venue w scan) (hl : Later venue w w') : Span decode venue w' scan :=
  fun b h₁ h₂ => (h b h₁ h₂).later hl

theorem Inv.later (h : Inv decode venue w) (hl : Later venue w w') (hs : w'.scan = w.scan) : Inv decode venue w' :=
  fun scan hscan => (h scan (hs ▸ hscan)).later hl

/-- A covered request that joins the range extends it. -/
theorem Span.extend (h : Span decode venue w scan) (hj : if r.up then r.lo = scan.2 else r.hi + 1 = scan.1)
    (hr : ∀ b, r.lo ≤ b → b ≤ r.hi → Covered decode venue w b) : Span decode venue w (r.extend scan) := by
  intro b h₁ h₂
  unfold Range.extend at h₁ h₂
  cases hup : r.up with
  | true =>
    simp only [hup, if_true] at hj h₁ h₂
    rcases lt_or_ge b scan.2 with hb | hb
    · exact h b h₁ hb
    · exact hr b (hj.le.trans hb) (Nat.lt_succ_iff.mp h₂)
  | false =>
    simp only [hup, Bool.false_eq_true, if_false] at hj h₁ h₂
    rcases lt_or_ge b scan.1 with hb | hb
    · exact hr b h₁ (Nat.lt_succ_iff.mp (hb.trans_eq hj.symm))
    · exact h b hb h₂

theorem insert_later (w : Store L ω) (e : LiqEvent ω) : Later venue w (w.insert e) := by
  unfold Store.insert
  split
  · exact .refl w
  · refine ⟨fun _ h => h, ?_⟩
    rintro b i ⟨e', he', h⟩
    exact ⟨e', List.mem_append_left _ he', h⟩

theorem insert_scan (w : Store L ω) (e : LiqEvent ω) : (w.insert e).scan = w.scan := by
  unfold Store.insert
  split <;> rfl

theorem insert_answered (w : Store L ω) (e : LiqEvent ω) : (w.insert e).answered = w.answered := by
  unfold Store.insert
  split <;> rfl

/-- After it is inserted, there is a row for the event. -/
theorem insert_has (w : Store L ω) (l : Liquidation) :
    (w.insert (event venue l)).Has venue l.block l.logIndex := by
  unfold Store.insert
  split
  · rename_i hany
    obtain ⟨e, he, hkey⟩ := List.any_eq_true.mp hany
    obtain ⟨h₁, h₂⟩ := Prod.mk.inj (of_decide_eq_true hkey)
    obtain ⟨h₂, h₃⟩ := Prod.mk.inj h₂
    exact ⟨e, he, h₁, h₂, h₃⟩
  · exact ⟨_, List.mem_append_right _ (List.mem_singleton_self _), rfl, rfl, rfl⟩

theorem update_later (w : Store L ω) (us : List ((String × ℕ × ℕ) × ω)) :
    Later venue w (us.foldl Store.update w) ∧ (us.foldl Store.update w).scan = w.scan := by
  induction us generalizing w with
  | nil => exact ⟨.refl w, rfl⟩
  | cons u us ih =>
    obtain ⟨hl, hs⟩ := ih (w.update u)
    have hstep : Later venue w (w.update u) := by
      refine ⟨fun _ h => h, ?_⟩
      rintro b i ⟨e, he, h⟩
      refine ⟨_, List.mem_map_of_mem he, ?_⟩
      split <;> exact h
    exact ⟨hstep.trans hl, hs⟩

/-- A range recorded once it is covered. -/
theorem Inv.record (h : Span decode venue w scan) : Inv decode venue { w with scan := some scan } := by
  intro scan' hs
  obtain rfl := Option.some.inj hs
  exact h

end Covered

/-! ### What every run keeps -/

section Runs

variable {L ω : Type} (decode : L → Except String Liquidation) (venue : String)

/-- What holds at every question: the recorded range is covered, and when the events are worked out
it has every block of the period. -/
def Asks (w : Store L ω) (o : Op ω) : Prop :=
  Inv decode venue w ∧ ∀ start tip, o = .workOut start tip → ∀ b, start ≤ b → b ≤ tip →
    ∃ scan, w.scan = some scan ∧ scan.1 ≤ b ∧ b < scan.2

/-- A search under way: the range searched so far is covered, and it is the recorded one unless it is still empty. -/
structure Going (w : Store L ω) (scan : ℕ × ℕ) : Prop where
  inv : Inv decode venue w
  span : Span decode venue w scan
  told : w.scan = some scan ∨ scan.1 = scan.2

variable {decode venue} {w : Store L ω} {scan : ℕ × ℕ}

theorem Going.later {w' : Store L ω} (h : Going decode venue w scan) (hl : Later venue w w') (hs : w'.scan = w.scan) :
    Going decode venue w' scan := ⟨h.inv.later hl hs, h.span.later hl, hs.symm ▸ h.told⟩

theorem insertLiqEvents_spec : ∀ {ls : List Liquidation} {w : Store L ω}, Inv decode venue w →
    (insertLiqEvents (ls.map (event venue))).Sound answers (Asks decode venue) (fun a w' => Later venue w w' ∧
      w'.scan = w.scan ∧ w'.answered = w.answered ∧ (a = .ok () → ∀ l ∈ ls, w'.Has venue l.block l.logIndex)) w
  | [], w, _ => ⟨.refl w, rfl, rfl, fun _ _ hl => absurd hl List.not_mem_nil⟩
  | l :: ls, w, hi => by
    refine Prog.Sound.query ⟨hi, fun _ _ h => absurd h (by simp)⟩ fun a w₁ hw => ?_
    cases a with
    | error m =>
      obtain rfl : w₁ = w := hw
      exact ⟨.refl _, rfl, rfl, fun h => absurd h (by simp)⟩
    | ok u =>
      obtain rfl : w₁ = w.insert (event venue l) := hw
      have hl : Later venue w (w.insert (event venue l)) := insert_later w _
      refine Prog.Sound.mono ?_ (insertLiqEvents_spec (hi.later hl (insert_scan w _)))
      rintro a w' ⟨hl', hs, ha, hall⟩
      refine ⟨hl.trans hl', hs.trans (insert_scan w _), ha.trans (insert_answered w _), fun hok l' hm => ?_⟩
      rcases List.mem_cons.mp hm with rfl | hm
      · exact hl'.has _ _ (insert_has w l')
      · exact hall hok l' hm

theorem keepAnswer_spec {r : Range} {answer : Except String (List L)} (hg : Going decode venue w scan)
    (hj : if r.up then r.lo = scan.2 else r.hi + 1 = scan.1)
    (ha : ∀ logs, answer = .ok logs → ⟨r.lo, r.hi, logs⟩ ∈ w.answered) :
    (keepAnswer decode venue r answer scan).Sound answers (Asks decode venue) (fun a w' => Inv decode venue w' ∧
      w'.answered = w.answered ∧ ∀ s, a = .ok s → s = r.extend scan ∧ Going decode venue w' s) w := by
  unfold keepAnswer
  cases answer with
  | error m => exact ⟨hg.inv, rfl, fun s h => absurd h (by simp)⟩
  | ok logs =>
  simp only
  cases hfound : logs.mapM decode with
  | error m => exact ⟨hg.inv, rfl, fun s h => absurd h (by simp)⟩
  | ok found =>
  refine Prog.Sound.seq (insertLiqEvents_spec hg.inv) fun a w₁ h => ?_
  obtain ⟨hl, hs, hsame, hall⟩ := h
  have hg₁ := hg.later hl hs
  cases a with
  | error m => exact ⟨hg₁.inv, hsame, fun s h => absurd h (by simp)⟩
  | ok u =>
  refine Prog.Sound.query ⟨hg₁.inv, fun _ _ h => absurd h (by simp)⟩ fun a w₂ hw => ?_
  have hcover : ∀ b, r.lo ≤ b → b ≤ r.hi → Covered decode venue w₁ b := fun b hlo hhi =>
    ⟨_, hsame ▸ ha logs rfl, hlo, hhi, found, hfound, hall rfl⟩
  have hspan := hg₁.span.extend hj hcover
  cases a with
  | error m =>
    obtain rfl : w₂ = w₁ := hw
    exact ⟨hg₁.inv, hsame, fun s h => absurd h (by simp)⟩
  | ok u =>
    obtain rfl : w₂ = { w₁ with scan := some (r.extend scan) } := hw
    refine ⟨.record hspan, hsame, fun s h => ?_⟩
    obtain rfl := Except.ok.inj h
    exact ⟨rfl, .record hspan, hspan, .inl rfl⟩

theorem keepAnswers_spec : ∀ {rs : List (Range × Except String (List L))} {w : Store L ω} {scan : ℕ × ℕ},
    Going decode venue w scan → Joins scan (rs.map Prod.fst) →
    (∀ x ∈ rs, ∀ logs, x.2 = .ok logs → ⟨x.1.lo, x.1.hi, logs⟩ ∈ w.answered) →
    (keepAnswers decode venue rs scan).Sound answers (Asks decode venue) (fun a w' => Inv decode venue w' ∧
      ∀ s, a = .ok s → s = extendAll scan (rs.map Prod.fst) ∧ Going decode venue w' s) w
  | [], w, scan, hg, _, _ => ⟨hg.inv, fun s h => by obtain rfl := Except.ok.inj h; exact ⟨rfl, hg⟩⟩
  | (r, answer) :: rs, w, scan, hg, hj, ha => by
    refine Prog.Sound.seq (keepAnswer_spec hg hj.1 (ha (r, answer) List.mem_cons_self)) fun a w₁ h => ?_
    obtain ⟨hi, hsame, hok⟩ := h
    cases a with
    | error m => exact ⟨hi, fun s h => absurd h (by simp)⟩
    | ok scan₁ =>
      obtain ⟨rfl, hg₁⟩ := hok scan₁ rfl
      exact keepAnswers_spec hg₁ hj.2 fun x hx => hsame ▸ ha x (List.mem_cons_of_mem _ hx)

theorem map_fst_zip {α β : Type} {as : List α} {bs : List β} (h : bs.length = as.length) :
    (as.zip bs).map Prod.fst = as := List.map_fst_zip h.ge

theorem mem_hear {rs : List Range} {as : List (Except String (List L))} {x : Range × Except String (List L)}
    (hx : x ∈ rs.zip as) {logs : List L} (hok : x.2 = .ok logs) :
    ⟨x.1.lo, x.1.hi, logs⟩ ∈ (w.hear (rs.map fun r => (r.lo, r.hi)) as).answered := by
  refine List.mem_append_right _ (List.mem_filterMap.mpr ⟨((x.1.lo, x.1.hi), x.2), ?_, by simp [hok, Except.toOption]⟩)
  rw [List.zip_map_left]
  exact List.mem_map.mpr ⟨x, hx, rfl⟩

theorem hear_later (w : Store L ω) (requests : List (ℕ × ℕ)) (as : List (Except String (List L))) :
    Later venue w (w.hear requests as) := ⟨fun _ h => List.mem_append_left _ h, fun _ _ h => h⟩

theorem searchGroups_spec : ∀ {gs : List (Chunk Range)} {w : Store L ω} {scan : ℕ × ℕ},
    Going decode venue w scan → Joins scan (flatten gs) →
    (searchGroups decode venue gs scan).Sound answers (Asks decode venue) (fun a w' => Inv decode venue w' ∧
      ∀ s, a = .ok s → s = extendAll scan (flatten gs) ∧ Going decode venue w' s) w
  | [], w, scan, hg, _ => ⟨hg.inv, fun s h => by obtain rfl := Except.ok.inj h; exact ⟨rfl, hg⟩⟩
  | g :: gs, w, scan, hg, hj => by
    rw [flatten_cons, joins_append] at hj
    refine Prog.Sound.query ⟨hg.inv, fun _ _ h => absurd h (by simp)⟩ fun as w₁ hw => ?_
    obtain ⟨hlen, rfl⟩ := hw
    have hfst := map_fst_zip (hlen.trans (List.length_map ..))
    have hg₁ := hg.later (hear_later w (g.rows.map fun r => (r.lo, r.hi)) as) rfl
    refine Prog.Sound.seq (keepAnswers_spec hg₁ (hfst.symm ▸ hj.1) fun x hx logs hok => mem_hear hx hok) fun a w₂ h => ?_
    obtain ⟨hi, hok⟩ := h
    cases a with
    | error m => exact ⟨hi, fun s h => absurd h (by simp)⟩
    | ok scan₂ =>
      obtain ⟨rfl, hg₂⟩ := hok scan₂ rfl
      rw [hfst] at hg₂ ⊢
      rw [flatten_cons, extendAll_append]
      exact searchGroups_spec hg₂ hj.2

/-- **A run is sound.** At whatever it asks the recorded range is covered, and the period
is within it once the events are worked out. -/
theorem replay_sound (c : Replay) (hi : Inv decode venue w) :
    (replay decode venue c).Sound answers (Asks decode venue) (fun _ w' => Inv decode venue w') w := by
  refine Prog.Sound.query ⟨hi, fun _ _ h => absurd h (by simp)⟩ fun record w₁ hw => ?_
  obtain ⟨rfl, hrecord⟩ := hw
  cases record with
  | error m => exact hi
  | ok record =>
  obtain rfl := hrecord record rfl
  simp only
  generalize hscan : (w₁.scan.filter fun r => c.start ≤ r.2).getD (c.start, c.start) = scan
  have hg : Going decode venue w₁ scan := by
    cases hf : w₁.scan.filter fun r => c.start ≤ r.2 with
    | none =>
      obtain rfl : (c.start, c.start) = scan := by rw [← hscan, hf]; rfl
      exact ⟨hi, fun b h₁ h₂ => absurd h₂ (not_lt.mpr h₁), .inr rfl⟩
    | some s =>
      obtain rfl : s = scan := by rw [← hscan, hf]; rfl
      have hs := (Option.filter_eq_some_iff.mp hf).1
      exact ⟨hi, hi s hs, .inl hs⟩
  cases hr : c.ranges scan with
  | none => exact hi
  | some rs =>
  obtain ⟨hj, hfirst, hnext⟩ := ranges_spec hr
  refine Prog.Sound.seq (searchGroups_spec hg ((flatten_chunks atOnce rs).symm ▸ hj)) fun a w₂ h => ?_
  obtain ⟨hi₂, hok⟩ := h
  cases a with
  | error m => exact hi₂
  | ok s =>
  obtain ⟨rfl, hg₂⟩ := hok s rfl
  rw [flatten_chunks] at hg₂
  refine Prog.Sound.ask ⟨hi₂, ?_⟩ ?_
  · rintro start tip ⟨⟩ b h₁ h₂
    have hlo := hfirst.trans h₁
    have hhi := h₂.trans_lt hnext
    exact ⟨_, hg₂.told.resolve_right (hlo.trans_lt hhi).ne, hlo, hhi⟩
  · rintro _ w₃ ⟨us, rfl⟩
    obtain ⟨hl, hs⟩ := update_later w₂ us
    exact hi₂.later hl hs

theorem passes_later {w w' : Store L ω} (h : (replays decode venue).passes w w') : Later venue w w' := by
  obtain ⟨-, ha, he⟩ := h
  refine ⟨fun _ h => ha.symm ▸ h, ?_⟩
  rintro b i ⟨e, hm, hv, hrest⟩
  have hmem : e ∈ w.events.filter (·.venue = venue) := List.mem_filter.mpr ⟨hm, by simpa using hv⟩
  rw [← he] at hmem
  exact ⟨e, (List.mem_filter.mp hmem).1, hv, hrest⟩

/-- **The recorded scan has no gap.** In every state that runs on a target reach from a store that
has no record of it, every block of the recorded range was in a request whose answer's events are
stored; and a run whose search is done has recorded every block of its period. -/
theorem scan_has_no_gap (decode : L → Except String Liquidation) (venue : String) {w₀ : Store L ω}
    {s : Shell.Status (fun o : Op ω => o.Ans L) (Store L ω)} (h0 : w₀.scan = none)
    (h : (replays decode venue).Reach w₀ s) :
    (∀ first next, s.world.scan = some (first, next) → ∀ b, first ≤ b → b < next → Covered decode venue s.world b) ∧
    ∀ w start tip k, s = .busy w (.ask (.workOut start tip) k) → ∀ b, start ≤ b → b ≤ tip →
      ∃ first next, w.scan = some (first, next) ∧ first ≤ b ∧ b < next := by
  have hsafe : (replays decode venue).Safe (Inv decode venue) (Asks decode venue) s := by
    refine (replays decode venue).safe ?_ (fun c w hi _ => replay_sound c hi) (fun w o h => h.1) (fun w hi => hi) ?_ h
    · exact fun scan hs => absurd (h0.symm.trans hs) (Option.some_ne_none scan).symm
    · exact fun w w' hi hp => hi.later (passes_later hp) hp.1
  have hinv : Inv decode venue s.world := by
    cases s with
    | idle w => exact hsafe
    | busy w p =>
      cases p with
      | ret u => exact hsafe
      | ask o k => exact hsafe.1.1
  refine ⟨fun first next hs b h₁ h₂ => hinv (first, next) hs b h₁ h₂, ?_⟩
  rintro w start tip k rfl b h₁ h₂
  obtain ⟨scan, hs, hlo, hhi⟩ := hsafe.at_ask.2 start tip rfl b h₁ h₂
  exact ⟨scan.1, scan.2, hs, hlo, hhi⟩

/-! ### Two runs -/

/-- A node that finds one liquidation in every request, and a store that never fails. -/
def reply (w : Store Liquidation Unit) : (o : Op Unit) → o.Ans Liquidation × Store Liquidation Unit
  | .liqScan => (.ok w.scan, w)
  | .logs requests =>
    let as := requests.map fun r => .ok [⟨r.1, 0, "0x", "m", "c", "b", 5, 6, 0⟩]
    (as, w.hear requests as)
  | .insertLiqEvent e => (.ok (), w.insert e)
  | .setLiqScan first next => (.ok (), { w with scan := some (first, next) })
  | .workOut .. => ((), w)

theorem answers_reply (w : Store Liquidation Unit) (o : Op Unit) : answers w o (reply w o).1 (reply w o).2 := by
  cases o with
  | liqScan => exact ⟨rfl, fun record h => (Except.ok.inj h).symm⟩
  | logs requests => exact ⟨List.length_map .., rfl⟩
  | insertLiqEvent e => rfl
  | setLiqScan first next => rfl
  | workOut start tip => exact ⟨[], rfl⟩

def empty : Store Liquidation Unit := ⟨none, [], []⟩

/-- Twenty blocks back from block 100; and sixty back from block 120. -/
def firstRun : Replay := ⟨100, 20, 6, 50⟩
def secondRun : Replay := ⟨120, 60, 15, 50⟩

/-- The first run, stopped before its second range is recorded. -/
def interrupted : Store Liquidation Unit := (Shell.steps reply 5 (empty, replay .ok "base" firstRun)).1

/-- The second run, its search done. -/
def searched : Store Liquidation Unit × Act Liquidation Unit Unit :=
  Shell.steps reply 10 (interrupted, replay .ok "base" secondRun)

/-- The period whose events are worked out next. -/
def works : Act Liquidation Unit Unit → Option (ℕ × ℕ)
  | .ask (.workOut start tip) _ => some (start, tip)
  | _ => none

theorem eq_of_works {p : Act Liquidation Unit Unit} {start tip : ℕ} (h : works p = some (start, tip)) :
    ∃ k, p = .ask (.workOut start tip) k := by
  rcases p with u | ⟨o, k⟩
  · cases h
  · cases o with
    | workOut a b =>
      cases h
      exact ⟨k, rfl⟩
    | _ => cases h

theorem searched_reach : (replays .ok "base").Reach empty (.busy searched.1 searched.2) := by
  have h₁ : (replays .ok "base").Reach empty (.busy empty (replay .ok "base" firstRun)) :=
    .single (.call firstRun trivial)
  have h₂ : (replays .ok "base").Reach empty (.idle interrupted) :=
    (Shell.reach_steps answers_reply h₁).tail .stop
  exact Shell.reach_steps answers_reply (h₂.tail (.call secondRun trivial))

/-- The second run goes on from what the first recorded, both ways. -/
theorem scan_has_no_gap_resumed : interrupted.scan = some (80, 86) ∧ searched.1.scan = some (60, 111) ∧
    (∀ b, 60 ≤ b → b < 111 → Covered .ok "base" searched.1 b) ∧
    ∀ b, 60 ≤ b → b ≤ 110 → ∃ first next, searched.1.scan = some (first, next) ∧ first ≤ b ∧ b < next := by
  have hscan : searched.1.scan = some (60, 111) := by decide +kernel
  have hworks : works searched.2 = some (60, 110) := by decide +kernel
  obtain ⟨k, hk⟩ := eq_of_works hworks
  obtain ⟨hcovered, hperiod⟩ := scan_has_no_gap .ok "base" rfl searched_reach
  exact ⟨by decide +kernel, hscan, hcovered 60 111 hscan, hperiod _ 60 110 k (by rw [hk])⟩

end Runs

end Research.Scan
end MobiusSearcher
