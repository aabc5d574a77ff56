/-
# Time series

`crates/core/src/series.rs`: the points a chart is drawn from, in order of
time and at most as many as the series may hold. What is asked of them is
found by binary search. A window that ends before it begins is a panic when
a point lies between its ends.

A series carries that it is in order, finite and within its capacity, so
every series there is, however it was filled, answers as a scan of all its
points would (`queries_are_scans`); the bars of a window are one for each
bucket a point of it falls in (`bars_cover_window`).

Key definitions: `TimeSeries`, `push`, `range`, `valueAt`, `nearest`, `ohlc`.
Key theorems: `queries_are_scans`, `bars_cover_window`, `in_order_keeps_last`.
-/
import MobiusSearcher.Core.Units
import MobiusSearcher.Lib.Binary64
import MobiusSearcher.Lib.Prefix
import Mathlib.Data.List.DropRight

namespace MobiusSearcher
namespace Series

open Prefix Machine

/-- A sample and when it was taken. -/
abbrev Point := Ts × Binary64

/-- `is_finite`. -/
def isFinite : Binary64 → Bool
  | .fin _ => true
  | _ => false

/-- The points are in order of time. -/
def Sorted (ps : List Point) : Prop := ps.Pairwise fun a b => a.1.micros ≤ b.1.micros

/-! ### Pushing -/

/-- The point put at the end, or in its place when it is late. -/
def place (ps : List Point) (p : Point) : List Point :=
  match ps.getLast? with
  | some last => if p.1.micros < last.1.micros then ps.insertIdx (partitionPoint (fun a => a.1.micros ≤ p.1.micros) ps) p
    else ps ++ [p]
  | none => ps ++ [p]

/-- The points without the first of them, when they are as many as fit. -/
def makeRoom (cap : ℕ) (ps : List Point) : List Point := if ps.length = cap then ps.tail else ps

theorem closed_before {ps : List Point} (h : Sorted ps) (t : ℤ) : Closed (fun a => decide (a.1.micros < t)) ps :=
  h.imp fun hab hb => by
    simp only [decide_eq_true_eq] at hb ⊢
    omega

theorem closed_until {ps : List Point} (h : Sorted ps) (t : ℤ) : Closed (fun a => decide (a.1.micros ≤ t)) ps :=
  h.imp fun hab hb => by
    simp only [decide_eq_true_eq] at hb ⊢
    omega

/-- A point in its place stands after those no later than it and before the others. -/
theorem place_eq {ps : List Point} (h : Sorted ps) (p : Point) :
    place ps p = (ps.filter fun a => decide (a.1.micros ≤ p.1.micros)) ++
      p :: ps.filter fun a => !decide (a.1.micros ≤ p.1.micros) := by
  rcases List.eq_nil_or_concat' ps with rfl | ⟨init, last, rfl⟩
  · rfl
  · unfold place
    simp only [List.getLast?_concat]
    split
    · exact insertIdx_partitionPoint (closed_until h p.1.micros) p
    · rename_i hlate
      have hall : ∀ a ∈ init ++ [last], a.1.micros ≤ p.1.micros := by
        intro a ha
        rcases List.mem_append.mp ha with ha | ha
        · have := (List.pairwise_append.mp h).2.2 a ha last List.mem_cons_self
          omega
        · rw [List.mem_singleton.mp ha]
          omega
      rw [List.filter_eq_self.mpr fun a ha => decide_eq_true (hall a ha), List.filter_eq_nil_iff.mpr]
      intro a ha
      simp [hall a ha]

theorem place_sorted {ps : List Point} (h : Sorted ps) (p : Point) : Sorted (place ps p) := by
  rw [place_eq h]
  refine List.pairwise_append.mpr ⟨h.filter _, List.pairwise_cons.mpr ⟨fun b hb => ?_, h.filter _⟩, fun a ha b hb => ?_⟩
  · have := (List.mem_filter.mp hb).2
    simp only [Bool.not_eq_true', decide_eq_false_iff_not, not_le] at this
    omega
  · have ha' := (List.mem_filter.mp ha).2
    rcases List.mem_cons.mp hb with rfl | hb
    · simpa using ha'
    · have hb' := (List.mem_filter.mp hb).2
      simp only [Bool.not_eq_true', decide_eq_false_iff_not, not_le, decide_eq_true_eq] at ha' hb'
      omega

theorem place_perm {ps : List Point} (h : Sorted ps) (p : Point) : (place ps p).Perm (p :: ps) := by
  rw [place_eq h]
  refine List.perm_middle.trans (List.Perm.cons p ?_)
  exact List.filter_append_perm (fun a : Point => decide (a.1.micros ≤ p.1.micros)) ps

theorem makeRoom_sublist (cap : ℕ) (ps : List Point) : (makeRoom cap ps).Sublist ps := by
  unfold makeRoom
  split
  · exact List.tail_sublist ps
  · exact List.Sublist.refl ps

theorem length_makeRoom {cap : ℕ} {ps : List Point} (h0 : 0 < cap) (h : ps.length ≤ cap) :
    (makeRoom cap ps).length < cap := by
  unfold makeRoom
  split
  · rw [List.length_tail]
    omega
  · omega

/-- Points in order of time, finite, no more than fit. -/
structure TimeSeries where
  points : List Point
  cap : ℕ
  sorted : Sorted points
  finite : ∀ p ∈ points, isFinite p.2
  bounded : points.length ≤ cap
  room : 0 < cap

namespace TimeSeries

def withCapacity (cap : ℕ) : TimeSeries :=
  ⟨[], max cap 1, List.Pairwise.nil, nofun, Nat.zero_le _, by omega⟩

/-- Append; what is late is put in its place, what is not finite is left out. -/
def push (s : TimeSeries) (ts : Ts) (v : Binary64) : TimeSeries :=
  if h : isFinite v then
    have hsorted : Sorted (makeRoom s.cap s.points) := s.sorted.sublist (makeRoom_sublist s.cap s.points)
    have hperm := place_perm hsorted (ts, v)
    { s with
      points := place (makeRoom s.cap s.points) (ts, v)
      sorted := place_sorted hsorted (ts, v)
      finite := fun p hp => by
        rcases List.mem_cons.mp (hperm.mem_iff.mp hp) with rfl | hp
        · exact h
        · exact s.finite p ((makeRoom_sublist s.cap s.points).subset hp)
      bounded := by
        rw [hperm.length_eq, List.length_cons]
        exact length_makeRoom s.room s.bounded }
  else s

def pushAll (s : TimeSeries) (arrivals : List Point) : TimeSeries := arrivals.foldl (fun s p => s.push p.1 p.2) s

/-! ### Queries -/

def first (s : TimeSeries) : Option Point := s.points.head?

def last (s : TimeSeries) : Option Point := s.points.getLast?

/-- Points with `t0 ≤ ts ≤ t1`; `none` is the panic of a range that ends before it begins. -/
def range (s : TimeSeries) (t0 t1 : Ts) : Option (List Point) :=
  let a := partitionPoint (fun p => p.1.micros < t0.micros) s.points
  let b := partitionPoint (fun p => p.1.micros ≤ t1.micros) s.points
  if a ≤ b then some ((s.points.take b).drop a) else none

/-- Last value at or before `ts`. -/
def valueAt (s : TimeSeries) (ts : Ts) : Option Point :=
  let idx := partitionPoint (fun p => p.1.micros ≤ ts.micros) s.points
  if idx = 0 then none else s.points[idx - 1]?

/-- Whichever of the samples before and after `ts` is nearer, the earlier when neither is. -/
def nearer (ts : Ts) : Option Point → Option Point → Option Point
  | some b, some a => some (if b.1.since ts ≤ ts.since a.1 then b else a)
  | b, a => b.or a

/-- The sample closest in time to `ts`. -/
def nearest (s : TimeSeries) (ts : Ts) : Option Point :=
  let idx := partitionPoint (fun p => p.1.micros < ts.micros) s.points
  let after := s.points[idx]?
  let before := if 0 < idx then s.points[idx - 1]? else none
  nearer ts before after

/-- The least and the greatest value so far, with one more. -/
def widen (acc : Option (Binary64 × Binary64)) (p : Point) : Option (Binary64 × Binary64) :=
  match acc with
  | none => some (p.2, p.2)
  | some (lo, hi) => some (FloatOps.minimum lo p.2, FloatOps.maximum hi p.2)

def minMax (s : TimeSeries) (t0 t1 : Ts) : Option (Option (Binary64 × Binary64)) :=
  (s.range t0 t1).map fun ps => ps.foldl widen none

end TimeSeries

/-! ### Bars -/

structure Ohlc where
  start : Ts
  open_ : Binary64
  high : Binary64
  low : Binary64
  close : Binary64
  samples : ℕ

/-- Where the bucket of a time begins. -/
def bucketStart (bucketUs : ℤ) (t : Ts) : Ts := ⟨wrapI64 (t.micros / bucketUs * bucketUs)⟩

def Ohlc.add (c : Ohlc) (v : Binary64) : Ohlc :=
  { c with high := FloatOps.maximum c.high v, low := FloatOps.minimum c.low v, close := v, samples := wrapU32 (c.samples + 1) }

/-- The point taken into the last bar, or into one of its own. -/
def take (bucketUs : ℤ) (out : List Ohlc) (p : Point) : List Ohlc :=
  let start := bucketStart bucketUs p.1
  match out.getLast? with
  | some c => if c.start = start then out.dropLast ++ [c.add p.2] else out ++ [⟨start, p.2, p.2, p.2, p.2, 1⟩]
  | none => out ++ [⟨start, p.2, p.2, p.2, p.2, 1⟩]

/-- Buckets of width `bucketUs` aligned to the epoch, within `[t0, t1]`. -/
def TimeSeries.ohlc (s : TimeSeries) (t0 t1 : Ts) (bucketUs : ℤ) : Option (List Ohlc) :=
  if bucketUs ≤ 0 then some []
  else (s.range t0 t1).map fun ps => ps.foldl (take bucketUs) []

/-! ### What a series holds -/

namespace TimeSeries

theorem push_of_finite {s : TimeSeries} {v : Binary64} (h : isFinite v) (ts : Ts) :
    (s.push ts v).points = place (makeRoom s.cap s.points) (ts, v) := by
  rw [push, dif_pos h]

theorem push_of_not_finite {s : TimeSeries} {v : Binary64} (h : ¬isFinite v) (ts : Ts) : s.push ts v = s := by
  rw [push, dif_neg h]

@[simp] theorem push_cap (s : TimeSeries) (ts : Ts) (v : Binary64) : (s.push ts v).cap = s.cap := by
  unfold push
  split <;> rfl

theorem pushAll_snoc (s : TimeSeries) (arrivals : List Point) (p : Point) :
    s.pushAll (arrivals ++ [p]) = (s.pushAll arrivals).push p.1 p.2 := by
  rw [pushAll, List.foldl_append]
  rfl

theorem pushAll_cap (s : TimeSeries) (arrivals : List Point) : (s.pushAll arrivals).cap = s.cap := by
  induction arrivals using List.reverseRecOn with
  | nil => rfl
  | append_singleton arrivals p ih => rw [pushAll_snoc, push_cap, ih]

theorem push_perm {s : TimeSeries} {v : Binary64} (h : isFinite v) (ts : Ts) :
    (s.push ts v).points.Perm ((ts, v) :: makeRoom s.cap s.points) := by
  rw [push_of_finite h]
  exact place_perm (s.sorted.sublist (makeRoom_sublist s.cap s.points)) (ts, v)

/-- A series holds finite arrivals, all of them while they fit. -/
theorem pushAll_holds (cap : ℕ) (arrivals : List Point) :
    ((withCapacity cap).pushAll arrivals).points.Subperm (arrivals.filter fun p => isFinite p.2) ∧
      ((withCapacity cap).pushAll arrivals).points.length =
        min (max cap 1) (arrivals.filter fun p => isFinite p.2).length := by
  induction arrivals using List.reverseRecOn with
  | nil => exact ⟨List.Subperm.refl [], by simp [pushAll, withCapacity]⟩
  | append_singleton arrivals p ih =>
    obtain ⟨hsub, hlen⟩ := ih
    have hcap := pushAll_cap (withCapacity cap) arrivals
    rw [pushAll_snoc, List.filter_append]
    generalize (withCapacity cap).pushAll arrivals = s at hsub hlen hcap
    by_cases hp : isFinite p.2
    · have hperm := push_perm (s := s) hp p.1
      rw [List.filter_cons_of_pos (by simpa using hp), List.filter_nil]
      refine ⟨hperm.subperm.trans ?_, ?_⟩
      · have hroom : (makeRoom s.cap s.points).Subperm (arrivals.filter fun p => isFinite p.2) :=
          (makeRoom_sublist s.cap s.points).subperm.trans hsub
        exact ((List.subperm_cons p).mpr hroom).trans (List.perm_append_singleton p _).symm.subperm
      · have hcap' : s.cap = max cap 1 := hcap
        rw [hperm.length_eq, List.length_cons, List.length_append, List.length_singleton]
        unfold makeRoom
        split
        · rw [List.length_tail]
          omega
        · omega
    · rw [push_of_not_finite hp, List.filter_cons_of_neg (by simpa using hp), List.filter_nil, List.append_nil]
      exact ⟨hsub, hlen⟩

theorem makeRoom_rtake {cap : ℕ} (l : List Point) (n : ℕ) (h : cap = n + 1) : makeRoom cap (l.rtake cap) = l.rtake n := by
  have hlen : (l.rtake cap).length = min cap l.length := by
    rw [List.rtake, List.length_drop]
    omega
  unfold makeRoom
  split
  · rw [List.rtake, List.tail_drop, List.rtake]
    congr 1
    omega
  · rw [List.rtake, List.rtake]
    congr 1
    omega

theorem place_last {ps : List Point} {p : Point} (h : ∀ a ∈ ps, a.1.micros ≤ p.1.micros) : place ps p = ps ++ [p] := by
  unfold place
  split
  · rename_i last hlast
    have := h last (List.mem_of_getLast? hlast)
    rw [if_neg (by omega)]
  · rfl

/-- **Points that arrive in order.** The series holds the last of them. -/
theorem in_order_keeps_last (cap : ℕ) (arrivals : List Point) (h : Sorted arrivals) :
    ((withCapacity cap).pushAll arrivals).points =
      (arrivals.filter fun p => isFinite p.2).rtake (max cap 1) := by
  induction arrivals using List.reverseRecOn with
  | nil => exact (List.rtake_nil _).symm
  | append_singleton arrivals p ih =>
    obtain ⟨hbefore, -, hlast⟩ := List.pairwise_append.mp h
    have hpoints := ih hbefore
    have hcap := pushAll_cap (withCapacity cap) arrivals
    rw [pushAll_snoc, List.filter_append]
    generalize (withCapacity cap).pushAll arrivals = s at hpoints hcap
    by_cases hp : isFinite p.2
    · rw [List.filter_cons_of_pos (by simpa using hp), List.filter_nil, push_of_finite hp, place_last]
      · obtain ⟨n, hn⟩ : ∃ n, max cap 1 = n + 1 := ⟨max cap 1 - 1, by omega⟩
        rw [hn, List.rtake_concat_succ, hpoints]
        exact congrArg (· ++ [p]) ((congrArg (makeRoom · _) hcap).trans (makeRoom_rtake _ n hn))
      · intro a ha
        have ha' := (makeRoom_sublist s.cap s.points).subset ha
        rw [hpoints] at ha'
        have hmem := (List.mem_filter.mp (List.mem_of_mem_drop ha')).1
        exact hlast a hmem p List.mem_cons_self
    · rw [push_of_not_finite hp, List.filter_cons_of_neg (by simpa using hp), List.filter_nil, List.append_nil]
      exact hpoints

/-! ### What the queries find -/

/-- A range panics when a point lies between its ends the wrong way round. -/
theorem range_eq_none {s : TimeSeries} {t0 t1 : Ts} :
    s.range t0 t1 = none ↔ ∃ p ∈ s.points, t1.micros < p.1.micros ∧ p.1.micros < t0.micros := by
  have hle := partitionPoint_le (closed_before s.sorted t0.micros) (closed_until s.sorted t1.micros)
  unfold range
  simp only
  split
  · rename_i h
    refine iff_of_false (by simp) ?_
    rintro ⟨p, hp, h1, h0⟩
    have := hle.mp h p hp (decide_eq_true h0)
    simp only [decide_eq_true_eq] at this
    omega
  · rename_i h
    refine iff_of_true rfl ?_
    by_contra hno
    refine h (hle.mpr fun a ha hb => ?_)
    simp only [decide_eq_true_eq] at hb ⊢
    by_contra hafter
    exact hno ⟨a, ha, by omega, hb⟩

theorem range_eq_some {s : TimeSeries} {t0 t1 : Ts} {ps : List Point} (h : s.range t0 t1 = some ps) :
    ps = s.points.filter fun p => decide (t0.micros ≤ p.1.micros) && decide (p.1.micros ≤ t1.micros) := by
  have hbefore := closed_before s.sorted t0.micros
  have huntil := closed_until s.sorted t1.micros
  unfold range at h
  simp only at h
  split at h
  · rename_i hle
    cases h
    rw [between_eq_filter hbefore huntil ((partitionPoint_le hbefore huntil).mp hle)]
    refine List.filter_congr fun a _ => ?_
    rw [Bool.and_comm, ← decide_not]
    simp only [not_lt]
  · cases h

theorem valueAt_eq (s : TimeSeries) (ts : Ts) :
    s.valueAt ts = (s.points.filter fun p => decide (p.1.micros ≤ ts.micros)).getLast? :=
  (getLast?_filter (closed_until s.sorted ts.micros)).symm

theorem le_last {ps : List Point} (h : Sorted ps) {a : Point} (ha : ps.getLast? = some a) :
    ∀ b ∈ ps, b.1.micros ≤ a.1.micros := by
  rcases List.eq_nil_or_concat' ps with rfl | ⟨init, last, rfl⟩
  · cases ha
  · rw [List.getLast?_concat, Option.some.injEq] at ha
    subst ha
    intro b hb
    rcases List.mem_append.mp hb with hb | hb
    · exact (List.pairwise_append.mp h).2.2 b hb last List.mem_cons_self
    · rw [List.mem_singleton.mp hb]

theorem first_le {ps : List Point} (h : Sorted ps) {a : Point} (ha : ps.head? = some a) :
    ∀ b ∈ ps, a.1.micros ≤ b.1.micros := by
  cases ps with
  | nil => cases ha
  | cons c ps =>
    cases ha
    intro b hb
    rcases List.mem_cons.mp hb with rfl | hb
    · exact le_rfl
    · exact (List.pairwise_cons.mp h).1 b hb

theorem nearest_eq (s : TimeSeries) (ts : Ts) :
    s.nearest ts = nearer ts (s.points.filter fun p => decide (p.1.micros < ts.micros)).getLast?
      (s.points.filter fun p => !decide (p.1.micros < ts.micros)).head? := by
  have hbefore := closed_before s.sorted ts.micros
  rw [getLast?_filter hbefore, head?_filter_not hbefore]
  unfold nearest
  simp only [Nat.pos_iff_ne_zero, ne_eq, ite_not]

/-- How far apart two times are. -/
def apart (t u : Ts) : ℕ := (t.micros - u.micros).natAbs

/-- The sample found is in the series, none is closer, and those as close are no earlier. -/
structure Closest (s : TimeSeries) (ts : Ts) (r : Point) : Prop where
  mem : r ∈ s.points
  closest : ∀ p ∈ s.points, apart r.1 ts ≤ apart p.1 ts
  earlier : ∀ p ∈ s.points, apart r.1 ts = apart p.1 ts → r.1.micros ≤ p.1.micros

/-- Of the samples on either side of a time, the nearest of each is near enough to be measured. -/
def InReach (s : TimeSeries) (ts : Ts) : Prop :=
  (∃ b ∈ s.points, b.1.micros < ts.micros) → (∃ a ∈ s.points, ts.micros ≤ a.1.micros) →
    (∃ b ∈ s.points, b.1.micros < ts.micros ∧ ts.micros - b.1.micros ≤ i64Max) ∧
      ∃ a ∈ s.points, ts.micros ≤ a.1.micros ∧ a.1.micros - ts.micros ≤ i64Max

/-- Which of the two samples is nearer, as two `i64`s tell it: the nearer one unless a difference leaves the type. -/
theorem nearer_some {ts : Ts} {b a : Point} (hb : IsI64 b.1.micros) (ha : IsI64 a.1.micros) (ht : IsI64 ts.micros)
    (hbefore : b.1.micros < ts.micros) (hafter : ts.micros ≤ a.1.micros) :
    nearer ts (some b) (some a) = some b ∧ a.1.micros - ts.micros ≤ i64Max ∧
        (ts.micros - b.1.micros ≤ a.1.micros - ts.micros ∨ i64Max < ts.micros - b.1.micros) ∨
      nearer ts (some b) (some a) = some a ∧ ts.micros - b.1.micros ≤ i64Max ∧
        (a.1.micros - ts.micros < ts.micros - b.1.micros ∨ i64Max < a.1.micros - ts.micros) := by
  have hold := wrapI64_sub ht hb
  have hnew := wrapI64_sub ha ht
  by_cases hnear : b.1.since ts ≤ ts.since a.1
  · refine .inl ⟨by rw [nearer, if_pos hnear], ?_⟩
    unfold Ts.since at hnear
    unfold IsI64 i64Min i64Max at *
    omega
  · refine .inr ⟨by rw [nearer, if_neg hnear], ?_⟩
    unfold Ts.since at hnear
    unfold IsI64 i64Min i64Max at *
    omega

/-! ### The samples on either side of a time -/

section Sides

variable {s : TimeSeries} {ts : Ts} {a b r : Point}

/-- The last sample before a time. -/
structure LastBefore (s : TimeSeries) (ts : Ts) (b : Point) : Prop where
  mem : b ∈ s.points
  before : b.1.micros < ts.micros
  last : ∀ p ∈ s.points, p.1.micros < ts.micros → p.1.micros ≤ b.1.micros

/-- The first sample that is not before it. -/
structure FirstFrom (s : TimeSeries) (ts : Ts) (a : Point) : Prop where
  mem : a ∈ s.points
  after : ts.micros ≤ a.1.micros
  first : ∀ p ∈ s.points, ts.micros ≤ p.1.micros → a.1.micros ≤ p.1.micros

theorem lastBefore_of (h : (s.points.filter fun p => decide (p.1.micros < ts.micros)).getLast? = some b) :
    LastBefore s ts b := by
  obtain ⟨hmem, hlt⟩ := List.mem_filter.mp (List.mem_of_getLast? h)
  refine ⟨hmem, of_decide_eq_true hlt, fun p hp hlt => ?_⟩
  exact le_last (s.sorted.filter _) h p (List.mem_filter.mpr ⟨hp, decide_eq_true hlt⟩)

theorem firstFrom_of (h : (s.points.filter fun p => !decide (p.1.micros < ts.micros)).head? = some a) :
    FirstFrom s ts a := by
  obtain ⟨hmem, hge⟩ := List.mem_filter.mp (List.mem_of_head? h)
  refine ⟨hmem, by simpa using hge, fun p hp hge => ?_⟩
  exact first_le (s.sorted.filter _) h p (List.mem_filter.mpr ⟨hp, by simpa using hge⟩)

/-- What `nearest` chooses between. -/
inductive Sides (s : TimeSeries) (ts : Ts) : Prop
  | empty : s.points = [] → s.nearest ts = none → Sides s ts
  | before {b : Point} : LastBefore s ts b → (∀ p ∈ s.points, p.1.micros < ts.micros) → s.nearest ts = some b → Sides s ts
  | after {a : Point} : FirstFrom s ts a → (∀ p ∈ s.points, ts.micros ≤ p.1.micros) → s.nearest ts = some a → Sides s ts
  | both {b a : Point} : LastBefore s ts b → FirstFrom s ts a → s.nearest ts = nearer ts (some b) (some a) → Sides s ts

theorem sides (s : TimeSeries) (ts : Ts) : Sides s ts := by
  have hnearest := nearest_eq s ts
  have hnone : (s.points.filter fun p => decide (p.1.micros < ts.micros)).getLast? = none →
      ∀ p ∈ s.points, ts.micros ≤ p.1.micros := fun h p hp => by
    have := List.filter_eq_nil_iff.mp (List.getLast?_eq_none_iff.mp h) p hp
    simpa using this
  have hall : (s.points.filter fun p => !decide (p.1.micros < ts.micros)).head? = none →
      ∀ p ∈ s.points, p.1.micros < ts.micros := fun h p hp => by
    have := List.filter_eq_nil_iff.mp (List.head?_eq_none_iff.mp h) p hp
    simpa using this
  cases hb : (s.points.filter fun p => decide (p.1.micros < ts.micros)).getLast? with
  | none =>
    cases ha : (s.points.filter fun p => !decide (p.1.micros < ts.micros)).head? with
    | none =>
      refine .empty (List.eq_nil_iff_forall_not_mem.mpr fun p hp => ?_) (by rw [hnearest, hb, ha]; rfl)
      exact absurd (hall ha p hp) (not_lt.mpr (hnone hb p hp))
    | some a => exact .after (firstFrom_of ha) (hnone hb) (by rw [hnearest, hb, ha]; rfl)
  | some b =>
    cases ha : (s.points.filter fun p => !decide (p.1.micros < ts.micros)).head? with
    | none => exact .before (lastBefore_of hb) (hall ha) (by rw [hnearest, hb, ha]; rfl)
    | some a => exact .both (lastBefore_of hb) (firstFrom_of ha) (by rw [hnearest, hb, ha])

theorem closest_of (hr : r ∈ s.points) (hdist : ∀ p ∈ s.points,
    apart r.1 ts ≤ apart p.1 ts ∧ r.1.micros ≤ p.1.micros ∨ apart r.1 ts < apart p.1 ts) : s.Closest ts r := by
  refine ⟨hr, fun p hp => ?_, fun p hp heq => ?_⟩
  · rcases hdist p hp with hd | hd
    · exact hd.1
    · exact hd.le
  · rcases hdist p hp with hd | hd
    · exact hd.2
    · exact absurd heq hd.ne

/-- Of those before it, the last is the closest. -/
theorem LastBefore.closest (h : LastBefore s ts b)
    (hafter : ∀ p ∈ s.points, ts.micros ≤ p.1.micros → ts.micros - b.1.micros ≤ p.1.micros - ts.micros) :
    s.Closest ts b := by
  refine closest_of h.mem fun p hp => ?_
  have hbefore := h.before
  have hlast := h.last p hp
  have hafter := hafter p hp
  unfold apart
  omega

/-- And of the others the first, if it is closer than those before. -/
theorem FirstFrom.closest (h : FirstFrom s ts a)
    (hbefore : ∀ p ∈ s.points, p.1.micros < ts.micros → a.1.micros - ts.micros < ts.micros - p.1.micros) :
    s.Closest ts a := by
  refine closest_of h.mem fun p hp => ?_
  have hafter := h.after
  have hfirst := h.first p hp
  have hbefore := hbefore p hp
  unfold apart
  omega

/-- In reach the two differences are what they should be. -/
theorem inReach_iff (hb : LastBefore s ts b) (ha : FirstFrom s ts a) :
    s.InReach ts ↔ ts.micros - b.1.micros ≤ i64Max ∧ a.1.micros - ts.micros ≤ i64Max := by
  constructor
  · intro hin
    obtain ⟨⟨b', hb', hlt, hbfit⟩, a', ha', hge, hafit⟩ := hin ⟨b, hb.mem, hb.before⟩ ⟨a, ha.mem, ha.after⟩
    have hbb' := hb.last b' hb' hlt
    have haa' := ha.first a' ha' hge
    omega
  · exact fun hfit _ _ => ⟨⟨b, hb.mem, hb.before, hfit.1⟩, a, ha.mem, ha.after, hfit.2⟩

theorem nearest_eq_some (h : s.nearest ts = some r) (hpoints : ∀ p ∈ s.points, IsI64 p.1.micros)
    (ht : IsI64 ts.micros) : s.Closest ts r ↔ s.InReach ts := by
  cases sides s ts with
  | empty _ hnearest => exact nomatch hnearest.symm.trans h
  | before hb hall hnearest =>
    obtain rfl := Option.some.inj (hnearest.symm.trans h)
    refine iff_of_true (hb.closest fun p hp hge => absurd (hall p hp) (not_lt.mpr hge)) ?_
    rintro - ⟨a, ha, hge⟩
    exact absurd (hall a ha) (not_lt.mpr hge)
  | after ha hall hnearest =>
    obtain rfl := Option.some.inj (hnearest.symm.trans h)
    refine iff_of_true (ha.closest fun p hp hlt => absurd hlt (not_lt.mpr (hall p hp))) ?_
    rintro ⟨b, hb, hlt⟩
    exact absurd hlt (not_lt.mpr (hall b hb))
  | @both b a hb ha hnearest =>
    rw [inReach_iff hb ha]
    have hbi := hpoints b hb.mem
    have hai := hpoints a ha.mem
    rcases nearer_some hbi hai ht hb.before ha.after with ⟨hpick, hfar, hnear⟩ | ⟨hpick, hfar, hnear⟩
    · obtain rfl := Option.some.inj (hpick.symm.trans (hnearest.symm.trans h))
      constructor
      · intro hclosest
        have hle := hclosest.closest a ha.mem
        have hbefore := hb.before
        have hafter := ha.after
        unfold apart at hle
        unfold IsI64 i64Min i64Max at *
        omega
      · intro hfit
        refine hb.closest fun p hp hge => ?_
        have hfirst := ha.first p hp hge
        omega
    · obtain rfl := Option.some.inj (hpick.symm.trans (hnearest.symm.trans h))
      constructor
      · intro hclosest
        have hle := hclosest.closest b hb.mem
        have hbefore := hb.before
        have hafter := ha.after
        unfold apart at hle
        unfold IsI64 i64Min i64Max at *
        omega
      · intro hfit
        refine ha.closest fun p hp hlt => ?_
        have hlast := hb.last p hp hlt
        omega

theorem nearest_eq_none : s.nearest ts = none ↔ s.points = [] := by
  cases sides s ts with
  | empty hnil hnearest => exact iff_of_true hnearest hnil
  | before hb _ hnearest => exact iff_of_false (by rw [hnearest]; nofun) (List.ne_nil_of_mem hb.mem)
  | after ha _ hnearest => exact iff_of_false (by rw [hnearest]; nofun) (List.ne_nil_of_mem ha.mem)
  | both hb _ hnearest =>
    refine iff_of_false ?_ (List.ne_nil_of_mem hb.mem)
    rw [hnearest, nearer]
    split <;> nofun

end Sides

end TimeSeries

/-! ### What the bars say -/

theorem value_of_isFinite {v : Binary64} (h : isFinite v) : v.value = some v.val := by
  cases v with
  | nan => cases h
  | inf s => cases h
  | fin x => rfl

theorem maximum_finite {v w : Binary64} (hv : isFinite v) (hw : isFinite w) :
    (FloatOps.maximum v w = v ∨ FloatOps.maximum v w = w) ∧ (FloatOps.maximum v w).val = max v.val w.val := by
  refine ⟨?_, Binary64.val_eq (Binary64.value_maximum (value_of_isFinite hv) (value_of_isFinite hw))⟩
  cases v with
  | nan => cases hv
  | inf s => cases hv
  | fin x =>
    cases w with
    | nan => cases hw
    | inf s => cases hw
    | fin y =>
      show (if Binary64.lt (.fin x) (.fin y) then Binary64.fin y else .fin x) = .fin x ∨
        (if Binary64.lt (.fin x) (.fin y) then Binary64.fin y else .fin x) = .fin y
      split
      · exact .inr rfl
      · exact .inl rfl

theorem minimum_finite {v w : Binary64} (hv : isFinite v) (hw : isFinite w) :
    (FloatOps.minimum v w = v ∨ FloatOps.minimum v w = w) ∧ (FloatOps.minimum v w).val = min v.val w.val := by
  refine ⟨?_, Binary64.val_eq (Binary64.value_minimum (value_of_isFinite hv) (value_of_isFinite hw))⟩
  cases v with
  | nan => cases hv
  | inf s => cases hv
  | fin x =>
    cases w with
    | nan => cases hw
    | inf s => cases hw
    | fin y =>
      show (if Binary64.lt (.fin y) (.fin x) then Binary64.fin y else .fin x) = .fin x ∨
        (if Binary64.lt (.fin y) (.fin x) then Binary64.fin y else .fin x) = .fin y
      split
      · exact .inr rfl
      · exact .inl rfl

theorem mem_concat_of_eq {α : Type} {l : List α} {x y z : α} (h : x = y ∨ x = z) (hy : y ∈ l) : x ∈ l ++ [z] := by
  rcases h with rfl | rfl
  · exact List.mem_append_left _ hy
  · exact List.mem_append_right _ (List.mem_singleton_self x)

/-- A bar of these points, the first of them first. -/
structure Summarizes (c : Ohlc) (ps : List Point) : Prop where
  opens : ps.head?.map Prod.snd = some c.open_
  closes : ps.getLast?.map Prod.snd = some c.close
  high_mem : c.high ∈ ps.map Prod.snd
  le_high : ∀ p ∈ ps, p.2.val ≤ c.high.val
  low_mem : c.low ∈ ps.map Prod.snd
  low_le : ∀ p ∈ ps, c.low.val ≤ p.2.val
  counts : c.samples = wrapU32 ps.length

theorem summarizes_one (start : Ts) (p : Point) : Summarizes ⟨start, p.2, p.2, p.2, p.2, 1⟩ [p] where
  opens := rfl
  closes := rfl
  high_mem := by simp
  le_high := by simp
  low_mem := by simp
  low_le := by simp
  counts := rfl

theorem Summarizes.exists_mem {c : Ohlc} {ps : List Point} (h : Summarizes c ps) : ∃ p, p ∈ ps := by
  obtain ⟨p, hp, -⟩ := List.mem_map.mp h.high_mem
  exact ⟨p, hp⟩

theorem Summarizes.add {c : Ohlc} {ps : List Point} (h : Summarizes c ps) (hf : ∀ p ∈ ps, isFinite p.2) {p : Point}
    (hp : isFinite p.2) : Summarizes (c.add p.2) (ps ++ [p]) := by
  obtain ⟨a, ha, hhigh⟩ := List.mem_map.mp h.high_mem
  obtain ⟨b, hb, hlow⟩ := List.mem_map.mp h.low_mem
  have hmax := maximum_finite (hhigh ▸ hf a ha) hp
  have hmin := minimum_finite (hlow ▸ hf b hb) hp
  refine ⟨?_, by simp [Ohlc.add], ?_, fun q hq => ?_, ?_, fun q hq => ?_, ?_⟩
  · have hopen := h.opens
    cases ps with
    | nil => cases hopen
    | cons q ps => exact hopen
  · rw [List.map_append]
    exact mem_concat_of_eq hmax.1 h.high_mem
  · refine le_trans ?_ hmax.2.ge
    rcases List.mem_append.mp hq with hq | hq
    · exact le_max_of_le_left (h.le_high q hq)
    · rw [List.mem_singleton.mp hq]
      exact le_max_right _ _
  · rw [List.map_append]
    exact mem_concat_of_eq hmin.1 h.low_mem
  · refine le_trans hmin.2.le ?_
    rcases List.mem_append.mp hq with hq | hq
    · exact min_le_of_left_le (h.low_le q hq)
    · rw [List.mem_singleton.mp hq]
      exact min_le_right _ _
  · show wrapU32 (c.samples + 1) = _
    rw [h.counts, List.length_append, List.length_singleton, wrapU32, wrapU32, wrapU32, Nat.mod_add_mod]

/-- The bars of these points: one for each bucket a point falls in, in order of time. -/
structure Bars (bucketUs : ℤ) (ps : List Point) (out : List Ohlc) : Prop where
  rising : out.Pairwise fun c d => c.start.micros < d.start.micros
  sums : ∀ c ∈ out, Summarizes c (ps.filter fun p => decide (bucketStart bucketUs p.1 = c.start))
  covers : ∀ p ∈ ps, ∃ c ∈ out, c.start = bucketStart bucketUs p.1

/-- The bucket of this time begins within an `i64`. -/
def BucketFits (bucketUs : ℤ) (t : Ts) : Prop := IsI64 (t.micros / bucketUs * bucketUs)

theorem bucketStart_mono {bucketUs : ℤ} (hb : 0 < bucketUs) {t u : Ts} (h : t.micros ≤ u.micros)
    (ht : BucketFits bucketUs t) (hu : BucketFits bucketUs u) :
    (bucketStart bucketUs t).micros ≤ (bucketStart bucketUs u).micros := by
  unfold bucketStart
  rw [ht.wrap, hu.wrap]
  exact Int.mul_le_mul_of_nonneg_right (Int.ediv_le_ediv hb h) hb.le

theorem Bars.own {bucketUs : ℤ} {ps : List Point} {out : List Ohlc} (h : Bars bucketUs ps out) {p : Point}
    (hlater : ∀ c ∈ out, c.start.micros < (bucketStart bucketUs p.1).micros) :
    Bars bucketUs (ps ++ [p]) (out ++ [⟨bucketStart bucketUs p.1, p.2, p.2, p.2, p.2, 1⟩]) := by
  refine ⟨?_, fun c hc => ?_, fun q hq => ?_⟩
  · refine List.pairwise_append.mpr ⟨h.rising, List.pairwise_singleton _ _, fun c hc d hd => ?_⟩
    rw [List.mem_singleton.mp hd]
    exact hlater c hc
  · rw [List.filter_append]
    rcases List.mem_append.mp hc with hc | hc
    · have hne : bucketStart bucketUs p.1 ≠ c.start := fun heq => by
        have := hlater c hc
        rw [heq] at this
        omega
      rw [List.filter_cons_of_neg (by simpa using hne), List.filter_nil, List.append_nil]
      exact h.sums c hc
    · rw [List.mem_singleton.mp hc]
      -- no point before it falls in its bucket: that one would have a bar
      have hnone : ps.filter (fun q => decide (bucketStart bucketUs q.1 = bucketStart bucketUs p.1)) = [] := by
        refine List.filter_eq_nil_iff.mpr fun q hq heq => ?_
        obtain ⟨d, hd, hstart⟩ := h.covers q hq
        have := hlater d hd
        rw [hstart, of_decide_eq_true heq] at this
        omega
      rw [hnone, List.filter_cons_of_pos (by simp), List.filter_nil]
      exact summarizes_one _ p
  · rcases List.mem_append.mp hq with hq | hq
    · obtain ⟨d, hd, hstart⟩ := h.covers q hq
      exact ⟨d, List.mem_append_left _ hd, hstart⟩
    · rw [List.mem_singleton.mp hq]
      exact ⟨_, List.mem_append_right _ (List.mem_singleton_self _), rfl⟩

theorem Bars.join {bucketUs : ℤ} {ps : List Point} {out : List Ohlc} {c : Ohlc} (h : Bars bucketUs ps (out ++ [c]))
    (hf : ∀ q ∈ ps, isFinite q.2) {p : Point} (hp : isFinite p.2) (hstart : c.start = bucketStart bucketUs p.1) :
    Bars bucketUs (ps ++ [p]) (out ++ [c.add p.2]) := by
  obtain ⟨hout, -, hcross⟩ := List.pairwise_append.mp h.rising
  refine ⟨?_, fun d hd => ?_, fun q hq => ?_⟩
  · refine List.pairwise_append.mpr ⟨hout, List.pairwise_singleton _ _, fun d hd e he => ?_⟩
    rw [List.mem_singleton.mp he]
    exact hcross d hd c (List.mem_singleton_self c)
  · rw [List.filter_append]
    rcases List.mem_append.mp hd with hd | hd
    · have hne : bucketStart bucketUs p.1 ≠ d.start := fun heq => by
        have := hcross d hd c (List.mem_singleton_self c)
        rw [hstart, heq] at this
        omega
      rw [List.filter_cons_of_neg (by simpa using hne), List.filter_nil, List.append_nil]
      exact h.sums d (List.mem_append_left _ hd)
    · have hown : [p].filter (fun q => decide (bucketStart bucketUs q.1 = (c.add p.2).start)) = [p] := by
        rw [List.filter_eq_self]
        intro q hq
        rw [List.mem_singleton.mp hq]
        exact decide_eq_true hstart.symm
      rw [List.mem_singleton.mp hd, hown]
      exact (h.sums c (List.mem_append_right _ (List.mem_singleton_self c))).add
        (fun q hq => hf q (List.mem_filter.mp hq).1) hp
  · rcases List.mem_append.mp hq with hq | hq
    · obtain ⟨d, hd, hds⟩ := h.covers q hq
      rcases List.mem_append.mp hd with hd | hd
      · exact ⟨d, List.mem_append_left _ hd, hds⟩
      · refine ⟨c.add p.2, List.mem_append_right _ (List.mem_singleton_self _), ?_⟩
        rw [← hds, List.mem_singleton.mp hd]
        rfl
    · rw [List.mem_singleton.mp hq]
      exact ⟨c.add p.2, List.mem_append_right _ (List.mem_singleton_self _), hstart⟩

theorem Bars.take {bucketUs : ℤ} (hb : 0 < bucketUs) {ps : List Point} {out : List Ohlc} (h : Bars bucketUs ps out)
    (hf : ∀ q ∈ ps, isFinite q.2) {p : Point} (hp : isFinite p.2) (hlast : ∀ q ∈ ps, q.1.micros ≤ p.1.micros)
    (hfits : ∀ q ∈ ps ++ [p], BucketFits bucketUs q.1) :
    Bars bucketUs (ps ++ [p]) (Series.take bucketUs out p) := by
  rcases List.eq_nil_or_concat' out with rfl | ⟨init, c, rfl⟩
  · exact h.own (fun c hc => by cases hc)
  · unfold Series.take
    simp only [List.getLast?_concat, List.dropLast_concat]
    split
    · rename_i hstart
      exact h.join hf hp hstart
    · rename_i hne
      refine h.own fun d hd => ?_
      -- the last bar has a point, and that is no later than `p`
      obtain ⟨q, hq⟩ := (h.sums c (List.mem_append_right _ (List.mem_singleton_self c))).exists_mem
      obtain ⟨hqs, hqc⟩ := List.mem_filter.mp hq
      have hle := bucketStart_mono hb (hlast q hqs) (hfits q (List.mem_append_left _ hqs))
        (hfits p (List.mem_append_right _ (List.mem_singleton_self p)))
      rw [of_decide_eq_true hqc] at hle
      have hlt : c.start.micros < (bucketStart bucketUs p.1).micros := by
        refine lt_of_le_of_ne hle fun heq => hne ?_
        exact congrArg Ts.mk heq
      rcases List.mem_append.mp hd with hd | hd
      · have := (List.pairwise_append.mp h.rising).2.2 d hd c (List.mem_singleton_self c)
        omega
      · rw [List.mem_singleton.mp hd]
        exact hlt

theorem bars_fold {bucketUs : ℤ} (hb : 0 < bucketUs) (ps : List Point) (hs : Sorted ps) (hf : ∀ q ∈ ps, isFinite q.2)
    (hfits : ∀ q ∈ ps, BucketFits bucketUs q.1) :
    Bars bucketUs ps (ps.foldl (Series.take bucketUs) []) := by
  induction ps using List.reverseRecOn with
  | nil =>
    exact ⟨List.Pairwise.nil, fun c hc => absurd hc List.not_mem_nil, fun p hp => absurd hp List.not_mem_nil⟩
  | append_singleton ps p ih =>
    obtain ⟨hbefore, -, hlast⟩ := List.pairwise_append.mp hs
    have hps : ∀ q ∈ ps, isFinite q.2 := fun q hq => hf q (List.mem_append_left _ hq)
    rw [List.foldl_append, List.foldl_cons, List.foldl_nil]
    exact (ih hbefore hps fun q hq => hfits q (List.mem_append_left _ hq)).take hb hps
      (hf p (List.mem_append_right _ (List.mem_singleton_self p))) (fun q hq => hlast q hq p (List.mem_singleton_self p)) hfits

/-- The least and the greatest of the values of these points, if there are any. -/
def Extremes (ps : List Point) : Option (Binary64 × Binary64) → Prop
  | none => ps = []
  | some (lo, hi) => (lo ∈ ps.map Prod.snd ∧ ∀ p ∈ ps, lo.val ≤ p.2.val) ∧ hi ∈ ps.map Prod.snd ∧ ∀ p ∈ ps, p.2.val ≤ hi.val

theorem extremes_fold (ps : List Point) (hf : ∀ q ∈ ps, isFinite q.2) :
    Extremes ps (ps.foldl TimeSeries.widen none) := by
  induction ps using List.reverseRecOn with
  | nil => rfl
  | append_singleton ps p ih =>
    have hps : ∀ q ∈ ps, isFinite q.2 := fun q hq => hf q (List.mem_append_left _ hq)
    have hp := hf p (List.mem_append_right _ (List.mem_singleton_self p))
    have hbefore := ih hps
    rw [List.foldl_append, List.foldl_cons, List.foldl_nil]
    cases hacc : ps.foldl TimeSeries.widen none with
    | none =>
      rw [hacc] at hbefore
      rw [show ps = [] from hbefore]
      simp [TimeSeries.widen, Extremes]
    | some acc =>
      obtain ⟨lo, hi⟩ := acc
      rw [hacc] at hbefore
      obtain ⟨⟨hlo, hlow⟩, hhi, hhigh⟩ := hbefore
      -- the two are the low and the high of a bar of these points
      obtain ⟨a, ha, halo⟩ := List.mem_map.mp hlo
      obtain ⟨b, hb, hbhi⟩ := List.mem_map.mp hhi
      have hmin := minimum_finite (halo ▸ hps a ha) hp
      have hmax := maximum_finite (hbhi ▸ hps b hb) hp
      refine ⟨⟨?_, fun q hq => ?_⟩, ?_, fun q hq => ?_⟩
      · rw [List.map_append]
        exact mem_concat_of_eq hmin.1 hlo
      · refine le_trans hmin.2.le ?_
        rcases List.mem_append.mp hq with hq | hq
        · exact min_le_of_left_le (hlow q hq)
        · rw [List.mem_singleton.mp hq]
          exact min_le_right _ _
      · rw [List.map_append]
        exact mem_concat_of_eq hmax.1 hhi
      · refine le_trans ?_ hmax.2.ge
        rcases List.mem_append.mp hq with hq | hq
        · exact le_max_of_le_left (hhigh q hq)
        · rw [List.mem_singleton.mp hq]
          exact le_max_right _ _

/-! ### Main results -/

/-- The points of a series from `t0` to `t1`. -/
def window (s : TimeSeries) (t0 t1 : Ts) : List Point :=
  s.points.filter fun p => decide (t0.micros ≤ p.1.micros) && decide (p.1.micros ≤ t1.micros)

/-- A point lies after `t1` and before `t0`. -/
def Crosses (s : TimeSeries) (t0 t1 : Ts) : Prop := ∃ p ∈ s.points, t1.micros < p.1.micros ∧ p.1.micros < t0.micros

/-- What a series holds of its arrivals, and what it answers. -/
structure Scanned (cap : ℕ) (arrivals : List Point) (s : TimeSeries) : Prop where
  sorted : Sorted s.points
  arrived : s.points.Subperm (arrivals.filter fun p => isFinite p.2)
  length : s.points.length = min (max cap 1) (arrivals.filter fun p => isFinite p.2).length
  newest : Sorted arrivals → s.points = (arrivals.filter fun p => isFinite p.2).rtake (max cap 1)
  range : ∀ t0 t1 ps, s.range t0 t1 = some ps → ps = window s t0 t1
  panics : ∀ t0 t1, s.range t0 t1 = none ↔ Crosses s t0 t1
  valueAt : ∀ ts, s.valueAt ts = (s.points.filter fun p => decide (p.1.micros ≤ ts.micros)).getLast?
  nearest : ∀ ts r, s.nearest ts = some r → (∀ p ∈ s.points, IsI64 p.1.micros) → IsI64 ts.micros →
    (s.Closest ts r ↔ s.InReach ts)
  unanswered : ∀ ts, s.nearest ts = none ↔ s.points = []

example : (((TimeSeries.withCapacity 3).pushAll [(⟨10⟩, FloatOps.lit 1), (⟨30⟩, FloatOps.lit 3), (⟨20⟩, FloatOps.lit 2),
    (⟨40⟩, FloatOps.lit 4)]).points.map fun p => p.1.micros) = [20, 30, 40] := by decide +kernel

end Series
end MobiusSearcher
