/-
# The scheduler of the strategies

`crates/strategy/src/scheduler.rs`: smooth weighted round-robin across the
strategies of positive weight. `nextPlan` raises every entry by its strategy's
weight, takes the total off the greatest (the earliest of equals) and asks that
strategy for its next cycle. A strategy rotates through its cycles: the three of
`strategies.rs` differ in the cycles they have.

A running value is an integer: with no more than 2^15 strategies none leaves
an `i64` (`cur_lt`).

Key definitions: `Strategy`, `Strategy.nextPlan`, `Scheduler.new`,
`Scheduler.best`, `Scheduler.nextPlan`, `Scheduler.picks`, `Scheduler.handed`.
Key theorems: `Scheduler.best_spec`, `Scheduler.turns`, `Scheduler.handed_eq`,
`Scheduler.exactly_proportional`.
-/
import MobiusSearcher.Lib.Robin
import Mathlib.Data.Nat.Count
import Mathlib.Data.Prod.Lex

namespace MobiusSearcher

/-! ### Strategies -/

/-- The cycles a strategy can evaluate, and which is next. -/
structure Strategy (Plan : Type*) where
  weight : UInt32
  plans : List Plan
  cursor : ℕ
  deriving Repr

variable {Plan : Type*}

namespace Strategy

/-- Base, quote and back to base: one cycle. -/
def roundTrip (weight : UInt32) (plan : Plan) : Strategy Plan := ⟨weight, [plan], 0⟩

/-- Every ordered pair of different dexes. -/
def pairs (dexes : List String) : List (String × String) :=
  dexes.flatMap fun a => (dexes.filter (a ≠ ·)).map fun b => (a, b)

/-- Bought on one dex, sold on another. -/
def crossDex (weight : UInt32) (dexes : List String) (planFor : String → String → Plan) : Strategy Plan :=
  ⟨weight, (pairs dexes).map fun p => planFor p.1 p.2, 0⟩

/-- A cycle of three tokens or more, or none. -/
def triangular {Token : Type*} (weight : UInt32) (cycle : List Token) (plan : List Token → Plan) : Strategy Plan :=
  ⟨weight, if cycle.length < 3 then [] else [plan cycle], 0⟩

/-- Next cycle to evaluate. -/
def nextPlan (s : Strategy Plan) : Option Plan × Strategy Plan :=
  if s.plans.isEmpty then (none, s)
  else (s.plans[s.cursor % s.plans.length]?, { s with cursor := (s.cursor + 1) % s.plans.length })

@[simp] theorem nextPlan_weight (s : Strategy Plan) : s.nextPlan.2.weight = s.weight := by
  unfold nextPlan
  split <;> rfl

theorem nextPlan_fst (s : Strategy Plan) : s.nextPlan.1 = s.plans[s.cursor % s.plans.length]? := by
  unfold nextPlan
  split
  · rename_i hempty
    simp [List.isEmpty_iff.mp hempty]
  · rfl

@[simp] theorem nextPlan_plans (s : Strategy Plan) : s.nextPlan.2.plans = s.plans := by
  unfold nextPlan
  split <;> rfl

theorem nextPlan_cursor {s : Strategy Plan} (h : s.plans ≠ []) :
    s.nextPlan.2.cursor % s.plans.length = (s.cursor + 1) % s.plans.length := by
  unfold nextPlan
  rw [if_neg (by simpa using h)]
  exact Nat.mod_mod _ _

end Strategy

/-! ### Picking one -/

/-- `max_by_key`: the last of the elements whose key is greatest. -/
def maxByKey {α β : Type*} [LinearOrder β] (key : α → β) : List α → Option α
  | [] => none
  | a :: l => some (l.foldl (fun best b => if key best ≤ key b then b else best) a)

theorem foldl_maxByKey {α β : Type*} [LinearOrder β] (key : α → β) : ∀ (l : List α) (a : α),
    l.foldl (fun best b => if key best ≤ key b then b else best) a ∈ a :: l ∧
      ∀ b ∈ a :: l, key b ≤ key (l.foldl (fun best b => if key best ≤ key b then b else best) a)
  | [], a => by simp
  | b :: l, a => by
    have ih := foldl_maxByKey key l (if key a ≤ key b then b else a)
    rw [List.foldl_cons]
    simp only [List.mem_cons, forall_eq_or_imp] at ih ⊢
    obtain ⟨hmem, hfirst, hrest⟩ := ih
    split at hmem
    · rename_i hle
      rw [if_pos hle] at hfirst hrest ⊢
      exact ⟨Or.inr hmem, hle.trans hfirst, hfirst, hrest⟩
    · rename_i hle
      rw [if_neg hle] at hfirst hrest ⊢
      exact ⟨hmem.imp_right Or.inr, hfirst, (not_le.mp hle).le.trans hfirst, hrest⟩

theorem maxByKey_eq_some {α β : Type*} [LinearOrder β] {key : α → β} {l : List α} {a : α}
    (h : maxByKey key l = some a) : a ∈ l ∧ ∀ b ∈ l, key b ≤ key a := by
  cases l with
  | nil => exact absurd h (by simp [maxByKey])
  | cons b l =>
    obtain rfl := Option.some.inj h
    exact foldl_maxByKey key l b

/-- The strategies of positive weight, each with its running value. -/
structure Scheduler (Plan : Type*) where
  entries : List (Strategy Plan × ℤ)
  deriving Repr

namespace Scheduler

def new (strategies : List (Strategy Plan)) : Scheduler Plan :=
  ⟨(strategies.filter fun s => 0 < s.weight).map fun s => (s, 0)⟩

def total (s : Scheduler Plan) : ℤ := (s.entries.map fun e => (e.1.weight.toNat : ℤ)).sum

/-- Every value raised by its strategy's weight. -/
def raised (s : Scheduler Plan) : List (Strategy Plan × ℤ) := s.entries.map fun e => (e.1, e.2 + e.1.weight.toNat)

/-- The entry of the greatest value: the earliest of equals. -/
def best (entries : List (Strategy Plan × ℤ)) : Option ℕ :=
  (maxByKey (fun p : (Strategy Plan × ℤ) × ℕ => toLex (p.1.2, -(p.2 : ℤ))) entries.zipIdx).map Prod.snd

def nextPlan (s : Scheduler Plan) : Option Plan × Scheduler Plan :=
  match best s.raised with
  | none => (none, s)
  | some i =>
    match s.raised[i]? with
    | none => (none, s)
    | some (strategy, cur) =>
      (strategy.nextPlan.1, ⟨s.raised.set i (strategy.nextPlan.2, cur - s.total)⟩)

/-! ### The picks of a run -/

/-- The scheduler after `k` picks. -/
def after (s : Scheduler Plan) (k : ℕ) : Scheduler Plan := (fun s => s.nextPlan.2)^[k] s

/-- Which entry the next pick takes. -/
def pick (s : Scheduler Plan) : Option ℕ := best s.raised

/-- What the `m` picks after the first `k` take. -/
def picks (s : Scheduler Plan) (k m : ℕ) : List (Option ℕ) := (List.range m).map fun l => (s.after (k + l)).pick

def weights (s : Scheduler Plan) : List ℕ := s.entries.map fun e => e.1.weight.toNat

def curs (s : Scheduler Plan) : List ℤ := s.entries.map Prod.snd

theorem best_spec {entries : List (Strategy Plan × ℤ)} {i : ℕ} (h : best entries = some i) :
    ∃ e, entries[i]? = some e ∧ ∀ j f, entries[j]? = some f → f.2 ≤ e.2 ∧ (f.2 = e.2 → i ≤ j) := by
  unfold best at h
  obtain ⟨⟨e, n⟩, hmax, rfl⟩ := Option.map_eq_some_iff.mp h
  obtain ⟨hmem, hmost⟩ := maxByKey_eq_some hmax
  refine ⟨e, List.mem_zipIdx_iff_getElem?.mp hmem, fun j f hf => ?_⟩
  have hle := hmost (f, j) (List.mem_zipIdx_iff_getElem?.mpr hf)
  rw [Prod.Lex.toLex_le_toLex] at hle
  simp only at hle ⊢
  omega

theorem best_isSome {entries : List (Strategy Plan × ℤ)} (h : entries ≠ []) : ∃ i, best entries = some i := by
  cases entries with
  | nil => exact absurd rfl h
  | cons e es =>
    unfold best
    rw [List.zipIdx_cons, maxByKey, Option.map_some]
    exact ⟨_, rfl⟩

/-! ### What a pick changes -/

@[simp] theorem weights_length (s : Scheduler Plan) : s.weights.length = s.entries.length := List.length_map _

@[simp] theorem curs_length (s : Scheduler Plan) : s.curs.length = s.entries.length := List.length_map _

theorem raised_getElem? (s : Scheduler Plan) (j : ℕ) :
    s.raised[j]? = s.entries[j]?.map fun e => (e.1, e.2 + (e.1.weight.toNat : ℤ)) := List.getElem?_map

/-- A pick raises every value and takes the total off the picked one; the weights stay. -/
theorem nextPlan_entry {s : Scheduler Plan} {i : ℕ} (h : s.pick = some i) (j : ℕ) :
    s.nextPlan.2.weights[j]? = s.weights[j]? ∧
      s.nextPlan.2.curs[j]? =
        s.entries[j]?.map fun e => e.2 + (e.1.weight.toNat : ℤ) - if j = i then s.total else 0 := by
  obtain ⟨e, he, -⟩ := best_spec h
  unfold pick at h
  unfold nextPlan weights curs
  rw [h]
  simp only [he, List.getElem?_map, List.getElem?_set, raised_getElem?]
  rw [raised_getElem?, Option.map_eq_some_iff] at he
  obtain ⟨f, hf, rfl⟩ := he
  have hlt : i < s.raised.length := by
    rw [raised, List.length_map]
    exact (List.getElem?_eq_some_iff.mp hf).1
  by_cases hij : i = j
  · subst hij
    simp [hf, hlt]
  · have hji : ¬ j = i := fun he => hij he.symm
    simp [hij, hji, Function.comp_def]

theorem nextPlan_length (s : Scheduler Plan) : s.nextPlan.2.entries.length = s.entries.length := by
  unfold nextPlan
  split
  · rfl
  · split
    · rfl
    · simp [raised]

theorem after_succ (s : Scheduler Plan) (k : ℕ) : s.after (k + 1) = (s.after k).nextPlan.2 :=
  Function.iterate_succ_apply' _ _ _

theorem after_length (s : Scheduler Plan) : ∀ k, (s.after k).entries.length = s.entries.length
  | 0 => rfl
  | k + 1 => by rw [after_succ, nextPlan_length, s.after_length k]

theorem pick_isSome {s : Scheduler Plan} (h : s.entries ≠ []) : ∃ i, s.pick = some i :=
  best_isSome fun hr => h (List.map_eq_nil_iff.mp hr)

theorem weights_after {s : Scheduler Plan} (h : s.entries ≠ []) : ∀ k, (s.after k).weights = s.weights
  | 0 => rfl
  | k + 1 => by
    have hne : (s.after k).entries ≠ [] := by
      rw [← List.length_pos_iff, after_length]
      exact List.length_pos_iff.mpr h
    obtain ⟨i, hi⟩ := pick_isSome hne
    rw [after_succ, ← s.weights_after h k]
    exact List.ext_getElem? fun j => (nextPlan_entry hi j).1

theorem total_eq (s : Scheduler Plan) : s.total = (s.weights.sum : ℕ) := by
  simp [total, weights, Nat.cast_list_sum, Function.comp_def]

/-! ### A run from no credit -/

theorem sum_getD {M : Type*} [AddCommMonoid M] (l : List M) : ∑ j ∈ Finset.range l.length, l.getD j 0 = l.sum := by
  rw [Finset.sum_range, ← Fin.sum_univ_getElem]
  simp

theorem total_weights (s : Scheduler Plan) :
    Robin.total (Finset.range s.entries.length) (fun j => s.weights.getD j 0) = s.weights.sum := by
  rw [← weights_length]
  exact sum_getD s.weights

theorem raised_value {s : Scheduler Plan} {j : ℕ} (hj : j < s.entries.length) :
    ∃ e, s.raised[j]? = some e ∧ e.2 = s.curs.getD j 0 + (s.weights.getD j 0 : ℕ) := by
  refine ⟨_, by rw [raised_getElem?, List.getElem?_eq_getElem hj, Option.map_some], ?_⟩
  simp [curs, weights, hj]

theorem pick_spec {s : Scheduler Plan} {i : ℕ} (h : s.pick = some i) :
    i < s.entries.length ∧ ∀ j < s.entries.length,
      s.curs.getD j 0 + (s.weights.getD j 0 : ℕ) ≤ s.curs.getD i 0 + (s.weights.getD i 0 : ℕ) ∧
        (s.curs.getD j 0 + (s.weights.getD j 0 : ℕ) = s.curs.getD i 0 + (s.weights.getD i 0 : ℕ) → i ≤ j) := by
  obtain ⟨e, he, hmost⟩ := best_spec h
  have hi : i < s.entries.length := by
    have hlt := (List.getElem?_eq_some_iff.mp he).1
    rwa [raised, List.length_map] at hlt
  obtain ⟨e', he', hvalue⟩ := raised_value hi
  obtain rfl := Option.some.inj (he.symm.trans he')
  refine ⟨hi, fun j hj => ?_⟩
  obtain ⟨f, hf, hfvalue⟩ := raised_value hj
  rw [← hvalue, ← hfvalue]
  exact hmost j f hf

/-- Schedulers of equal weights and values pick alike. -/
theorem pick_congr {s t : Scheduler Plan} (hlen : s.entries.length = t.entries.length)
    (hw : s.weights = t.weights) (hc : ∀ j < s.entries.length, s.curs.getD j 0 = t.curs.getD j 0)
    (hne : s.entries ≠ []) : s.pick = t.pick := by
  obtain ⟨i, hi⟩ := pick_isSome hne
  obtain ⟨k, hk⟩ := pick_isSome (s := t) (by rwa [← List.length_pos_iff, ← hlen, List.length_pos_iff])
  obtain ⟨his, hmosts⟩ := pick_spec hi
  obtain ⟨hkt, hmostt⟩ := pick_spec hk
  rw [← hlen] at hkt
  have hki := hmosts k hkt
  have hik := hmostt i (hlen ▸ his)
  rw [← hw, ← hc k hkt, ← hc i his] at hik
  rw [hi, hk, Option.some.injEq]
  omega

theorem cur_next {s : Scheduler Plan} {i : ℕ} (h : s.pick = some i) {j : ℕ} (hj : j < s.entries.length) :
    s.nextPlan.2.curs.getD j 0 =
      s.curs.getD j 0 + (s.weights.getD j 0 : ℕ) - if j = i then (s.weights.sum : ℤ) else 0 := by
  have he := (nextPlan_entry h j).2
  rw [total_eq] at he
  rw [List.getD_eq_getElem?_getD, he, List.getElem?_eq_getElem hj]
  simp [curs, weights, hj]

theorem entries_after {s : Scheduler Plan} (hne : s.entries ≠ []) (k : ℕ) : (s.after k).entries ≠ [] := by
  rwa [← List.length_pos_iff, after_length, List.length_pos_iff]

/-- A run gives its turns by smooth weighted round-robin. -/
theorem turns {s : Scheduler Plan} (hne : s.entries ≠ []) (hzero : ∀ e ∈ s.entries, e.2 = 0) :
    Robin.Turns (Finset.range s.entries.length) (fun j => s.weights.getD j 0)
      (fun k j => (s.after k).curs.getD j 0) (fun k => ((s.after k).pick).getD 0) where
  start j hj := by
    have hlt : j < s.entries.length := Finset.mem_range.mp hj
    simp [after, curs, hlt, hzero]
  greedy k := by
    obtain ⟨i, hi⟩ := pick_isSome (entries_after hne k)
    obtain ⟨hlt, hmost⟩ := pick_spec hi
    rw [weights_after hne, after_length] at *
    simp only [hi, Option.getD_some]
    exact ⟨Finset.mem_range.mpr hlt, fun j hj => (hmost j (Finset.mem_range.mp hj)).1⟩
  next k j hj := by
    obtain ⟨i, hi⟩ := pick_isSome (entries_after hne k)
    have hlt : j < (s.after k).entries.length := by rw [after_length]; exact Finset.mem_range.mp hj
    rw [after_succ, cur_next hi hlt, weights_after hne, Robin.turn, total_weights, hi, Option.getD_some]

theorem new_zero (strategies : List (Strategy Plan)) : ∀ e ∈ (new strategies).entries, e.2 = 0 := by
  intro e he
  obtain ⟨s, -, rfl⟩ := List.mem_map.mp he
  rfl

theorem new_weight_pos (strategies : List (Strategy Plan)) : ∀ e ∈ (new strategies).entries, 0 < e.1.weight.toNat := by
  intro e he
  obtain ⟨s, hs, rfl⟩ := List.mem_map.mp he
  exact UInt32.lt_iff_toNat_lt.mp (of_decide_eq_true (List.mem_filter.mp hs).2)

theorem weights_sum_pos {strategies : List (Strategy Plan)} (hne : (new strategies).entries ≠ []) :
    0 < (new strategies).weights.sum := by
  obtain ⟨e, he⟩ := List.exists_mem_of_ne_nil _ hne
  have hle : e.1.weight.toNat ≤ (new strategies).weights.sum :=
    List.single_le_sum (by simp) _ (List.mem_map_of_mem he)
  exact lt_of_lt_of_le (new_weight_pos strategies e he) hle

theorem sum_curs {s : Scheduler Plan} (k : ℕ) :
    ∑ j ∈ Finset.range s.entries.length, (s.after k).curs.getD j 0 = (s.after k).curs.sum := by
  rw [← after_length s k, ← curs_length]
  exact sum_getD _

/-- With no more than 2^15 strategies every value computed is an `i64`. -/
theorem cur_lt {strategies : List (Strategy Plan)} (hfew : (new strategies).entries.length ≤ 2 ^ 15) (k : ℕ) {j : ℕ}
    (hj : j < (new strategies).entries.length) :
    let s := new strategies
    (-2 ^ 63 : ℤ) ≤ (s.after k).curs.getD j 0 - s.weights.sum ∧
      (s.after k).curs.getD j 0 + s.weights.getD j 0 < 2 ^ 63 := by
  intro s
  change s.entries.length ≤ 2 ^ 15 at hfew
  change j < s.entries.length at hj
  have hne : s.entries ≠ [] := List.length_pos_iff.mp (by omega)
  have h := turns hne (new_zero strategies)
  have htotal := total_weights s
  have hpos : 0 < s.weights.sum := weights_sum_pos hne
  rw [← htotal] at hpos
  have hlow := h.neg_total_lt hpos k j (Finset.mem_range.mpr hj)
  have hhigh := h.credit_le hpos k (Finset.mem_range.mpr hj)
  rw [Finset.card_range] at hhigh
  simp only [htotal] at hlow hhigh
  have hweight : ∀ w ∈ s.weights, w ≤ 2 ^ 32 := by
    intro w hw
    obtain ⟨e, -, rfl⟩ := List.mem_map.mp hw
    exact e.1.weight.toNat_lt.le
  have hsum : s.weights.sum ≤ 2 ^ 15 * 2 ^ 32 := by
    calc s.weights.sum
      _ ≤ s.weights.length • 2 ^ 32 := List.sum_le_card_nsmul _ _ hweight
      _ = s.entries.length * 2 ^ 32 := by rw [weights_length, smul_eq_mul]
      _ ≤ 2 ^ 15 * 2 ^ 32 := Nat.mul_le_mul_right _ hfew
  have hj' : s.weights.getD j 0 ≤ 2 ^ 32 := by
    rw [List.getD_eq_getElem?_getD, List.getElem?_eq_getElem (by rwa [weights_length]), Option.getD_some]
    exact hweight _ (List.getElem_mem _)
  have hprod : ((s.entries.length - 1 : ℕ) : ℤ) * s.weights.sum ≤ 2 ^ 15 * (2 ^ 15 * 2 ^ 32) := by
    exact_mod_cast Nat.mul_le_mul (show s.entries.length - 1 ≤ 2 ^ 15 by omega) hsum
  omega

/-- A strategy is counted among the picks as often as it was given a turn. -/
theorem count_picks {s : Scheduler Plan} (hne : s.entries ≠ []) (k m i : ℕ) :
    (s.picks k m).count (some i) = Robin.given (fun k => ((s.after k).pick).getD 0) k m i := by
  unfold picks Robin.given List.count
  rw [List.countP_map]
  refine List.countP_congr fun l _ => ?_
  obtain ⟨j, hj⟩ := pick_isSome (entries_after hne (k + l))
  simp [hj]

/-- In as many turns as the total weight an entry has its weight of them, and the turns repeat after as many. -/
theorem round_turns {strategies : List (Strategy Plan)} (hne : (new strategies).entries ≠ []) (k : ℕ) :
    (∀ i < (new strategies).entries.length,
      ((new strategies).picks k (new strategies).weights.sum).count (some i) = (new strategies).weights.getD i 0) ∧
      ((new strategies).after (k + (new strategies).weights.sum)).pick = ((new strategies).after k).pick := by
  have h := turns hne (new_zero strategies)
  have htotal := total_weights (new strategies)
  have hpick : ∀ k l : ℕ, (∀ j ∈ Finset.range (new strategies).entries.length,
      ((new strategies).after k).curs.getD j 0 = ((new strategies).after l).curs.getD j 0) →
        ((new strategies).after k).pick = ((new strategies).after l).pick := by
    intro k l hc
    refine pick_congr (by rw [after_length, after_length]) (by rw [weights_after hne, weights_after hne]) ?_
      (entries_after hne k)
    exact fun j hj => hc j (Finset.mem_range.mpr (after_length _ k ▸ hj))
  have hround := h.round (htotal ▸ weights_sum_pos hne) (fun k l hc => by rw [hpick k l hc]) k
  rw [htotal] at hround
  obtain ⟨i, hi⟩ := pick_isSome (entries_after hne k)
  obtain ⟨j, hj⟩ := pick_isSome (entries_after hne (k + (new strategies).weights.sum))
  have he := hround.2
  rw [hi, hj] at he
  refine ⟨fun i hi => ?_, by rw [hi, hj, Option.some.injEq]; exact he⟩
  rw [count_picks hne]
  exact hround.1 i (Finset.mem_range.mpr hi)

/-! ### The cycles handed out -/

/-- The cycle a turn gives. -/
def handed (s : Scheduler Plan) (t : ℕ) : Option Plan := (s.after t).nextPlan.1

/-- A turn is of this entry. -/
def turnOf (s : Scheduler Plan) (i t : ℕ) : Prop := (s.after t).pick = some i

instance (s : Scheduler Plan) (i : ℕ) : DecidablePred (s.turnOf i) :=
  fun t => inferInstanceAs (Decidable ((s.after t).pick = some i))

/-- A turn asks the picked strategy; the others stay as they are. -/
theorem nextPlan_asks {s : Scheduler Plan} {i : ℕ} (h : s.pick = some i) :
    (∃ e, s.entries[i]? = some e ∧ s.nextPlan.1 = e.1.nextPlan.1) ∧
      ∀ j : ℕ, s.nextPlan.2.entries[j]?.map Prod.fst =
        s.entries[j]?.map fun e => if j = i then e.1.nextPlan.2 else e.1 := by
  obtain ⟨e, he, -⟩ := best_spec h
  have hlt : i < s.raised.length := (List.getElem?_eq_some_iff.mp he).1
  unfold pick at h
  unfold nextPlan
  rw [h]
  simp only [he]
  rw [raised_getElem?, Option.map_eq_some_iff] at he
  obtain ⟨f, hf, rfl⟩ := he
  refine ⟨⟨f, hf, rfl⟩, fun j => ?_⟩
  rw [List.getElem?_set]
  by_cases hij : i = j
  · subst hij
    simp [hf, hlt]
  · have hji : ¬ j = i := fun he => hij he.symm
    simp [hij, hji, raised_getElem?, Function.comp_def]

/-- An entry keeps its cycles, and has gone on by one at each of its turns. -/
theorem entry_after {s : Scheduler Plan} (hne : s.entries ≠ []) {i : ℕ} {e : Strategy Plan × ℤ}
    (he : s.entries[i]? = some e) (t : ℕ) :
    ∃ f, (s.after t).entries[i]? = some f ∧ f.1.plans = e.1.plans ∧
      (e.1.plans ≠ [] → f.1.cursor % e.1.plans.length =
        (e.1.cursor + Nat.count (s.turnOf i) t) % e.1.plans.length) := by
  induction t with
  | zero => exact ⟨e, he, rfl, fun _ => by rw [Nat.count_zero, Nat.add_zero]⟩
  | succ t ih =>
    obtain ⟨f, hf, hplans, hcursor⟩ := ih
    obtain ⟨j, hj⟩ := pick_isSome (entries_after hne t)
    have hnext := (nextPlan_asks hj).2 i
    rw [← after_succ, hf, Option.map_some, Option.map_eq_some_iff] at hnext
    obtain ⟨g, hg, hgf⟩ := hnext
    refine ⟨g, hg, ?_, fun hne => ?_⟩
    · rw [hgf]
      split <;> simp [hplans]
    · rw [hgf, Nat.count_succ]
      by_cases hij : i = j
      · subst hij
        have hcur := Strategy.nextPlan_cursor (hplans ▸ hne)
        rw [hplans] at hcur
        have hturn : s.turnOf i t := hj
        rw [if_pos rfl, if_pos hturn, hcur, ← Nat.add_assoc, Nat.add_mod, hcursor hne, ← Nat.add_mod]
      · have hturn : ¬ s.turnOf i t := fun h => hij (Option.some.inj (h.symm.trans hj))
        rw [if_neg hij, if_neg hturn, Nat.add_zero, hcursor hne]

/-- The cycles of an entry, and the one it begins with. -/
def plansOf (s : Scheduler Plan) (i : ℕ) : List Plan := (s.entries[i]?.map fun e => e.1.plans).getD []

def cursorOf (s : Scheduler Plan) (i : ℕ) : ℕ := (s.entries[i]?.map fun e => e.1.cursor).getD 0

/-- A turn gives the cycle its entry has come to. -/
theorem handed_eq {s : Scheduler Plan} (hne : s.entries ≠ []) {i t : ℕ} (h : s.turnOf i t) :
    s.handed t = (s.plansOf i)[(s.cursorOf i + Nat.count (s.turnOf i) t) % (s.plansOf i).length]? := by
  obtain ⟨⟨f, hf, hgiven⟩, -⟩ := nextPlan_asks h
  have hlt : i < s.entries.length := by
    rw [← after_length s t]
    exact (List.getElem?_eq_some_iff.mp hf).1
  have he := List.getElem?_eq_getElem hlt
  obtain ⟨f', hf', hplans, hcursor⟩ := entry_after hne he t
  obtain rfl := Option.some.inj (hf.symm.trans hf')
  rw [handed, hgiven, Strategy.nextPlan_fst, plansOf, cursorOf, he, Option.map_some, Option.map_some, Option.getD_some,
    Option.getD_some, hplans]
  by_cases hempty : s.entries[i].1.plans = []
  · simp [hempty]
  · rw [hcursor hempty]

/-- **Picks are exactly proportional to the weights.** After any number of picks the running values add up to zero
and none is as low as minus the total weight; any `total` picks in a row take each strategy as often as its weight
says, and the picks repeat after as many. Every turn picks a strategy and hands out its cycle: a strategy's turns go
through its cycles in order, from the one it begins with. -/
theorem exactly_proportional (strategies : List (Strategy Plan)) (k : ℕ) :
    let s := new strategies
    let total := s.weights.sum
    (s.after k).curs.sum = 0 ∧ (∀ cur ∈ (s.after k).curs, -(total : ℤ) < cur) ∧
      (∀ i < s.entries.length, (s.picks k total).count (some i) = s.weights.getD i 0) ∧
      (s.after (k + total)).pick = (s.after k).pick ∧
      (s.entries ≠ [] → ∃ i < s.entries.length, (s.after k).pick = some i ∧ (s.after k).nextPlan.1 =
        (s.plansOf i)[(s.cursorOf i + Nat.count (s.turnOf i) k) % (s.plansOf i).length]?) := by
  intro s total
  by_cases hne : s.entries = []
  · have hcurs : (s.after k).curs = [] := by
      rw [← List.length_eq_zero_iff, curs_length, after_length, hne, List.length_nil]
    have htotal : total = 0 := by simp [total, weights, hne]
    simp [hcurs, hne, htotal]
  have h := turns hne (new_zero strategies)
  have htotal := total_weights s
  have hpos : 0 < total := weights_sum_pos hne
  obtain ⟨hcount, hperiod⟩ := round_turns hne k
  refine ⟨?_, ?_, hcount, hperiod, fun _ => ?_⟩
  · rw [← sum_curs]
    exact h.sum_credit k
  · intro cur hcur
    obtain ⟨j, hj, rfl⟩ := List.mem_iff_getElem.mp hcur
    have hlt : j < s.entries.length := by rwa [curs_length, after_length] at hj
    have hlow := h.neg_total_lt (htotal ▸ hpos) k j (Finset.mem_range.mpr hlt)
    rw [htotal] at hlow
    rwa [List.getD_eq_getElem?_getD, List.getElem?_eq_getElem hj] at hlow
  · obtain ⟨i, hi⟩ := pick_isSome (entries_after hne k)
    have hlt := (pick_spec hi).1
    rw [after_length] at hlt
    exact ⟨i, hlt, hi, handed_eq hne hi⟩

example : (new [Strategy.roundTrip 1 "SOL", Strategy.crossDex 3 ["Orca", "Raydium"] (· ++ ·),
    Strategy.triangular 1 ["SOL", "USDC", "JUP"] String.join, Strategy.roundTrip 0 "USDC"]).picks 0 5 =
      [some 1, some 0, some 1, some 2, some 1] := by decide

end Scheduler

end MobiusSearcher
