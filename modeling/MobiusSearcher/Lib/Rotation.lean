/-
# A cursor that moves on its own turns

Turns go by, some of them a member's own. The member goes round a list, one
place at each turn of its own, and shows the element it is at. In any stretch of
turns that takes it round the list `q` times it shows an element `q` times for
each place the element has.

Key definitions: `Rotation.comes`, `Rotation.shows`.
Key theorems: `Rotation.count_comes`, `Rotation.comes_round`, `Rotation.shows_round`.
-/
import Mathlib.Data.Int.CardIntervalMod
import Mathlib.Tactic

namespace Rotation

variable {α : Type*} [DecidableEq α] (own : ℕ → Prop) [DecidablePred own]

/-- At turn `t` the member has its turn, and is at the place. -/
def comes (n start place t : ℕ) : Bool := decide (own t ∧ (start + Nat.count own t) % n = place)

/-- At turn `t` the member has its turn, and is at the element. -/
def shows (l : List α) (start : ℕ) (a : α) (t : ℕ) : Bool :=
  decide (own t ∧ l[(start + Nat.count own t) % l.length]? = some a)

/-- What is counted is a sum of zeros and ones. -/
theorem countP_range (f : ℕ → Bool) (m : ℕ) :
    (List.range m).countP f = ∑ t ∈ Finset.range m, if f t then 1 else 0 := by
  induction m with
  | zero => rfl
  | succ m ih => rw [List.range_succ, List.countP_append, List.countP_singleton, Finset.sum_range_succ, ih]

theorem count_eq_sum (l : List α) (a : α) :
    l.count a = ∑ r ∈ Finset.range l.length, if l[r]? = some a then 1 else 0 := by
  induction l with
  | nil => rfl
  | cons b l ih =>
    rw [List.length_cons, Finset.sum_range_succ', List.count_cons, ih]
    simp

variable {own} {n start place : ℕ}

/-- Every turn of its own is one more place, so what is counted over turns is counted over places. -/
theorem count_comes (k m : ℕ) :
    (List.range m).countP (fun t => comes own n start place (k + t)) +
        Nat.count (· % n = place) (start + Nat.count own k) =
      Nat.count (· % n = place) (start + Nat.count own (k + m)) := by
  induction m with
  | zero => simp
  | succ m ih =>
    have hnext := Nat.count_succ own (k + m)
    rw [List.range_succ, List.countP_append, List.countP_singleton, ← Nat.add_assoc k m 1, hnext]
    by_cases hown : own (k + m)
    · rw [if_pos hown, ← Nat.add_assoc start, Nat.count_succ, ← ih]
      by_cases hplace : (start + Nat.count own (k + m)) % n = place
      · simp only [comes, hown, hplace, and_self, decide_true, if_true]
        omega
      · simp only [comes, hplace, and_false, decide_false, Bool.false_eq_true, if_false]
        omega
    · rw [if_neg hown, Nat.add_zero, ← ih]
      simp [comes, hown]

/-- `n * q` places further, each was come to `q` times more. -/
theorem count_mod_add (hplace : place < n) (b q : ℕ) :
    Nat.count (· % n = place) (b + n * q) = Nat.count (· % n = place) b + q := by
  have hn : 0 < n := by omega
  have hmod : ∀ x, Nat.count (· % n = place) x = Nat.count (· ≡ place [MOD n]) x := fun x => by
    have heq : (fun y => y % n = place) = (· ≡ place [MOD n]) := by
      funext y
      rw [Nat.ModEq, Nat.mod_eq_of_lt hplace]
    simp only [heq]
  rw [hmod, hmod, Nat.count_modEq_card _ hn, Nat.count_modEq_card _ hn, Nat.add_mul_mod_self_left,
    Nat.add_mul_div_left _ _ hn]
  omega

/-- A stretch with `n * q` turns of its own brings the member to each place `q` times. -/
theorem comes_round (hplace : place < n) {k m q : ℕ} (h : Nat.count own (k + m) = Nat.count own k + n * q) :
    (List.range m).countP (fun t => comes own n start place (k + t)) = q := by
  have hcount : _ + Nat.count (· % n = place) (start + Nat.count own k) = _ := count_comes k m
  rw [h, ← Nat.add_assoc, count_mod_add hplace] at hcount
  omega

/-- The member shows an element at the places the element has. -/
theorem shows_eq_sum (l : List α) (a : α) (t : ℕ) :
    (if shows own l start a t then 1 else 0) =
      ∑ r ∈ Finset.range l.length, if l[r]? = some a then (if comes own l.length start r t then 1 else 0) else 0 := by
  by_cases hown : own t
  · rcases Nat.eq_zero_or_pos l.length with hl | hl
    · obtain rfl := List.length_eq_zero_iff.mp hl
      simp [shows]
    · have hmem := Finset.mem_range.mpr (Nat.mod_lt (start + Nat.count own t) hl)
      rw [Finset.sum_eq_single_of_mem _ hmem fun r _ hr => by simp [comes, hr.symm]]
      simp [shows, comes, hown]
  · simp [shows, comes, hown]

/-- **Round and round**: a stretch that takes the member round the list `q` times shows an element `q` times for each
place it has. -/
theorem shows_round (l : List α) (a : α) {k m q : ℕ}
    (h : Nat.count own (k + m) = Nat.count own k + l.length * q) :
    (List.range m).countP (fun t => shows own l start a (k + t)) = l.count a * q := by
  calc (List.range m).countP (fun t => shows own l start a (k + t))
    _ = ∑ t ∈ Finset.range m, ∑ r ∈ Finset.range l.length,
          if l[r]? = some a then (if comes own l.length start r (k + t) then 1 else 0) else 0 := by
        rw [countP_range]
        exact Finset.sum_congr rfl fun t _ => shows_eq_sum l a (k + t)
    _ = ∑ r ∈ Finset.range l.length,
          if l[r]? = some a then ∑ t ∈ Finset.range m, (if comes own l.length start r (k + t) then 1 else 0) else 0 := by
        rw [Finset.sum_comm]
        exact Finset.sum_congr rfl fun r _ => by split <;> simp
    _ = ∑ r ∈ Finset.range l.length, (if l[r]? = some a then 1 else 0) * q := by
        refine Finset.sum_congr rfl fun r hr => ?_
        rw [← countP_range, comes_round (Finset.mem_range.mp hr) h]
        split <;> simp
    _ = l.count a * q := by rw [← Finset.sum_mul, count_eq_sum]

end Rotation
