/-
# Smooth weighted round-robin

Turns are given to the members of a finite set in proportion to their weights.
Before a turn every member's credit rises by its weight; the turn goes to a
member whose credit is then greatest, whichever it is among equals, and it pays
the total weight. Started from no credit, the credits always add up to zero and
none falls to minus the total; what a member was given follows from its credit
(`credit_eq`), so that after a whole round, as many turns as the total weight,
no credit is left and each member was given its weight (`Turns.round`).

Key definitions: `Robin.total`, `Robin.turn`, `Robin.Greedy`, `Robin.Turns`,
`Robin.given`.
Key theorems: `Robin.Turns.sum_credit`, `Robin.Turns.neg_total_lt`,
`Robin.Turns.credit_eq`, `Robin.Turns.round`.
-/
import Mathlib.Algebra.BigOperators.Group.Finset.Basic
import Mathlib.Algebra.Order.BigOperators.Group.Finset
import Mathlib.Tactic

namespace Robin

variable {ι : Type*} [DecidableEq ι] (s : Finset ι) (w : ι → ℕ)

def total : ℕ := ∑ i ∈ s, w i

/-- The credits after a turn of `i`. -/
def turn (credit : ι → ℤ) (i : ι) : ι → ℤ := fun j => credit j + w j - if j = i then (total s w : ℤ) else 0

/-- The turn goes to a member whose raised credit is greatest. -/
structure Greedy (credit : ι → ℤ) (i : ι) : Prop where
  mem : i ∈ s
  most : ∀ j ∈ s, credit j + w j ≤ credit i + w i

/-- Turns given from no credit: the credits before each, and whose it is. -/
structure Turns (credit : ℕ → ι → ℤ) (pick : ℕ → ι) : Prop where
  start : ∀ j ∈ s, credit 0 j = 0
  greedy : ∀ k, Greedy s w (credit k) (pick k)
  next : ∀ k, ∀ j ∈ s, credit (k + 1) j = turn s w (credit k) (pick k) j

/-- How many of the `m` turns from `k` on go to `j`. -/
def given (pick : ℕ → ι) (k m : ℕ) (j : ι) : ℕ := (List.range m).countP fun l => pick (k + l) = j

variable {s w} {credit : ℕ → ι → ℤ} {pick : ℕ → ι}

/-! ### One turn -/

theorem sum_turn {c : ι → ℤ} {i : ι} (hi : i ∈ s) : ∑ j ∈ s, turn s w c i j = ∑ j ∈ s, c j := by
  unfold turn total
  rw [Finset.sum_sub_distrib, Finset.sum_add_distrib, Finset.sum_ite_eq' s i, if_pos hi]
  push_cast
  ring

omit [DecidableEq ι] in
/-- The greatest raised credit is positive, as the raised credits add up to the total. -/
theorem Greedy.pos {c : ι → ℤ} {i : ι} (h : Greedy s w c i) (hsum : ∑ j ∈ s, c j = 0) (hw : 0 < total s w) :
    0 < c i + w i := by
  by_contra hle
  have hsome : ∑ j ∈ s, (c j + w j) ≤ 0 := Finset.sum_nonpos fun j hj => le_trans (h.most j hj) (not_lt.mp hle)
  rw [Finset.sum_add_distrib, hsum, zero_add] at hsome
  have htotal : ((total s w : ℕ) : ℤ) = ∑ j ∈ s, (w j : ℤ) := by simp [total]
  omega

theorem neg_total_lt_turn {c : ι → ℤ} {i : ι} (h : Greedy s w c i) (hsum : ∑ j ∈ s, c j = 0) (hw : 0 < total s w)
    {j : ι} (hj : -(total s w : ℤ) < c j) : -(total s w : ℤ) < turn s w c i j := by
  unfold turn
  split
  · rename_i he
    have := h.pos hsum hw
    subst he
    omega
  · omega

/-! ### Turn after turn -/

namespace Turns

theorem sum_credit (h : Turns s w credit pick) : ∀ k, ∑ j ∈ s, credit k j = 0
  | 0 => Finset.sum_eq_zero h.start
  | k + 1 => by
    rw [Finset.sum_congr rfl (h.next k), sum_turn (h.greedy k).mem]
    exact h.sum_credit k

theorem neg_total_lt (h : Turns s w credit pick) (hw : 0 < total s w) :
    ∀ k, ∀ j ∈ s, -(total s w : ℤ) < credit k j
  | 0, j, hj => by
    rw [h.start j hj]
    omega
  | k + 1, j, hj => by
    rw [h.next k j hj]
    exact neg_total_lt_turn (h.greedy k) (h.sum_credit k) hw (h.neg_total_lt hw k j hj)

/-- A credit is what was earned less what was paid. -/
theorem credit_eq (h : Turns s w credit pick) (k : ℕ) {j : ι} (hj : j ∈ s) :
    ∀ m, credit (k + m) j = credit k j + m * w j - total s w * given pick k m j
  | 0 => by simp [given]
  | m + 1 => by
    have hgiven : given pick k (m + 1) j = given pick k m j + if j = pick (k + m) then 1 else 0 := by
      simp [given, List.range_succ, eq_comm]
    rw [← Nat.add_assoc, h.next _ j hj, turn, h.credit_eq k hj m, hgiven]
    split
    · push_cast
      ring
    · push_cast
      ring

/-- No credit exceeds what all the others can owe. -/
theorem credit_le (h : Turns s w credit pick) (hw : 0 < total s w) (k : ℕ) {j : ι} (hj : j ∈ s) :
    credit k j ≤ (s.card - 1 : ℕ) * total s w := by
  have hsum := h.sum_credit k
  rw [← Finset.add_sum_erase s _ hj] at hsum
  have howed : ∑ i ∈ s.erase j, -(total s w : ℤ) ≤ ∑ i ∈ s.erase j, credit k i :=
    Finset.sum_le_sum fun i hi => (h.neg_total_lt hw k i (Finset.mem_of_mem_erase hi)).le
  rw [Finset.sum_const, Finset.card_erase_of_mem hj, nsmul_eq_mul, mul_neg] at howed
  omega

/-- After as many turns as the total weight nothing is left of the credits. -/
theorem credit_total (h : Turns s w credit pick) (hw : 0 < total s w) : ∀ j ∈ s, credit (total s w) j = 0 := by
  have hmul : ∀ j ∈ s, credit (total s w) j = total s w * ((w j : ℤ) - given pick 0 (total s w) j) := by
    intro j hj
    have hc := h.credit_eq 0 hj (total s w)
    rw [Nat.zero_add, h.start j hj] at hc
    rw [hc]
    ring
  have hnonneg : ∀ j ∈ s, 0 ≤ credit (total s w) j := by
    intro j hj
    have hlt := h.neg_total_lt hw (total s w) j hj
    rw [hmul j hj] at hlt ⊢
    have hone : -1 < (w j : ℤ) - given pick 0 (total s w) j := by
      by_contra hle
      have : (total s w : ℤ) * ((w j : ℤ) - given pick 0 (total s w) j) ≤ total s w * -1 :=
        Int.mul_le_mul_of_nonneg_left (not_lt.mp hle) (by omega)
      omega
    exact mul_nonneg (by omega) (by omega)
  exact (Finset.sum_eq_zero_iff_of_nonneg hnonneg).mp (h.sum_credit _)

/-- Two turns before which the credits are equal are followed by equal turns, as long as the turn is chosen by
the credits. -/
theorem credit_add (h : Turns s w credit pick)
    (hpick : ∀ k l, (∀ j ∈ s, credit k j = credit l j) → pick k = pick l) {k l : ℕ}
    (he : ∀ j ∈ s, credit k j = credit l j) : ∀ m, ∀ j ∈ s, credit (k + m) j = credit (l + m) j
  | 0 => he
  | m + 1 => by
    intro j hj
    have ih := h.credit_add hpick he m
    rw [← Nat.add_assoc, ← Nat.add_assoc, h.next _ j hj, h.next _ j hj, turn, turn, ih j hj, hpick _ _ ih]

/-- **A round gives each member its weight**, wherever it begins, and the next round is the same. -/
theorem round (h : Turns s w credit pick) (hw : 0 < total s w)
    (hpick : ∀ k l, (∀ j ∈ s, credit k j = credit l j) → pick k = pick l) (k : ℕ) :
    (∀ j ∈ s, given pick k (total s w) j = w j) ∧ pick (k + total s w) = pick k := by
  have hback : ∀ j ∈ s, credit (k + total s w) j = credit k j := by
    intro j hj
    have hzero : ∀ j ∈ s, credit (total s w) j = credit 0 j := fun j hj =>
      (h.credit_total hw j hj).trans (h.start j hj).symm
    have hc := h.credit_add hpick hzero k j hj
    rwa [Nat.zero_add, Nat.add_comm] at hc
  refine ⟨fun j hj => ?_, hpick _ _ hback⟩
  have hc := h.credit_eq k hj (total s w)
  rw [hback j hj] at hc
  have hprod : (total s w : ℤ) * given pick k (total s w) j = total s w * w j := by omega
  exact_mod_cast Int.eq_of_mul_eq_mul_left (by omega) hprod

end Turns

end Robin
