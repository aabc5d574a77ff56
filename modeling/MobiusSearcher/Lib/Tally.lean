/-
# Sets counted one after the other, against one set

A list of sets is counted by adding up their sizes. Counted so, an element is
counted too much in a set when it is not in the set `new` it should be counted
for, or when a later set counts it again; an element of `new` in none of the
sets is not counted at all. The sum is the size of `new` exactly if as many are
counted too much as are missed (`sum_card_eq_iff`).

Key definitions: `spurious`, `missed`.
Key theorems: `sum_card_eq_iff`, `sum_card_eq_iff_of_missed`.
-/
import Mathlib.Data.Finset.Card
import Mathlib.Tactic

namespace Tally

variable {α : Type*} [DecidableEq α]

/-- In each set, what it counts too much. -/
def spurious (new : Finset α) : List (Finset α) → List (Finset α)
  | [] => []
  | s :: rest => s.filter (fun a => a ∉ new ∨ ∃ t ∈ rest, a ∈ t) :: spurious new rest

/-- What no set counts. -/
def missed (new : Finset α) (sets : List (Finset α)) : Finset α := new.filter fun a => ∀ t ∈ sets, a ∉ t

theorem missed_cons (new s : Finset α) (rest : List (Finset α)) :
    missed new (s :: rest) = (missed new rest).filter (· ∉ s) := by
  ext a
  unfold missed
  simp only [Finset.mem_filter, List.forall_mem_cons]
  tauto

/-- The first set counts for good what is new and in no later one. -/
theorem card_filter_missed (new s : Finset α) (rest : List (Finset α)) :
    (s.filter fun a => ¬(a ∉ new ∨ ∃ t ∈ rest, a ∈ t)).card = ((missed new rest).filter (· ∈ s)).card := by
  congr 1
  ext a
  unfold missed
  simp only [Finset.mem_filter, not_or, not_not, not_exists, not_and]
  tauto

theorem sum_card_add_missed (new : Finset α) : ∀ sets : List (Finset α),
    (sets.map Finset.card).sum + (missed new sets).card = new.card + ((spurious new sets).map Finset.card).sum
  | [] => by
    have hall : missed new [] = new := Finset.filter_true_of_mem fun _ _ t ht => absurd ht List.not_mem_nil
    rw [hall]
    exact Nat.add_comm 0 new.card
  | s :: rest => by
    have ih := sum_card_add_missed new rest
    have hs := Finset.card_filter_add_card_filter_not (s := s) (fun a => a ∉ new ∨ ∃ t ∈ rest, a ∈ t)
    have hm := Finset.card_filter_add_card_filter_not (s := missed new rest) (· ∈ s)
    rw [card_filter_missed] at hs
    rw [missed_cons]
    unfold spurious
    rw [List.map_cons, List.sum_cons, List.map_cons, List.sum_cons]
    omega

/-- **The sum is the size of `new` exactly if as many are counted too much as are missed.** -/
theorem sum_card_eq_iff (new : Finset α) (sets : List (Finset α)) :
    (sets.map Finset.card).sum = new.card ↔ ((spurious new sets).map Finset.card).sum = (missed new sets).card := by
  have h := sum_card_add_missed new sets
  omega

/-- Where none is missed: if nothing is counted too much. -/
theorem sum_card_eq_iff_of_missed {new : Finset α} {sets : List (Finset α)} (h : missed new sets = ∅) :
    (sets.map Finset.card).sum = new.card ↔ ∀ s ∈ spurious new sets, s = ∅ := by
  rw [sum_card_eq_iff, h, Finset.card_empty, List.sum_eq_zero_iff]
  simp only [List.mem_map, forall_exists_index, and_imp, forall_apply_eq_imp_iff₂, Finset.card_eq_zero]

end Tally
