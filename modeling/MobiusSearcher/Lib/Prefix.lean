/-
# Prefixes of sorted lists

What a binary search finds on a list sorted by a key: the entries that pass a
test no later entry passes alone are a prefix, `partitionPoint` is where it
ends, and what lies between two partition points is what passes the one test
and not the other.

Key definitions: `Closed`, `partitionPoint`.
Key theorems: `take_partitionPoint`, `drop_partitionPoint`, `between_eq_filter`.
-/
import Mathlib.Data.List.Sort

namespace Prefix

variable {α : Type*} {p q : α → Bool} {l : List α}

/-- Before an entry that passes only such entries stand. -/
def Closed (p : α → Bool) (l : List α) : Prop := l.Pairwise fun a b => p b → p a

/-- Where the entries that pass end, in a list they are a prefix of. -/
def partitionPoint (p : α → Bool) (l : List α) : ℕ := (l.takeWhile p).length

theorem Closed.tail {a : α} (h : Closed p (a :: l)) : Closed p l := (List.pairwise_cons.mp h).2

/-- After one that fails all fail. -/
theorem Closed.none_pass {a : α} (h : Closed p (a :: l)) (ha : ¬p a) : ∀ b ∈ a :: l, ¬p b := by
  intro b hb
  rcases List.mem_cons.mp hb with rfl | hb
  · exact ha
  · exact fun hpb => ha ((List.pairwise_cons.mp h).1 b hb hpb)

theorem Closed.filter (h : Closed p l) : Closed p (l.filter q) := List.Pairwise.filter q h

theorem takeWhile_eq_filter : ∀ {l : List α}, Closed p l → l.takeWhile p = l.filter p
  | [], _ => rfl
  | a :: l, h => by
    by_cases ha : p a = true
    · simp [ha, takeWhile_eq_filter h.tail]
    · rw [List.takeWhile_cons_of_neg ha, List.filter_eq_nil_iff.mpr (h.none_pass ha)]

theorem dropWhile_eq_filter : ∀ {l : List α}, Closed p l → l.dropWhile p = l.filter fun a => !p a
  | [], _ => rfl
  | a :: l, h => by
    by_cases ha : p a = true
    · simp [ha, dropWhile_eq_filter h.tail]
    · have hnone := h.none_pass ha
      rw [List.dropWhile_cons_of_neg ha, List.filter_eq_self.mpr]
      intro b hb
      simp [hnone b hb]

theorem partitionPoint_eq (h : Closed p l) : partitionPoint p l = (l.filter p).length := by
  rw [partitionPoint, takeWhile_eq_filter h]

theorem take_partitionPoint (h : Closed p l) : l.take (partitionPoint p l) = l.filter p := by
  rw [partitionPoint, ← takeWhile_eq_filter h]
  exact (List.prefix_iff_eq_take.mp (List.takeWhile_prefix p)).symm

theorem drop_partitionPoint (h : Closed p l) : l.drop (partitionPoint p l) = l.filter fun a => !p a := by
  have hsplit := List.takeWhile_append_dropWhile (p := p) (l := l)
  rw [← dropWhile_eq_filter h]
  calc l.drop (partitionPoint p l)
      = (l.takeWhile p ++ l.dropWhile p).drop (l.takeWhile p).length := by rw [hsplit]; rfl
    _ = l.dropWhile p := List.drop_left

/-- Just before a partition point is the last entry that passes. -/
theorem getLast?_filter (h : Closed p l) :
    (l.filter p).getLast? = if partitionPoint p l = 0 then none else l[partitionPoint p l - 1]? := by
  have hle := List.length_filter_le p l
  have hlen := partitionPoint_eq h
  rw [← take_partitionPoint h, List.getLast?_take]
  split
  · rfl
  · rw [List.getElem?_eq_getElem (by omega), Option.some_or]

/-- At a partition point is the first entry that fails. -/
theorem head?_filter_not (h : Closed p l) : (l.filter fun a => !p a).head? = l[partitionPoint p l]? := by
  rw [← drop_partitionPoint h, List.head?_drop]

/-- What is inserted at a partition point stands after all that passes and before the rest. -/
theorem insertIdx_partitionPoint (h : Closed p l) (a : α) :
    l.insertIdx (partitionPoint p l) a = l.filter p ++ a :: l.filter fun b => !p b := by
  rw [← takeWhile_eq_filter h, ← dropWhile_eq_filter h]
  have hsplit := List.takeWhile_append_dropWhile (p := p) (l := l)
  calc l.insertIdx (partitionPoint p l) a
      = (l.takeWhile p ++ l.dropWhile p).insertIdx ((l.takeWhile p).length + 0) a := by rw [hsplit]; rfl
    _ = l.takeWhile p ++ a :: l.dropWhile p := List.modifyTailIdx_add (List.cons a) 0 _ _

/-- The one point is no later than the other when all that passes the first test passes the second. -/
theorem partitionPoint_le (hp : Closed p l) (hq : Closed q l) :
    partitionPoint p l ≤ partitionPoint q l ↔ ∀ a ∈ l, p a → q a := by
  constructor
  · intro hle a ha hpa
    have hmem : a ∈ l.take (partitionPoint p l) := by
      rw [take_partitionPoint hp]
      exact List.mem_filter.mpr ⟨ha, hpa⟩
    have hmem' := (List.take_prefix_take_left hle).subset hmem
    rw [take_partitionPoint hq] at hmem'
    exact (List.mem_filter.mp hmem').2
  · intro hsub
    rw [partitionPoint_eq hp, partitionPoint_eq hq, ← List.countP_eq_length_filter, ← List.countP_eq_length_filter]
    exact List.countP_mono_left hsub

/-- From one partition point to a later one: what passes the second test and not the first. -/
theorem between_eq_filter (hp : Closed p l) (hq : Closed q l) (h : ∀ a ∈ l, p a → q a) :
    (l.take (partitionPoint q l)).drop (partitionPoint p l) = l.filter fun a => q a && !p a := by
  have hle := (partitionPoint_le hp hq).mpr h
  have hfirst : (l.filter q).filter p = l.filter p := by
    rw [List.filter_filter]
    refine List.filter_congr fun a ha => ?_
    have := h a ha
    cases hpa : p a <;> simp_all
  have hpoint : partitionPoint p l = partitionPoint p (l.filter q) := by
    rw [partitionPoint_eq hp, partitionPoint_eq (hp.filter), hfirst]
  rw [take_partitionPoint hq, hpoint, drop_partitionPoint hp.filter, List.filter_filter]
  simp only [Bool.and_comm]

end Prefix
