/-
# Tables with a key, read in key order

A table is the list of its rows. Writing a row replaces the row under the
same key (`put`), reading sorts by the key (`ordered`). A table written in
increasing key order is already what reading gives (`ordered_of_increasing`)
and writing past its end appends (`putAll_of_increasing`); rows up to a key
go by dropping a prefix (`above_of_increasing`).

A list is cut into chunks of a given size, the last one shorter
(`chunks`). A chunk carries its first row, so that no chunk is empty.
Matching rows are deleted a limited number at a time (`dropFirst`).

Key definitions: `put`, `ordered`, `Increasing`, `Chunk`, `chunks`, `dropFirst`.
Key theorems: `putAll_of_increasing`, `ordered_of_increasing`,
`above_of_increasing`, `flatten_chunks`, `increasing_firsts`, `filter_dropFirst`.
-/
import Mathlib.Data.List.Sort
import Mathlib.Tactic

namespace Table

variable {ρ κ : Type*} [LinearOrder κ] (key : ρ → κ)

/-- The row `r`, in place of the one under its key. -/
def put (t : List ρ) (r : ρ) : List ρ := t.filter (fun x => key x ≠ key r) ++ [r]

/-- The rows in key order. -/
def ordered (t : List ρ) : List ρ := t.insertionSort fun a b => key a ≤ key b

/-- The rows past the key `k`. -/
def above (k : κ) (t : List ρ) : List ρ := t.filter fun x => k < key x

/-- Written in increasing key order. -/
def Increasing (t : List ρ) : Prop := t.Pairwise fun a b => key a < key b

variable {key}

theorem Increasing.left {s t : List ρ} (h : Increasing key (s ++ t)) : Increasing key s :=
  (List.pairwise_append.mp h).1

theorem Increasing.right {s t : List ρ} (h : Increasing key (s ++ t)) : Increasing key t :=
  (List.pairwise_append.mp h).2.1

theorem Increasing.cross {s t : List ρ} (h : Increasing key (s ++ t)) : ∀ a ∈ s, ∀ b ∈ t, key a < key b :=
  (List.pairwise_append.mp h).2.2

theorem ordered_of_increasing {t : List ρ} (h : Increasing key t) : ordered key t = t :=
  List.Pairwise.insertionSort_eq (h.imp le_of_lt)

theorem put_of_lt {t : List ρ} {r : ρ} (h : ∀ x ∈ t, key x < key r) : put key t r = t ++ [r] := by
  have hkeep : t.filter (fun x => key x ≠ key r) = t := by
    rw [List.filter_eq_self]
    intro x hx
    have hlt := h x hx
    simp [hlt.ne]
  rw [put, hkeep]

/-- Rows written past the end of a table are appended to it. -/
theorem putAll_of_increasing : ∀ {t rs : List ρ}, Increasing key (t ++ rs) → rs.foldl (put key) t = t ++ rs
  | t, [], _ => by simp
  | t, r :: rs, h => by
    have hr : put key t r = t ++ [r] := put_of_lt fun x hx => h.cross x hx r (List.mem_cons_self ..)
    have hrest : Increasing key ((t ++ [r]) ++ rs) := by simpa using h
    rw [List.foldl_cons, hr, putAll_of_increasing hrest, List.append_assoc, List.singleton_append]

/-- Deleting up to the last key of a prefix deletes that prefix. -/
theorem above_of_increasing {s t : List ρ} {r : ρ} (h : Increasing key ((s ++ [r]) ++ t)) :
    above key (key r) ((s ++ [r]) ++ t) = t := by
  have hgone : ((s ++ [r]).filter fun x => key r < key x) = [] := by
    rw [List.filter_eq_nil_iff]
    intro x hx
    have hle : key x ≤ key r := by
      rcases List.mem_append.mp hx with h1 | h1
      · exact (h.left.cross x h1 r (List.mem_singleton_self r)).le
      · rw [List.mem_singleton.mp h1]
    simpa using hle
  have hkeep : (t.filter fun x => key r < key x) = t := by
    rw [List.filter_eq_self]
    intro x hx
    have hlt := h.cross r (by simp) x hx
    simpa using hlt
  rw [above, List.filter_append, hgone, hkeep, List.nil_append]

/-! ### Chunks -/

/-- Some consecutive rows: at least one. -/
structure Chunk (α : Type*) where
  first : α
  more : List α
  deriving Repr

namespace Chunk

variable {α : Type*}

def rows (c : Chunk α) : List α := c.first :: c.more

def last (c : Chunk α) : α := c.more.getLastD c.first

theorem first_mem (c : Chunk α) : c.first ∈ c.rows := List.mem_cons_self ..

end Chunk

variable {α : Type*}

/-- The list cut after every `n` elements. -/
def chunks (n : ℕ) : List α → List (Chunk α)
  | [] => []
  | a :: l => ⟨a, l.take (n - 1)⟩ :: chunks n (l.drop (n - 1))
  termination_by l => l.length
  decreasing_by simp

/-- The rows of the chunks, one chunk after the other. -/
def flatten (cs : List (Chunk α)) : List α := cs.flatMap Chunk.rows

@[simp] theorem flatten_nil : flatten ([] : List (Chunk α)) = [] := rfl

@[simp] theorem flatten_cons (c : Chunk α) (cs : List (Chunk α)) : flatten (c :: cs) = c.rows ++ flatten cs := rfl

@[simp] theorem flatten_append (cs ds : List (Chunk α)) : flatten (cs ++ ds) = flatten cs ++ flatten ds := by
  simp [flatten]

/-- Cutting loses nothing. -/
theorem flatten_chunks (n : ℕ) (l : List α) : flatten (chunks n l) = l := by
  induction l using chunks.induct n with
  | case1 => rw [chunks, flatten_nil]
  | case2 a l ih =>
    rw [chunks, flatten_cons, ih]
    show a :: l.take (n - 1) ++ l.drop (n - 1) = a :: l
    rw [List.cons_append, List.take_append_drop]

/-- The first rows of chunks cut from an increasing list increase. -/
theorem increasing_firsts {cs : List (Chunk ρ)} (h : Increasing key (flatten cs)) :
    cs.Pairwise fun c d => key c.first < key d.first := by
  induction cs with
  | nil => exact .nil
  | cons c cs ih =>
    rw [flatten_cons] at h
    refine List.pairwise_cons.mpr ⟨fun d hd => ?_, ih h.right⟩
    exact h.cross _ c.first_mem _ (List.mem_flatMap.mpr ⟨d, hd, d.first_mem⟩)

/-! ### Deleting a few at a time -/

/-- The list without its first `k` elements that meet `p`. -/
def dropFirst (p : α → Bool) : ℕ → List α → List α
  | 0, l => l
  | _ + 1, [] => []
  | k + 1, a :: l => if p a then dropFirst p k l else a :: dropFirst p (k + 1) l

theorem countP_dropFirst (p : α → Bool) : ∀ (k : ℕ) (l : List α), (dropFirst p k l).countP p = l.countP p - k
  | 0, l => by rw [dropFirst, Nat.sub_zero]
  | _ + 1, [] => by rw [dropFirst, List.countP_nil, Nat.zero_sub]
  | k + 1, a :: l => by
    rw [dropFirst]
    by_cases ha : p a
    · rw [if_pos ha, countP_dropFirst p k l, List.countP_cons_of_pos ha]
      omega
    · rw [if_neg ha, List.countP_cons_of_neg ha, List.countP_cons_of_neg ha, countP_dropFirst p (k + 1) l]

/-- What does not meet `p` stays, in its order. -/
theorem filter_dropFirst {p q : α → Bool} (h : ∀ a, q a → ¬p a) : ∀ (k : ℕ) (l : List α),
    (dropFirst p k l).filter q = l.filter q
  | 0, l => by rw [dropFirst]
  | _ + 1, [] => by rw [dropFirst]
  | k + 1, a :: l => by
    rw [dropFirst]
    by_cases ha : p a
    · have hq : ¬q a := fun hq => h a hq ha
      rw [if_pos ha, filter_dropFirst h k l, List.filter_cons_of_neg hq]
    · rw [if_neg ha, List.filter_cons, List.filter_cons, filter_dropFirst h (k + 1) l]

end Table
