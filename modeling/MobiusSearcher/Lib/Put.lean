/-
# Values put into a nested table

A value is put under two keys: into the table that stands under the first of
them, or into a new one. Values put into the upper of two tables stand there
when it is laid over the lower one. And when values are put into two tables
that are read as the same, both are read as the same again.

Key definitions: `tableAt`, `put`, `puts`, `OpenAt`.
Key theorems: `get_tableAt_puts`, `merge_puts`, `Fields.readTable_puts`,
`Fields.readTable_puts_isSome`.
-/
import MobiusSearcher.Lib.Typed

namespace Nested

variable {κ α : Type*} [LinearOrder κ]

/-- The table under a key, an empty one where none stands there. -/
def tableAt (s : κ) (t : Nested κ α) : Nested κ α :=
  match t.get s with
  | some (.table u) => u
  | _ => .nil

/-- A value put under a key of the table under another. -/
def put (s l : κ) (a : α) (t : Nested κ α) : Nested κ α := t.insert s (.table ((t.tableAt s).insert l (.leaf a)))

/-- Values put in one after the other, each with its two keys. -/
def puts (es : List ((κ × κ) × α)) (t : Nested κ α) : Nested κ α := es.foldl (fun t e => t.put e.1.1 e.1.2 e.2) t

/-- No value stands under the key itself. -/
def OpenAt (s : κ) (t : Nested κ α) : Prop := ∀ a, t.get s ≠ some (.leaf a)

section Put

variable {s l k : κ} {a : α} {t d u : Nested κ α} {es : List ((κ × κ) × α)}

theorem OpenAt.cases (h : t.OpenAt s) : t.get s = none ∨ ∃ u, t.get s = some (.table u) := by
  rcases ht : t.get s with _ | n
  · exact .inl rfl
  · cases n with
    | leaf a => exact absurd ht (h a)
    | table u => exact .inr ⟨u, rfl⟩

theorem tableAt_of_get (h : t.get s = some (.table u)) : t.tableAt s = u := by rw [tableAt, h]

theorem tableAt_of_none (h : t.get s = none) : t.tableAt s = .nil := by rw [tableAt, h]

theorem openAt_of_get (h : t.get s = some (.table u)) : t.OpenAt s := by simp [OpenAt, h]

theorem Ordered.tableAt (h : t.Ordered) (s : κ) : (t.tableAt s).Ordered := by
  rw [Nested.tableAt]
  split
  · rename_i u hu
    exact h.get hu
  · trivial

@[simp] theorem get_put (s l k : κ) (a : α) (t : Nested κ α) :
    (t.put s l a).get k = if s = k then some (.table ((t.tableAt s).insert l (.leaf a))) else t.get k := get_insert ..

@[simp] theorem tableAt_put (s l k : κ) (a : α) (t : Nested κ α) :
    (t.put s l a).tableAt k = if s = k then (t.tableAt s).insert l (.leaf a) else t.tableAt k := by
  by_cases h : s = k
  · rw [if_pos h, tableAt, get_put, if_pos h]
  · rw [if_neg h, tableAt, get_put, if_neg h, tableAt]

theorem Ordered.put (h : t.Ordered) (s l : κ) (a : α) : (t.put s l a).Ordered :=
  h.insert (n := .table _) ((h.tableAt s).insert trivial)

theorem OpenAt.put (h : t.OpenAt k) (s l : κ) (a : α) : (t.put s l a).OpenAt k := by
  intro b
  rw [get_put]
  split
  · simp
  · exact h b

/-- Putting a value in leaves what stands under other keys. -/
theorem put_insert (hk : s ≠ k) (ht : t.Ordered) {n : Node κ α} (hn : n.Ordered) :
    (t.insert k n).put s l a = (t.put s l a).insert k n := by
  have htable : (t.insert k n).tableAt s = t.tableAt s := by rw [tableAt, get_insert, if_neg (Ne.symm hk), tableAt]
  refine ext_get ((ht.insert hn).put s l a) ((ht.put s l a).insert hn) fun j => ?_
  rw [get_put, htable, get_insert, get_insert, get_put]
  by_cases hs : s = j
  · rw [if_pos hs, if_neg fun h => hk (hs.trans h.symm), if_pos hs]
  · rw [if_neg hs, if_neg hs]

theorem put_remove (hk : s ≠ k) (ht : t.Ordered) : (t.remove k).put s l a = (t.put s l a).remove k := by
  have htable : (t.remove k).tableAt s = t.tableAt s := by
    rw [tableAt, get_remove ht, if_neg (Ne.symm hk), tableAt]
  refine ext_get ((ht.remove k).put s l a) ((ht.put s l a).remove k) fun j => ?_
  rw [get_put, htable, get_remove ht, get_remove (ht.put s l a), get_put]
  by_cases hs : s = j
  · rw [if_pos hs, if_neg fun h => hk (hs.trans h.symm), if_pos hs]
  · rw [if_neg hs, if_neg hs]

/-- Into a new table is into none. -/
theorem put_fresh (ht : t.Ordered) (h : t.get s = none) : (t.insert s (.table .nil)).put s l a = t.put s l a := by
  have hnil : (Node.table .nil : Node κ α).Ordered := trivial
  refine ext_get ((ht.insert hnil).put s l a) (ht.put s l a) fun j => ?_
  rw [get_put, get_put, get_insert, tableAt_of_none h, tableAt_of_get (u := .nil) (by rw [get_insert, if_pos rfl])]
  split
  · rfl
  · rfl

/-! ### Several values -/

@[simp] theorem puts_nil (t : Nested κ α) : t.puts [] = t := rfl

@[simp] theorem puts_cons (e : (κ × κ) × α) (es : List ((κ × κ) × α)) (t : Nested κ α) :
    t.puts (e :: es) = (t.put e.1.1 e.1.2 e.2).puts es := rfl

theorem puts_append (es es' : List ((κ × κ) × α)) (t : Nested κ α) : t.puts (es ++ es') = (t.puts es).puts es' :=
  List.foldl_append

/-- Where nothing was put in, what stood there stands. -/
theorem get_puts_of_notMem (h : k ∉ es.map fun e => e.1.1) : (t.puts es).get k = t.get k := by
  induction es generalizing t with
  | nil => rfl
  | cons e es ih =>
    rw [List.map_cons, List.mem_cons, not_or] at h
    rw [puts_cons, ih h.2, get_put, if_neg (Ne.symm h.1)]

/-- Where something was, a table does. -/
theorem get_puts_of_mem (h : s ∈ es.map fun e => e.1.1) :
    (t.puts es).get s = some (.table ((t.puts es).tableAt s)) := by
  induction es using List.reverseRecOn with
  | nil => cases h
  | append_singleton es e ih =>
    rw [puts_append, puts_cons, puts_nil, get_put, tableAt_put]
    by_cases hs : e.1.1 = s
    · rw [if_pos hs, if_pos hs]
    · rw [if_neg hs, if_neg hs]
      rw [List.map_append, List.mem_append] at h
      exact ih (h.resolve_right fun hm => hs (by simpa [eq_comm] using hm))

/-- **The last value put in stands there**, and where none was, what did before. -/
theorem get_tableAt_puts (es : List ((κ × κ) × α)) (t : Nested κ α) (s l : κ) :
    ((t.puts es).tableAt s).get l = ((es.reverse.lookup (s, l)).map .leaf).or ((t.tableAt s).get l) := by
  induction es using List.reverseRecOn with
  | nil => rfl
  | append_singleton es e ih =>
    obtain ⟨⟨s', l'⟩, a⟩ := e
    rw [puts_append, puts_cons, puts_nil, tableAt_put, List.reverse_append, List.reverse_singleton,
      List.singleton_append, List.lookup_cons]
    by_cases hs : s' = s
    · subst hs
      by_cases hl : l' = l
      · simp [hl]
      · have hne : ((s', l) == (s', l')) = false := by simp [Ne.symm hl]
        simp [hl, hne, ih]
    · have hne : ((s, l) == (s', l')) = false := by simp [Ne.symm hs]
      simp [hs, hne, ih]

/-! ### Laying over -/

theorem merge_insert_leaf (hd : d.Ordered) (ht : t.Ordered) (l : κ) (a : α) :
    d.merge (t.insert l (.leaf a)) = (d.merge t).insert l (.leaf a) := by
  have hleaf : (Node.leaf a : Node κ α).Ordered := trivial
  refine ext_get (hd.merge (ht.insert hleaf)) ((hd.merge ht).insert hleaf) fun k => ?_
  rw [get_merge (ht.insert hleaf), get_insert, get_insert, get_merge ht]
  split
  · exact laid_leaf _ a
  · rfl

theorem tableAt_merge (hd : d.OpenAt s) (ht : t.OpenAt s) (htord : t.Ordered) :
    (d.merge t).tableAt s = (d.tableAt s).merge (t.tableAt s) := by
  have hget := get_merge htord d s
  rcases hd.cases with h | ⟨v, h⟩
  · rw [h, none_laid] at hget
    rw [tableAt_of_none h, nil_merge (htord.tableAt s), tableAt, hget, tableAt]
  · rcases ht.cases with h' | ⟨u, h'⟩
    · rw [h, h', laid_none] at hget
      rw [tableAt_of_get hget, tableAt_of_get h, tableAt_of_none h', merge_nil]
    · rw [h, h', table_laid] at hget
      rw [tableAt_of_get hget, tableAt_of_get h, tableAt_of_get h']

theorem OpenAt.of_merge (h : (d.merge t).OpenAt s) (ht : t.Ordered) : t.OpenAt s :=
  fun a ha => h a (by rw [get_merge ht, ha, laid_leaf])

theorem merge_put (hd : d.Ordered) (ht : t.Ordered) (hds : d.OpenAt s) (hts : t.OpenAt s) (l : κ) (a : α) :
    d.merge (t.put s l a) = (d.merge t).put s l a := by
  refine ext_get (hd.merge (ht.put s l a)) ((hd.merge ht).put s l a) fun k => ?_
  rw [get_merge (ht.put s l a), get_put, get_put, get_merge ht]
  by_cases hk : s = k
  · subst hk
    rw [if_pos rfl, if_pos rfl, tableAt_merge hds hts ht, ← merge_insert_leaf (hd.tableAt s) (ht.tableAt s)]
    rcases hds.cases with h | ⟨u, h⟩
    · rw [h, none_laid, tableAt_of_none h, nil_merge ((ht.tableAt s).insert (n := .leaf a) trivial)]
    · rw [h, table_laid, tableAt_of_get h]
  · rw [if_neg hk, if_neg hk]

/-- **Values put into the upper of two tables stand there over the lower one.** -/
theorem merge_puts (hd : d.Ordered) (ht : t.Ordered)
    (hes : ∀ s ∈ es.map fun e => e.1.1, d.OpenAt s ∧ t.OpenAt s) : d.merge (t.puts es) = (d.merge t).puts es := by
  induction es generalizing t with
  | nil => rfl
  | cons e es ih =>
    rw [List.map_cons, List.forall_mem_cons] at hes
    rw [puts_cons, puts_cons, ih (ht.put _ _ _) fun s hs => ⟨(hes.2 s hs).1, (hes.2 s hs).2.put _ _ _⟩,
      merge_put hd ht hes.1.1 hes.1.2]

end Put

/-! ### Reading -/

theorem Plain.table_of_read {r : Reader κ α} (h : Plain r) {u : Nested κ α} {y : Option (Node κ α)}
    (hr : r.read (some (.table u)) = some y) : ∃ G, r = .table G .nil := by
  cases h with
  | unknown => cases hr
  | typed f => cases hr
  | table F _ => exact ⟨F, rfl⟩

/-- What reads as a table is one, or is missing. -/
theorem Reader.read_tableAt {G : Fields κ α} {t : Nested κ α} {s : κ} {y : Option (Node κ α)}
    (h : (Reader.table G .nil).read (t.get s) = some y) :
    t.OpenAt s ∧ (G.readTable (t.tableAt s)).map (fun c => some (.table c)) = some y := by
  rcases ht : t.get s with _ | n
  · rw [ht] at h
    exact ⟨by simp [OpenAt, ht], by rw [tableAt_of_none ht]; exact h⟩
  · rw [ht] at h
    cases n with
    | leaf a => cases h
    | table u => exact ⟨openAt_of_get ht, by rw [tableAt_of_get ht]; exact h⟩

namespace Fields

variable {F : Fields κ α} {t c c' : Nested κ α} {es : List ((κ × κ) × α)}

/-- A table that is read has no value in the place of a table. -/
theorem openAt_of_read {s : κ} (h : F.readTable t = some c) (hs : ∃ G, F.entry s = .table G .nil) : t.OpenAt s := by
  obtain ⟨G, hG⟩ := hs
  have hread := (readTable_eq_some.mp h).2 s
  rw [hG] at hread
  exact (Reader.read_tableAt hread).1

/-- **Values put into tables that are read as the same** leave them read as the same. -/
theorem readTable_puts (hes : ∀ s ∈ es.map fun e => e.1.1, ∃ G, F.entry s = .table G .nil)
    (ht : F.readTable t = some c) (hc : F.readTable (c.puts es) = some c') : F.readTable (t.puts es) = some c' := by
  obtain ⟨hord, hread⟩ := readTable_eq_some.mp hc
  have htread := (readTable_eq_some.mp ht).2
  refine readTable_eq_some.mpr ⟨hord, fun k => ?_⟩
  by_cases hk : k ∈ es.map fun e => e.1.1
  · obtain ⟨G, hG⟩ := hes k hk
    have hnew := hread k
    have hold := htread k
    have hagain := (F.entry k).again hold
    rw [hG] at hnew hold hagain
    rw [get_puts_of_mem hk] at hnew
    obtain ⟨u', hu', he'⟩ := Option.map_eq_some_iff.mp hnew
    obtain ⟨-, hold⟩ := Reader.read_tableAt hold
    obtain ⟨-, hagain⟩ := Reader.read_tableAt hagain
    obtain ⟨u, hu, he⟩ := Option.map_eq_some_iff.mp hold
    obtain ⟨v, hv, hev⟩ := Option.map_eq_some_iff.mp hagain
    obtain rfl : v = u := by simpa using hev.trans he.symm
    rw [hG, get_puts_of_mem hk, Reader.table_table, ← he', Option.map_eq_some_iff]
    refine ⟨u', readTable_eq_some.mpr ⟨(readTable_eq_some.mp hu').1, fun l => ?_⟩, rfl⟩
    have hl := (readTable_eq_some.mp hu').2 l
    rw [get_tableAt_puts] at hl ⊢
    cases hlook : es.reverse.lookup (k, l) with
    | some a => rwa [hlook] at hl
    | none =>
      -- nothing was put in here: both hold what reads as the same
      rw [hlook, Option.map_none, Option.none_or] at hl
      rw [Option.map_none, Option.none_or, (readTable_eq_some.mp hu).2 l, ← (readTable_eq_some.mp hv).2 l, hl]
  · have hnew := hread k
    rw [get_puts_of_notMem hk] at hnew ⊢
    rw [htread k, ← (F.entry k).again (htread k), hnew]

/-- Values that are read in one table are read in any other. -/
theorem readTable_puts_isSome (hes : ∀ s ∈ es.map fun e => e.1.1, ∃ G, F.entry s = .table G .nil)
    (ht : (F.readTable t).isSome) (hc : (F.readTable (c.puts es)).isSome) : (F.readTable (t.puts es)).isSome := by
  rw [readTable_isSome] at ht hc ⊢
  intro k
  by_cases hk : k ∈ es.map fun e => e.1.1
  · obtain ⟨G, hG⟩ := hes k hk
    have hnew := hc k
    obtain ⟨y, hy⟩ := Option.isSome_iff_exists.mp (ht k)
    rw [hG] at hnew hy ⊢
    obtain ⟨-, hold⟩ := Reader.read_tableAt hy
    rw [get_puts_of_mem hk, Reader.table_table, Option.isSome_map, readTable_isSome] at hnew ⊢
    have hold : (G.readTable (t.tableAt k)).isSome := by
      rw [← Option.isSome_map, hold]
      rfl
    intro l
    have hl := hnew l
    rw [get_tableAt_puts] at hl ⊢
    cases hlook : es.reverse.lookup (k, l) with
    | some a => rwa [hlook] at hl
    | none =>
      rw [Option.map_none, Option.none_or]
      exact readTable_isSome.mp hold l
  · rw [get_puts_of_notMem hk]
    exact ht k

/-- What is read differs from what was only where values were put in. -/
theorem readTable_puts_same (hes : ∀ s ∈ es.map fun e => e.1.1, ∃ G, F.entry s = .table G .nil)
    (hc : F.readTable c = some c) (hc' : F.readTable (c.puts es) = some c') :
    (∀ k, k ∉ (es.map fun e => e.1.1) → c'.get k = c.get k) ∧
      ∀ s l, (s, l) ∉ es.map Prod.fst → (c'.tableAt s).get l = (c.tableAt s).get l := by
  have hread := (readTable_eq_some.mp hc).2
  have hread' := (readTable_eq_some.mp hc').2
  have hsame : ∀ k, k ∉ (es.map fun e => e.1.1) → c'.get k = c.get k := fun k hk => by
    have hnew := hread' k
    rw [get_puts_of_notMem hk, hread k] at hnew
    exact (Option.some.inj hnew).symm
  refine ⟨hsame, fun s l hl => ?_⟩
  by_cases hs : s ∈ es.map fun e => e.1.1
  · obtain ⟨G, hG⟩ := hes s hs
    have hold := hread s
    have hnew := hread' s
    rw [hG] at hold hnew
    obtain ⟨-, hold⟩ := Reader.read_tableAt hold
    rw [get_puts_of_mem hs, Reader.table_table] at hnew
    obtain ⟨u, hu, he⟩ := Option.map_eq_some_iff.mp hold
    obtain ⟨u', hu', he'⟩ := Option.map_eq_some_iff.mp hnew
    have hlook : es.reverse.lookup (s, l) = none := List.lookup_eq_none_iff.mpr fun p hp => by
      simpa using fun he : (s, l) = p.1 => hl (he ▸ List.mem_map_of_mem (List.mem_reverse.mp hp))
    have hl' := (readTable_eq_some.mp hu').2 l
    rw [get_tableAt_puts, hlook, Option.map_none, Option.none_or, (readTable_eq_some.mp hu).2 l] at hl'
    have hc := tableAt_of_get he.symm
    rw [tableAt_of_get he'.symm, ← Option.some.inj hl', tableAt_of_get he.symm]
  · rw [tableAt, hsame s hs, tableAt]

end Fields

end Nested
