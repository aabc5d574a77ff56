/-
# Reading nested tables as types

What deserializing a table into a structure does to it, entry by entry. A
`Reader` takes what a key holds, or that it holds nothing, and gives what the
value read would be written as, or refuses. A field reads a value, or stands
for a default when nothing is there; a table reads each of its keys with the
reader for that key; a table that is missing is read as another one.

For two tables that read, this is what a difference does: laid over anything
that read as the first, it gives the second (`Reader.SteadyAt`); laid over
anything that reads at all, it still reads (`Reader.LenientAt`). Only an entry
of a map is neither: where nothing stands, the difference of two entries may
lack a field it needs.

Key definitions: `Reader`, `Typed`, `Fields.readTable`, `Reader.table`,
`Reader.present`, `Plain`.
Key theorems: `Fields.readTable_eq_some`, `Plain.steady`, `Plain.lenient`,
`Reader.steadyAt_present`.
-/
import MobiusSearcher.Lib.Nested

namespace Nested

variable {κ α : Type*} [LinearOrder κ]

/-- Reading what a key holds: what the value read is written as, nothing where it is not written at all. -/
structure Reader (κ α : Type*) [LinearOrder κ] where
  read : Option (Node κ α) → Option (Option (Node κ α))
  ordered : ∀ {x n}, read x = some (some n) → n.Ordered
  /-- What was written is read as what it was. -/
  again : ∀ {x y}, read x = some y → read y = some y

namespace Reader

/-- A key of which nothing is known: nothing may stand there. -/
def unknown : Reader κ α where
  read
    | none => some none
    | some _ => none
  ordered {x n} h := by cases x <;> simp at h
  again {x y} h := by
    cases x with
    | none => exact Option.some.inj h ▸ rfl
    | some n => cases h

/-- An entry that need not be there. -/
def present (r : Reader κ α) : Reader κ α where
  read
    | none => some none
    | some n => r.read (some n)
  ordered {x n} h := by
    cases x with
    | none => simp at h
    | some m => exact r.ordered h
  again {x y} h := by
    cases x with
    | none => exact Option.some.inj h ▸ rfl
    | some m =>
      cases y with
      | none => rfl
      | some n => exact r.again h

@[simp] theorem present_some (r : Reader κ α) (n : Node κ α) : r.present.read (some n) = r.read (some n) := rfl

@[simp] theorem present_none (r : Reader κ α) : r.present.read none = some none := rfl

end Reader

/-- A value of one type. -/
structure Typed (α : Type*) where
  read : α → Option α
  /-- What stands for it where it is missing: a value, the absence of one, or an error. -/
  absent : Option (Option α)
  again : ∀ {a b}, read a = some b → read b = some b
  absent_reads : ∀ {a}, absent = some (some a) → read a = some a

namespace Typed

def reader (f : Typed α) : Reader κ α where
  read
    | none => f.absent.map (Option.map .leaf)
    | some (.leaf a) => (f.read a).map fun b => some (.leaf b)
    | some (.table _) => none
  ordered {x n} h := by
    rcases x with _ | x
    · obtain ⟨a, -, ha⟩ := Option.map_eq_some_iff.mp h
      obtain ⟨b, -, rfl⟩ := Option.map_eq_some_iff.mp ha
      trivial
    · cases x with
      | leaf a =>
        obtain ⟨b, -, hb⟩ := Option.map_eq_some_iff.mp h
        exact Option.some.inj hb ▸ trivial
      | table t => cases h
  again {x y} h := by
    rcases x with _ | x
    · obtain ⟨a, ha, rfl⟩ := Option.map_eq_some_iff.mp h
      cases a with
      | none => simp [ha]
      | some a => simp [f.absent_reads ha]
    · cases x with
      | leaf a =>
        obtain ⟨b, hb, rfl⟩ := Option.map_eq_some_iff.mp h
        simp [f.again hb]
      | table t => cases h

variable {f : Typed α}

@[simp] theorem read_leaf (f : Typed α) (a : α) :
    (f.reader : Reader κ α).read (some (.leaf a)) = (f.read a).map fun b => some (.leaf b) := rfl

@[simp] theorem read_table (f : Typed α) (t : Nested κ α) : (f.reader : Reader κ α).read (some (.table t)) = none := rfl

@[simp] theorem read_absent (f : Typed α) :
    (f.reader : Reader κ α).read none = f.absent.map (Option.map .leaf) := rfl

end Typed

/-- The fields of a structure or the entries of a map: a reader for each key, and the keys it looks for. -/
structure Fields (κ α : Type*) [LinearOrder κ] where
  known : List κ
  entry : κ → Reader κ α
  /-- Any other key may be missing. -/
  rest : ∀ {k}, k ∉ known → (entry k).read none = some none

/-- A table with an entry more, where there is one. -/
def insertOpt (k : κ) : Option (Node κ α) → Nested κ α → Nested κ α
  | none, t => t
  | some n, t => t.insert k n

theorem get_insertOpt_ne {k k' : κ} (h : k ≠ k') (x : Option (Node κ α)) (t : Nested κ α) :
    (insertOpt k x t).get k' = t.get k' := by
  cases x with
  | none => rfl
  | some n => rw [insertOpt, get_insert, if_neg h]

theorem get_insertOpt_self {k : κ} {x : Option (Node κ α)} {t : Nested κ α} (h : x = none → t.get k = none) :
    (insertOpt k x t).get k = x := by
  cases x with
  | none => exact h rfl
  | some n => rw [insertOpt, get_insert, if_pos rfl]

/-- The table with these entries. -/
def ofList (l : List (κ × Option (Node κ α))) : Nested κ α := l.foldr (fun e t => insertOpt e.1 e.2 t) .nil

theorem get_ofList {l : List (κ × Option (Node κ α))} (hn : (l.map Prod.fst).Nodup) :
    (∀ e ∈ l, (ofList l).get e.1 = e.2) ∧ ∀ k ∉ l.map Prod.fst, (ofList l).get k = none := by
  induction l with
  | nil => simp [ofList]
  | cons e l ih =>
    rw [List.map_cons, List.nodup_cons] at hn
    obtain ⟨hmem, hrest⟩ := ih hn.2
    have hcons : ofList (e :: l) = insertOpt e.1 e.2 (ofList l) := rfl
    refine ⟨fun e' he => ?_, fun k hk => ?_⟩
    · rcases List.mem_cons.mp he with rfl | he
      · rw [hcons, get_insertOpt_self fun _ => hrest e'.1 hn.1]
      · have hne : e.1 ≠ e'.1 := fun h => hn.1 (h ▸ List.mem_map_of_mem he)
        rw [hcons, get_insertOpt_ne hne, hmem e' he]
    · rw [List.map_cons, List.mem_cons, not_or] at hk
      rw [hcons, get_insertOpt_ne (Ne.symm hk.1), hrest k hk.2]

theorem ordered_ofList {l : List (κ × Option (Node κ α))} (h : ∀ e ∈ l, ∀ n ∈ e.2, n.Ordered) : (ofList l).Ordered := by
  induction l with
  | nil => trivial
  | cons e l ih =>
    have hl := ih fun e' he => h e' (List.mem_cons_of_mem e he)
    have hcons : ofList (e :: l) = insertOpt e.1 e.2 (ofList l) := rfl
    rw [hcons]
    cases he : e.2 with
    | none => exact hl
    | some n => exact hl.insert (h e List.mem_cons_self n he)

theorem all_ofList {p : α → Bool} {l : List (κ × Option (Node κ α))} (h : ∀ e ∈ l, ∀ n ∈ e.2, n.all p = true) :
    (ofList l).all p = true := by
  induction l with
  | nil => rfl
  | cons e l ih =>
    have hl := ih fun e' he => h e' (List.mem_cons_of_mem e he)
    have hcons : ofList (e :: l) = insertOpt e.1 e.2 (ofList l) := rfl
    rw [hcons]
    cases he : e.2 with
    | none => exact hl
    | some n => exact all_insert hl (h e List.mem_cons_self n he)

namespace Fields

variable (F : Fields κ α)

/-- What the keys of a list are read as. -/
def readKeys (t : Nested κ α) : List κ → Option (Nested κ α)
  | [] => some .nil
  | k :: ks => do
    let x ← (F.entry k).read (t.get k)
    let c ← readKeys t ks
    pure (insertOpt k x c)

/-- Read a table: the keys it is looked for and those it has. -/
def readTable (t : Nested κ α) : Option (Nested κ α) := F.readKeys t (F.known ++ t.keys)

variable {F}

theorem readKeys_isSome {t : Nested κ α} {ks : List κ} :
    (F.readKeys t ks).isSome ↔ ∀ k ∈ ks, ((F.entry k).read (t.get k)).isSome := by
  induction ks with
  | nil => simp [readKeys]
  | cons j ks ih =>
    rw [List.forall_mem_cons, ← ih]
    cases hx : (F.entry j).read (t.get j) with
    | none => simp [readKeys, hx]
    | some x => cases hc : F.readKeys t ks <;> simp [readKeys, hx, hc]

theorem readKeys_sound {t : Nested κ α} {ks : List κ} {c : Nested κ α} (h : F.readKeys t ks = some c) :
    c.Ordered ∧ (∀ k ∈ ks, (F.entry k).read (t.get k) = some (c.get k)) ∧ ∀ k ∉ ks, c.get k = none := by
  induction ks generalizing c with
  | nil =>
    obtain rfl : .nil = c := Option.some.inj h
    simp [Nested.Ordered]
  | cons j ks ih =>
    simp only [readKeys, Option.bind_eq_bind, Option.bind_eq_some_iff, Option.pure_def, Option.some.injEq] at h
    obtain ⟨x, hx, c', hc', rfl⟩ := h
    obtain ⟨hord, hks, hrest⟩ := ih hc'
    -- a key that comes twice is read twice, as the same
    have hself : x = none → c'.get j = none := fun hn => by
      by_cases hj : j ∈ ks
      · have := hks j hj
        rw [hx, hn] at this
        exact (Option.some.inj this).symm
      · exact hrest j hj
    refine ⟨?_, fun k hk => ?_, fun k hk => ?_⟩
    · cases x with
      | none => exact hord
      | some n => exact hord.insert ((F.entry j).ordered hx)
    · by_cases hkj : j = k
      · rw [← hkj, get_insertOpt_self hself, hx]
      · rw [get_insertOpt_ne hkj]
        exact hks k ((List.mem_cons.mp hk).resolve_left (Ne.symm hkj))
    · obtain ⟨hne, hk⟩ := not_or.mp (mt List.mem_cons.mpr hk)
      rw [get_insertOpt_ne (Ne.symm hne), hrest k hk]

/-- A key that a table has not, and is not looked for, stands for nothing. -/
theorem read_rest {t : Nested κ α} {k : κ} (h : k ∉ F.known ++ t.keys) : (F.entry k).read (t.get k) = some none := by
  rw [List.mem_append, not_or] at h
  rw [get_of_notMem h.2, F.rest h.1]

/-- A table reads when each of its keys does. -/
theorem readTable_isSome {t : Nested κ α} :
    (F.readTable t).isSome ↔ ∀ k, ((F.entry k).read (t.get k)).isSome := by
  refine readKeys_isSome.trans ⟨fun h k => ?_, fun h k _ => h k⟩
  by_cases hk : k ∈ F.known ++ t.keys
  · exact h k hk
  · simp [F.read_rest hk]

/-- **A table is read key by key.** -/
theorem readTable_eq_some {t c : Nested κ α} :
    F.readTable t = some c ↔ c.Ordered ∧ ∀ k, (F.entry k).read (t.get k) = some (c.get k) := by
  have hsound : ∀ {c}, F.readTable t = some c → c.Ordered ∧ ∀ k, (F.entry k).read (t.get k) = some (c.get k) :=
    fun h => by
      obtain ⟨hord, hks, hrest⟩ := readKeys_sound h
      refine ⟨hord, fun k => ?_⟩
      by_cases hk : k ∈ F.known ++ t.keys
      · exact hks k hk
      · rw [F.read_rest hk, hrest k hk]
  refine ⟨hsound, fun ⟨hord, h⟩ => ?_⟩
  obtain ⟨c', hc'⟩ := Option.isSome_iff_exists.mp (readTable_isSome.mpr fun k => Option.isSome_iff_exists.mpr ⟨_, h k⟩)
  have hc := hsound hc'
  rw [hc', ext_get hc.1 hord fun k => Option.some.inj ((hc.2 k).symm.trans (h k))]

/-- Another value that reads, in a table that does, gives one that does. -/
theorem readTable_insert {t : Nested κ α} {k : κ} {n : Node κ α} (h : F.readTable t = some t)
    (hn : (F.entry k).read (some n) = some (some n)) : F.readTable (t.insert k n) = some (t.insert k n) := by
  obtain ⟨hord, hread⟩ := readTable_eq_some.mp h
  refine readTable_eq_some.mpr ⟨hord.insert ((F.entry k).ordered hn), fun j => ?_⟩
  rw [get_insert]
  split
  · rename_i hj
    rw [← hj, hn]
  · exact hread j

theorem readTable_again {t c : Nested κ α} (h : F.readTable t = some c) : F.readTable c = some c := by
  obtain ⟨hord, hk⟩ := readTable_eq_some.mp h
  exact readTable_eq_some.mpr ⟨hord, fun k => (F.entry k).again (hk k)⟩

/-- A table whose entries read as themselves does so. -/
theorem readTable_ofList {l : List (κ × Option (Node κ α))} (hn : (l.map Prod.fst).Nodup)
    (h : ∀ e ∈ l, (F.entry e.1).read e.2 = some e.2) (hrest : ∀ k ∉ l.map Prod.fst, (F.entry k).read none = some none) :
    F.readTable (ofList l) = some (ofList l) := by
  obtain ⟨hget, hnone⟩ := get_ofList hn
  refine readTable_eq_some.mpr ⟨ordered_ofList fun e he n hne => ?_, fun k => ?_⟩
  · have := h e he
    rw [Option.mem_def.mp hne] at this
    exact (F.entry e.1).ordered this
  · by_cases hk : k ∈ l.map Prod.fst
    · obtain ⟨e, he, rfl⟩ := List.mem_map.mp hk
      rw [hget e he, h e he]
    · rw [hnone k hk, hrest k hk]

/-- The fields of a structure, in its order; nothing else may stand in it. -/
def ofTyped (l : List (κ × Typed α)) : Fields κ α where
  known := l.map Prod.fst
  entry k := ((l.lookup k).map Typed.reader).getD .unknown
  rest {k} h := by
    have : l.lookup k = none := List.lookup_eq_none_iff.mpr fun p hp => by
      simpa using fun he : k = p.1 => h (he ▸ List.mem_map_of_mem hp)
    rw [this]
    rfl

/-- A key is that of a field, or nothing is known of it. -/
theorem entry_cases (l : List (κ × Typed α)) (k : κ) :
    (ofTyped l).entry k = .unknown ∨ ∃ f, (k, f) ∈ l ∧ (ofTyped l).entry k = f.reader := by
  rcases h : l.lookup k with _ | f
  · exact .inl (by simp [ofTyped, h])
  · refine .inr ⟨f, ?_, by simp [ofTyped, h]⟩
    obtain ⟨l₁, l₂, rfl, -⟩ := List.lookup_eq_some_iff.mp h
    simp

theorem entry_ofTyped {l : List (κ × Typed α)} (hn : (l.map Prod.fst).Nodup) {p : κ × Typed α} (hp : p ∈ l) :
    (ofTyped l).entry p.1 = p.2.reader := by
  have : l.lookup p.1 = some p.2 := by
    induction l with
    | nil => cases hp
    | cons q l ih =>
      rw [List.map_cons, List.nodup_cons] at hn
      rcases List.mem_cons.mp hp with rfl | hp
      · exact List.lookup_cons_self
      · have hne : p.1 ≠ q.1 := fun h => hn.1 (h ▸ List.mem_map_of_mem hp)
        rw [List.lookup_cons, beq_false_of_ne hne]
        exact ih hn.2 hp
  simp [ofTyped, this]

/-- The table of a structure, each of its values of the type of its field, reads as itself. -/
theorem readTable_ofTyped {l : List (κ × Option α)} {fs : List (κ × Typed α)} (hn : (fs.map Prod.fst).Nodup)
    (h : List.Forall₂
      (fun e f => e.1 = f.1 ∧ (f.2.reader : Reader κ α).read (e.2.map .leaf) = some (e.2.map .leaf)) l fs) :
    (ofTyped fs).readTable (ofList (l.map fun e => (e.1, e.2.map .leaf))) =
      some (ofList (l.map fun e => (e.1, e.2.map .leaf))) := by
  have hkeys : (l.map fun e => (e.1, e.2.map (Node.leaf (κ := κ)))).map Prod.fst = fs.map Prod.fst := by
    rw [List.map_map, ← List.forall₂_eq_eq_eq, List.forall₂_map_left_iff, List.forall₂_map_right_iff]
    exact h.imp fun _ _ he => he.1
  have hfield : ∀ e ∈ l, ∃ f ∈ fs, e.1 = f.1 ∧
      (f.2.reader : Reader κ α).read (e.2.map .leaf) = some (e.2.map .leaf) := fun e he => by
    clear hn hkeys
    induction h with
    | nil => cases he
    | cons hef _ ih =>
      rcases List.mem_cons.mp he with rfl | he
      · exact ⟨_, List.mem_cons_self, hef⟩
      · obtain ⟨f, hf, hr⟩ := ih he
        exact ⟨f, List.mem_cons_of_mem _ hf, hr⟩
  refine readTable_ofList (hkeys ▸ hn) (fun e he => ?_) fun k hk => (ofTyped fs).rest fun hm => hk (hkeys ▸ hm)
  obtain ⟨e, hel, rfl⟩ := List.mem_map.mp he
  obtain ⟨f, hf, hk, hread⟩ := hfield e hel
  rw [hk, entry_ofTyped hn hf, hread]

/-- The entries of a map, all of one type. -/
def ofEntries (r : Reader κ α) : Fields κ α where
  known := []
  entry _ := r.present
  rest _ := rfl

end Fields

/-- A table under a key, where a missing one is read as `d`. -/
def Reader.table (F : Fields κ α) (d : Nested κ α) : Reader κ α where
  read
    | none => (F.readTable d).map fun c => some (.table c)
    | some (.leaf _) => none
    | some (.table t) => (F.readTable t).map fun c => some (.table c)
  ordered {x n} h := by
    have key : ∀ {t}, ((F.readTable t).map fun c => some (Node.table c)) = some (some n) → n.Ordered := fun h => by
      obtain ⟨c, hc, he⟩ := Option.map_eq_some_iff.mp h
      exact Option.some.inj he ▸ (Fields.readTable_eq_some.mp hc).1
    rcases x with _ | x
    · exact key h
    · cases x with
      | leaf a => cases h
      | table t => exact key h
  again {x y} h := by
    have key : ∀ {t}, ((F.readTable t).map fun c => some (Node.table c)) = some y →
        ∃ c, y = some (.table c) ∧ F.readTable c = some c := fun h => by
      obtain ⟨c, hc, rfl⟩ := Option.map_eq_some_iff.mp h
      exact ⟨c, rfl, Fields.readTable_again hc⟩
    have hy : ∃ c, y = some (.table c) ∧ F.readTable c = some c := by
      rcases x with _ | x
      · exact key h
      · cases x with
        | leaf a => cases h
        | table t => exact key h
    obtain ⟨c, rfl, hc⟩ := hy
    simp [hc]

namespace Reader

@[simp] theorem table_none (F : Fields κ α) (d : Nested κ α) :
    (table F d).read none = (F.readTable d).map fun c => some (.table c) := rfl

@[simp] theorem table_leaf (F : Fields κ α) (d : Nested κ α) (a : α) : (table F d).read (some (.leaf a)) = none := rfl

@[simp] theorem table_table (F : Fields κ α) (d t : Nested κ α) :
    (table F d).read (some (.table t)) = (F.readTable t).map fun c => some (.table c) := rfl

/-- What reads as a table is one. -/
theorem eq_table {F : Fields κ α} {d : Nested κ α} {x y : Option (Node κ α)} (h : (table F d).read x = some y) :
    ∃ c, y = some (.table c) ∧ F.readTable c = some c := by
  have hy := (table F d).again h
  rcases y with _ | y
  · obtain ⟨c, -, hc⟩ := Option.map_eq_some_iff.mp hy
    cases hc
  · cases y with
    | leaf a => cases hy
    | table t =>
      obtain ⟨c, hc, he⟩ := Option.map_eq_some_iff.mp hy
      cases he
      exact ⟨t, rfl, hc⟩

/-- What reads as itself is ordered. -/
theorem ordered_of_read {r : Reader κ α} {c : Option (Node κ α)} (hc : r.read c = some c) : ∀ n ∈ c, n.Ordered :=
  fun n hn => by
    cases hn
    exact r.ordered hc

/-- A missing table is laid over as an empty one is. -/
theorem read_laid_nil (F : Fields κ α) {y : Option (Node κ α)} (hy : ∀ n ∈ y, n.Ordered) :
    (table F .nil).read (laid none y) = (table F .nil).read (laid (some (.table .nil)) y) := by
  rcases y with _ | y
  · rfl
  · cases y with
    | leaf a => rfl
    | table t =>
      have ht : t.Ordered := hy _ rfl
      rw [none_laid, table_laid, nil_merge ht]

/-! ### Differences -/

variable [BEq α]

/-- What a difference from `b` to `c` gives over anything at `x` that was read as `b`: it is read as `c`. -/
def SteadyAt (r : Reader κ α) (x : Option (Node κ α)) : Prop :=
  ∀ b c, (∀ n ∈ x, n.Ordered) → r.read x = some b → r.read c = some c → Kept b c →
    r.read (laid x (changed b c)) = some c

/-- What a difference to `c` leaves of anything at `x` that reads: something that reads. -/
def LenientAt (r : Reader κ α) (x : Option (Node κ α)) : Prop :=
  ∀ b c, (∀ n ∈ x, n.Ordered) → (r.read x).isSome → r.read c = some c → (r.read (laid x (changed b c))).isSome

theorem steadyAt_unknown (x : Option (Node κ α)) : (unknown : Reader κ α).SteadyAt x := by
  intro b c _ hb hc _
  cases x with
  | none =>
    cases c with
    | none => rw [changed_none, laid_none]; exact hc
    | some n => cases hc
  | some n => cases hb

theorem lenientAt_unknown (x : Option (Node κ α)) : (unknown : Reader κ α).LenientAt x := by
  intro b c _ hx hc
  cases c with
  | none => rwa [changed_none, laid_none]
  | some n => cases hc

theorem lenientAt_present {r : Reader κ α} {n : Node κ α} (h : r.LenientAt (some n)) :
    r.present.LenientAt (some n) := by
  intro b c hord hx hc
  cases c with
  | none => rwa [changed_none, laid_none]
  | some m =>
    have := h b (some m) hord hx hc
    rcases hl : laid (some n) (changed b (some m)) with _ | k
    · rfl
    · rwa [hl] at this

theorem changed_ordered {b c : Option (Node κ α)} (hc : ∀ n ∈ c, n.Ordered) : ∀ n ∈ changed b c, n.Ordered := by
  intro n hn
  cases c with
  | none => simp at hn
  | some m =>
    rcases changed_cases hn with rfl | ⟨t, u, -, rfl, rfl⟩
    · exact hc n rfl
    · have hu : u.Ordered := hc _ rfl
      exact hu.diff t

theorem lenientAt_table {F : Fields κ α} {d t : Nested κ α} (h : ∀ k, (F.entry k).LenientAt (t.get k)) :
    (table F d).LenientAt (some (.table t)) := by
  intro b c hord hx hc
  obtain ⟨tc, rfl, hread⟩ := eq_table hc
  obtain ⟨hc', hentry⟩ := Fields.readTable_eq_some.mp hread
  have ht : t.Ordered := hord _ rfl
  have hx : (F.readTable t).isSome := by simpa using hx
  have hkeys := Fields.readTable_isSome.mp hx
  rcases hch : changed b (some (.table tc)) with _ | m
  · simpa [laid_none] using hx
  · rcases changed_cases hch with rfl | ⟨tb, u, rfl, hu, rfl⟩
    · rw [table_laid, table_table, Option.isSome_map]
      refine Fields.readTable_isSome.mpr fun k => ?_
      rw [get_merge hc', ← none_changed (tc.get k)]
      exact h k none (tc.get k) (fun n hn => ht.get hn) (hkeys k) (hentry k)
    · cases hu
      rw [table_laid, table_table, Option.isSome_map]
      refine Fields.readTable_isSome.mpr fun k => ?_
      rw [get_merge (hc'.diff tb), get_diff hc']
      exact h k (tb.get k) (tc.get k) (fun n hn => ht.get hn) (hkeys k) (hentry k)

theorem lenientAt_table_none {F : Fields κ α} (h : ∀ k, (F.entry k).LenientAt none) : (table F .nil).LenientAt none := by
  intro b c _ hx hc
  rw [read_laid_nil F (changed_ordered (ordered_of_read hc))]
  exact lenientAt_table (d := .nil) (t := .nil) h b c (fun n hn => Option.some.inj hn ▸ trivial) hx hc

section Exact

variable (heq : ∀ a b : α, (a == b) = true → a = b)

include heq in
theorem steadyAt_table {F : Fields κ α} {d t : Nested κ α} (h : ∀ k, (F.entry k).SteadyAt (t.get k)) :
    (table F d).SteadyAt (some (.table t)) := by
  intro b c hord hb hc hkept
  have hbc := eq_of_changed heq (fun n hn => (table F d).ordered (hn ▸ hb)) (ordered_of_read hc) hkept
  obtain ⟨tb, rfl, -⟩ := eq_table hb
  obtain ⟨tc, rfl, hread⟩ := eq_table hc
  obtain ⟨hc', hentry⟩ := Fields.readTable_eq_some.mp hread
  have ht : t.Ordered := hord _ rfl
  have htb : F.readTable t = some tb := by simpa using hb
  rcases hch : changed (some (.table tb)) (some (.table tc)) with _ | m
  · rw [laid_none, hb, hbc hch]
  · have hm : m = .table (tb.diff tc) := by
      rw [changed] at hch
      split at hch
      · cases hch
      · exact (Option.some.inj hch).symm
    rw [hm, table_laid, table_table, Option.map_eq_some_iff]
    refine ⟨tc, Fields.readTable_eq_some.mpr ⟨hc', fun k => ?_⟩, rfl⟩
    rw [get_merge (hc'.diff tb), get_diff hc']
    exact h k (tb.get k) (tc.get k) (fun n hn => ht.get hn) ((Fields.readTable_eq_some.mp htb).2 k) (hentry k)
      (hkept.get k)

include heq in
theorem steadyAt_table_none {F : Fields κ α} (h : ∀ k, (F.entry k).SteadyAt none) : (table F .nil).SteadyAt none := by
  intro b c _ hb hc hkept
  rw [read_laid_nil F (changed_ordered (ordered_of_read hc))]
  exact steadyAt_table heq (d := .nil) (t := .nil) h b c (fun n hn => Option.some.inj hn ▸ trivial) hb hc hkept

theorem steadyAt_present {r : Reader κ α} {x : Option (Node κ α)} (h : r.SteadyAt x) : r.present.SteadyAt x := by
  intro b c hord hb hc hkept
  cases x with
  | none =>
    have hb : none = b := Option.some.inj hb
    rw [← hb, none_changed, none_laid, hc]
  | some n =>
    cases c with
    | none => rw [changed_none, laid_none, hb, hkept.none rfl]
    | some m =>
      obtain ⟨k, hk⟩ := laid_some n (changed b (some m))
      have := h b (some m) hord hb hc hkept
      rw [hk] at this ⊢
      exact this

include heq in
theorem steadyAt_typed (f : Typed α) (x : Option (Node κ α)) : (f.reader : Reader κ α).SteadyAt x := by
  intro b c _ hb hc hkept
  rcases c with _ | c
  · rw [changed_none, laid_none, hb, hkept.none rfl]
  · cases c with
    | table t => cases hc
    | leaf a =>
      rcases hch : changed b (some (.leaf a)) with _ | m
      · rcases b with _ | b
        · rw [none_changed] at hch
          cases hch
        · cases b with
          | table t => cases hch
          | leaf b =>
            rw [changed] at hch
            split at hch
            · rename_i h
              rw [laid_none, hb, heq b a h]
            · cases hch
      · rcases changed_cases hch with rfl | ⟨_, _, _, hn, _⟩
        · rw [laid_leaf, hc]
        · cases hn

end Exact

theorem lenientAt_typed (f : Typed α) (x : Option (Node κ α)) : (f.reader : Reader κ α).LenientAt x := by
  intro b c _ hx hc
  rcases c with _ | c
  · rwa [changed_none, laid_none]
  · cases c with
    | table t => cases hc
    | leaf a =>
      rcases hch : changed b (some (.leaf a)) with _ | m
      · rwa [laid_none]
      · rcases changed_cases hch with rfl | ⟨_, _, _, hn, _⟩
        · rw [laid_leaf, hc]
          rfl
        · cases hn

/-- Where nothing stands, what a field has changed to still reads, unless it is required and has not changed. -/
theorem read_changed_isSome {f : Typed α} {x y : Option (Node κ α)} (hy : (f.reader : Reader κ α).read y = some y) :
    ((f.reader : Reader κ α).read (changed x y)).isSome ↔ (f.absent = none → changed x y ≠ none) := by
  rcases y with _ | y
  · have habs : f.absent ≠ none := fun h => by simp [h] at hy
    simp only [changed_none, Typed.read_absent, Option.isSome_map]
    exact iff_of_true (Option.isSome_iff_ne_none.mpr habs) fun h => absurd h habs
  · cases y with
    | table t => cases hy
    | leaf a =>
      rcases hch : changed x (some (.leaf a)) with _ | m
      · simp [Option.isSome_iff_ne_none]
      · rcases changed_cases hch with rfl | ⟨_, _, _, hn, _⟩
        · rw [hy]
          simp
        · cases hn

end Reader

/-- A field, or a table of such readers that may be missing. -/
inductive Plain : Reader κ α → Prop
  | unknown : Plain .unknown
  | typed (f : Typed α) : Plain f.reader
  | table (F : Fields κ α) (h : ∀ k, Plain (F.entry k)) : Plain (.table F .nil)

namespace Plain

theorem ofTyped (l : List (κ × Nested.Typed α)) (k : κ) : Plain ((Fields.ofTyped l).entry k) := by
  rcases Fields.entry_cases l k with h | ⟨f, -, h⟩
  · exact h ▸ .unknown
  · exact h ▸ .typed f

variable [BEq α] {r : Reader κ α}

/-- **Over anything that read as the first, a difference gives the second.** -/
theorem steady (heq : ∀ a b : α, (a == b) = true → a = b) (h : Plain r) (x : Option (Node κ α)) : r.SteadyAt x := by
  induction h generalizing x with
  | unknown => exact Reader.steadyAt_unknown x
  | typed f => exact Reader.steadyAt_typed heq f x
  | table F _ ih =>
    rcases x with _ | x
    · exact Reader.steadyAt_table_none heq fun k => ih k none
    · cases x with
      | leaf a => exact fun _ _ _ hb => absurd hb (by simp)
      | table t => exact Reader.steadyAt_table heq fun k => ih k (t.get k)

/-- **Over anything that reads, a difference leaves something that reads.** -/
theorem lenient (h : Plain r) (x : Option (Node κ α)) : r.LenientAt x := by
  induction h generalizing x with
  | unknown => exact Reader.lenientAt_unknown x
  | typed f => exact Reader.lenientAt_typed f x
  | table F _ ih =>
    rcases x with _ | x
    · exact Reader.lenientAt_table_none fun k => ih k none
    · cases x with
      | leaf a => exact fun _ _ _ hx => absurd hx (by simp)
      | table t => exact Reader.lenientAt_table fun k => ih k (t.get k)

end Plain

end Nested
