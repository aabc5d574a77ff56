/-
# Moving the Solana sections under their venue

`apps/mobius-searcher/src/migrate.rs`, the plan: the sections of the Solana
stack that stand at the top level of the user's file are taken out of it and
put under `[venues.solana]`, each with its comments and its layout. A section
that is written as a value, or that stands in both places, is refused, and so
is a `venues` or a `venues.solana` that is no table.

What a plan does is said of the document as a list (`Relaid`): the entries that
stay, keys and layout and order, and where the sections go. Where a section
stands makes no difference to what the file says: lifted, the
new file is the table that the old one is. So over any file of the repository
it loads where the old one does and to the same configuration, value by value
and each from the same layer; and there is nothing left in it to move.

Key definitions: `Item`, `Editor`, `plan`, `Filled`, `Relaid`.
Key theorems: `plan_eq_ok`, `lift_moved`, `plan_keeps_meaning`.
-/
import MobiusSearcher.Core.ThresholdsFile

namespace MobiusSearcher
namespace Migrate

open Nested Config

/-! ### Documents -/

/-- An item of a document with its layout: a value, a table written as one, or a table of its own, which may be there
only for the tables in it (`implicit`). -/
inductive Item (δ ρ : Type)
  | value (layout : δ) (a : Leaf ρ)
  | inline (layout : δ) (t : Table ρ)
  | table (layout : δ) (implicit : Bool) (entries : List (String × δ × Item δ ρ))

/-- The items of a table under their keys, in the order of the text, each key with its layout. -/
abbrev Entries (δ ρ : Type) := List (String × δ × Item δ ρ)

variable {δ ρ : Type}

mutual

/-- What an item says. -/
def Item.node : Item δ ρ → Node ρ
  | .value _ a => .leaf a
  | .inline _ t => .table t
  | .table _ _ es => .table (tableOf es)

/-- What the items of a table say. -/
def tableOf : List (String × δ × Item δ ρ) → Table ρ
  | [] => .nil
  | (k, _, i) :: es => (tableOf es).insert k i.node

end

mutual

/-- No table of an item is there for nothing: such a table is not printed. -/
def Item.shown : Item δ ρ → Bool
  | .value .. => true
  | .inline .. => true
  | .table _ hidden es => (!hidden || !es.isEmpty) && allShown es

def allShown : List (String × δ × Item δ ρ) → Bool
  | [] => true
  | (_, _, i) :: es => i.shown && allShown es

end

def Item.isTable : Item δ ρ → Bool
  | .table .. => true
  | .value .. => false
  | .inline .. => false

/-- `Table::get`. -/
def find (k : String) (es : Entries δ ρ) : Option (Item δ ρ) := (es.find? fun e => e.1 == k).map fun e => e.2.2

/-- `Table::remove`, of what is there. -/
def drop (k : String) (es : Entries δ ρ) : Entries δ ρ := es.eraseP fun e => e.1 == k

/-- `Table::insert`: in the place of the item with the key, or at the end under a new key. -/
def insert [Inhabited δ] (k : String) (i : Item δ ρ) : Entries δ ρ → Entries δ ρ
  | [] => [(k, default, i)]
  | (k', d, i') :: es => if k' = k then (k', d, i) :: es else (k', d, i') :: insert k i es

/-- The entries of the table under a key. -/
def entriesOf (k : String) (es : Entries δ ρ) : Option (Entries δ ρ) :=
  match find k es with
  | some (.table _ _ inner) => some inner
  | _ => none

/-- A table with other entries. -/
def Item.withEntries (inner : Entries δ ρ) : Item δ ρ → Item δ ρ
  | .table l hidden _ => .table l hidden inner
  | .value l a => .value l a
  | .inline l t => .inline l t

/-- The table under a key, with other entries. -/
def setEntries (k : String) (inner : Entries δ ρ) : Entries δ ρ → Entries δ ρ
  | [] => []
  | (k', d, i) :: es => if k' = k then (k', d, i.withEntries inner) :: es else (k', d, i) :: setEntries k inner es

/-- A document editor that keeps comments and layout `δ`: what it reads and writes. -/
structure Editor [BEq ρ] (T : Toml ρ) (δ : Type) where
  parse : T.Text → Except String (Entries δ ρ)
  print : Entries δ ρ → T.Text
  parse_table : ∀ {text es}, parse text = .ok es → T.parse text = .ok (tableOf es)
  parse_nodup : ∀ {text es}, parse text = .ok es → (es.map Prod.fst).Nodup
  parse_shown : ∀ {text es}, parse text = .ok es → allShown es = true
  print_table : ∀ {es t}, allShown es = true → T.parse (print es) = .ok t → t = tableOf es

/-! ### The plan -/

/-- The sections of the list that are there, taken out of the document in order. -/
def takeOut : List String → Entries δ ρ → Except String (Entries δ ρ × List (String × Item δ ρ))
  | [], doc => .ok (doc, [])
  | sec :: secs, doc =>
    match find sec doc with
    | none => takeOut secs doc
    | some item =>
      if item.isTable then (takeOut secs (drop sec doc)).map fun (doc, items) => (doc, (sec, item) :: items)
      else .error ("`" ++ sec ++ "` is not a table")

section Plan

variable [Inhabited δ]

/-- With a table under the key that is not printed while it is empty, unless there is something. -/
def withImplicit (k : String) (es : Entries δ ρ) : Entries δ ρ :=
  if (find k es).isSome then es else insert k (.table default true []) es

/-- A section put with those of the venue. -/
def moveIn (solana : Entries δ ρ) (e : String × Item δ ρ) : Except String (Entries δ ρ) :=
  if (find e.1 solana).isSome then
    .error ("[" ++ e.1 ++ "] is both at the top level and under [venues.solana]; merge them by hand first")
  else .ok (insert e.1 e.2 solana)

/-- `as_table_mut` of an item. -/
def asTable (k message : String) (es : Entries δ ρ) : Except String (Entries δ ρ) :=
  match entriesOf k es with
  | some inner => .ok inner
  | none => .error message

/-- The document with the sections under the venue. -/
def moveAll (doc : Entries δ ρ) (items : List (String × Item δ ρ)) : Except String (Entries δ ρ) := do
  let doc := withImplicit "venues" doc
  let venues ← asTable "venues" "[venues] is not a table" doc
  let venues := withImplicit "solana" venues
  let solana ← asTable "solana" "[venues.solana] is not a table" venues
  let solana ← items.foldlM moveIn solana
  pure (setEntries "venues" (setEntries "solana" solana venues) doc)

variable [BEq ρ] {T : Toml ρ}

/-- The migrated text and the sections moved, or `none` when there is nothing at the top level to move. -/
def plan (E : Editor T δ) (text : T.Text) : Except String (Option (T.Text × List String)) := do
  let doc ← (E.parse text).mapError fun _ => "parsing the config file"
  let (doc, items) ← takeOut solanaSections doc
  if items.isEmpty then pure none
  else
    let doc ← moveAll doc items
    pure (some (E.print doc, items.map Prod.fst))

end Plan

/-! ### What the items of a table say -/

section Find

variable {k : String} {i : Item δ ρ} {es : Entries δ ρ}

@[simp] theorem find_nil (k : String) : find k ([] : Entries δ ρ) = none := rfl

@[simp] theorem find_cons (k k' : String) (d : δ) (i : Item δ ρ) (es : Entries δ ρ) :
    find k ((k', d, i) :: es) = if k' = k then some i else find k es := by
  by_cases h : k' = k <;> simp [find, h]

theorem find_append (k : String) (es es' : Entries δ ρ) : find k (es ++ es') = (find k es).or (find k es') := by
  induction es with
  | nil => rfl
  | cons e es ih =>
    obtain ⟨k', d, i⟩ := e
    rw [List.cons_append, find_cons, find_cons, ih]
    split <;> simp

theorem find_eq_none : find k es = none ↔ k ∉ es.map Prod.fst := by
  induction es with
  | nil => simp
  | cons e es ih =>
    obtain ⟨k', d, i⟩ := e
    simp only [find_cons, List.map_cons, List.mem_cons, not_or]
    split
    · rename_i hk
      simp [hk]
    · rename_i hk
      rw [ih]
      exact ⟨fun h => ⟨Ne.symm hk, h⟩, And.right⟩

/-- **A table says what its items say.** -/
theorem get_tableOf (k : String) (es : Entries δ ρ) : (tableOf es).get k = (find k es).map Item.node := by
  induction es with
  | nil => rfl
  | cons e es ih =>
    obtain ⟨k', d, i⟩ := e
    rw [tableOf, get_insert, find_cons, ih]
    split <;> rfl

theorem find_drop (hnodup : (es.map Prod.fst).Nodup) (k k' : String) :
    find k' (drop k es) = if k = k' then none else find k' es := by
  induction es with
  | nil => simp [drop]
  | cons e es ih =>
    obtain ⟨k'', d, i⟩ := e
    obtain ⟨hk, hnodup⟩ := List.nodup_cons.mp hnodup
    rw [drop, List.eraseP_cons]
    by_cases h : k'' = k
    · subst h
      simp only [beq_self_eq_true, cond_true, find_cons]
      split
      · rename_i heq
        exact heq ▸ find_eq_none.mpr hk
      · rfl
    · rw [show (k'' == k) = false by simp [h], cond_false, find_cons, find_cons, ← drop, ih hnodup]
      split
      · rename_i heq
        rw [if_neg (fun hc => h (heq.trans hc.symm))]
      · rfl

theorem drop_sublist (k : String) (es : Entries δ ρ) : (drop k es).Sublist es := List.eraseP_sublist

theorem insert_of_none [Inhabited δ] (h : find k es = none) (i : Item δ ρ) : insert k i es = es ++ [(k, default, i)] := by
  induction es with
  | nil => rfl
  | cons e es ih =>
    obtain ⟨k', d, i'⟩ := e
    rw [find_cons] at h
    split at h
    · cases h
    · rename_i hk
      rw [insert, if_neg hk, ih h]
      rfl

theorem entriesOf_eq_some {inner : Entries δ ρ} :
    entriesOf k es = some inner ↔ ∃ l hidden, find k es = some (.table l hidden inner) := by
  rw [entriesOf]
  split
  · rename_i h
    simp [h]
  · rename_i h
    simpa using fun l hidden => h l hidden inner

/-- What is found is the first entry with the key. -/
theorem find_eq_some (h : find k es = some i) :
    ∃ pre d post, es = pre ++ (k, d, i) :: post ∧ k ∉ pre.map Prod.fst := by
  induction es with
  | nil => cases h
  | cons e es ih =>
    obtain ⟨k', d, i'⟩ := e
    rw [find_cons] at h
    split at h
    · rename_i hk
      cases h
      subst hk
      exact ⟨[], d, es, rfl, List.not_mem_nil⟩
    · rename_i hk
      obtain ⟨pre, d', post, rfl, hpre⟩ := ih h
      exact ⟨(k', d, i') :: pre, d', post, rfl, by simp [Ne.symm hk, hpre]⟩

theorem find_skip {pre post : Entries δ ρ} (h : k ∉ pre.map Prod.fst) (d : δ) (k' : String) :
    find k' (pre ++ (k, d, i) :: post) = if k = k' then some i else find k' (pre ++ post) := by
  rw [find_append, find_cons, find_append]
  split
  · rename_i heq
    rw [← heq, find_eq_none.mpr h, Option.none_or]
  · rfl

theorem setEntries_skip {pre post : Entries δ ρ} (h : k ∉ pre.map Prod.fst) (d : δ) (inner : Entries δ ρ) :
    setEntries k inner (pre ++ (k, d, i) :: post) = pre ++ (k, d, i.withEntries inner) :: post := by
  induction pre with
  | nil => simp [setEntries]
  | cons e pre ih =>
    obtain ⟨k', d', i'⟩ := e
    rw [List.map_cons, List.mem_cons, not_or] at h
    rw [List.cons_append, setEntries, if_neg (Ne.symm h.1), ih h.2]
    rfl

end Find

/-! ### What is printed -/

section Shown

variable {k : String} {es inner : Entries δ ρ}

theorem allShown_iff {es : Entries δ ρ} : allShown es = true ↔ ∀ e ∈ es, e.2.2.shown = true := by
  induction es with
  | nil => simp [allShown]
  | cons e es ih =>
    obtain ⟨k, d, i⟩ := e
    simp [allShown, ih]

theorem allShown_append {es es' : Entries δ ρ} :
    allShown (es ++ es') = true ↔ allShown es = true ∧ allShown es' = true := by
  simp only [allShown_iff, List.mem_append, or_imp, forall_and]

theorem shown_find {i : Item δ ρ} (h : allShown es = true) (hi : find k es = some i) : i.shown = true := by
  induction es with
  | nil => cases hi
  | cons e es ih =>
    obtain ⟨k', d, i'⟩ := e
    obtain ⟨hi', hes⟩ := Bool.and_eq_true_iff.mp h
    rw [find_cons] at hi
    split at hi
    · cases hi
      exact hi'
    · exact ih hes hi

theorem shown_table {l : δ} {hidden : Bool} (h : allShown inner = true) (hne : inner ≠ []) :
    (Item.table l hidden inner).shown = true := by
  simp [Item.shown, h, hne]

theorem shown_withEntries {i : Item δ ρ} (h : i.shown = true) (hinner : allShown inner = true) (hne : inner ≠ []) :
    (i.withEntries inner).shown = true := by
  cases i with
  | table l hidden old => exact shown_table hinner hne
  | value l a => exact h
  | inline l t => exact h

theorem shown_setEntries (h : allShown es = true) (hinner : allShown inner = true) (hne : inner ≠ []) :
    allShown (setEntries k inner es) = true := by
  induction es with
  | nil => rfl
  | cons e es ih =>
    obtain ⟨k', d, i⟩ := e
    obtain ⟨hi, hes⟩ := Bool.and_eq_true_iff.mp h
    rw [setEntries]
    split
    · exact Bool.and_eq_true_iff.mpr ⟨shown_withEntries hi hinner hne, hes⟩
    · exact Bool.and_eq_true_iff.mpr ⟨hi, ih hes⟩

/-- An empty table that was put there to be filled is printed once it is. -/
theorem shown_filled [Inhabited δ] (h : allShown es = true) (hinner : allShown inner = true) (hne : inner ≠ []) :
    allShown (setEntries k inner (withImplicit k es)) = true := by
  rw [withImplicit]
  split
  · exact shown_setEntries h hinner hne
  · clear * - h hinner hne
    induction es with
    | nil =>
      simp only [insert, setEntries, if_true]
      exact Bool.and_eq_true_iff.mpr ⟨shown_table hinner hne, rfl⟩
    | cons e es ih =>
      obtain ⟨k', d, i⟩ := e
      obtain ⟨hi, hes⟩ := Bool.and_eq_true_iff.mp h
      rw [insert]
      split
      · rename_i hk
        simp only [setEntries, if_pos hk]
        exact Bool.and_eq_true_iff.mpr ⟨shown_table hinner hne, hes⟩
      · rename_i hk
        simp only [setEntries, if_neg hk]
        exact Bool.and_eq_true_iff.mpr ⟨hi, ih hes⟩

end Shown

/-! ### What a plan does -/

theorem drop_eq_filter {es : Entries δ ρ} (hnodup : (es.map Prod.fst).Nodup) (k : String) :
    drop k es = es.filter fun e => e.1 ≠ k := by
  induction es with
  | nil => rfl
  | cons e es ih =>
    obtain ⟨hk, hnodup⟩ := List.nodup_cons.mp hnodup
    rw [drop, List.eraseP_cons]
    by_cases h : e.1 = k
    · rw [List.filter_cons_of_neg (by simp [h]), h, beq_self_eq_true, cond_true, List.filter_eq_self.mpr]
      intro e' he'
      exact decide_eq_true fun heq => hk (h ▸ heq ▸ List.mem_map_of_mem he')
    · rw [List.filter_cons_of_pos (by simp [h]), show (e.1 == k) = false by simp [h], cond_false, ← drop, ih hnodup]

/-- The sections there are, taken out: what is left is every other entry as it was. -/
theorem takeOut_eq_ok {secs : List String} {doc doc' : Entries δ ρ} {items : List (String × Item δ ρ)}
    (h : takeOut secs doc = .ok (doc', items)) (hdoc : (doc.map Prod.fst).Nodup) (hsecs : secs.Nodup) :
    doc' = doc.filter (fun e => e.1 ∉ secs) ∧ items.map Prod.fst = secs.filter (fun s => (find s doc).isSome) ∧
      ∀ e ∈ items, find e.1 doc = some e.2 ∧ e.2.isTable = true := by
  induction secs generalizing doc items with
  | nil =>
    cases h
    simp
  | cons sec secs ih =>
    obtain ⟨hsec, hsecs⟩ := List.nodup_cons.mp hsecs
    rw [takeOut] at h
    split at h
    · rename_i hnone
      obtain ⟨hrest, hmap, hitems⟩ := ih h hdoc hsecs
      refine ⟨?_, ?_, hitems⟩
      · rw [hrest]
        refine List.filter_congr fun e he => ?_
        have hne : e.1 ≠ sec := fun heq => find_eq_none.mp hnone (heq ▸ List.mem_map_of_mem he)
        simp [hne]
      · rw [hmap, List.filter_cons_of_neg (by simp [hnone])]
    · rename_i item hitem
      split at h
      · rename_i htable
        cases hrest : takeOut secs (drop sec doc) with
        | error e => simp [hrest, Except.map] at h
        | ok p =>
          obtain ⟨doc₁, items₁⟩ := p
          simp only [hrest, Except.map, Except.ok.injEq, Prod.mk.injEq] at h
          obtain ⟨rfl, rfl⟩ := h
          have hsub₀ := drop_sublist sec doc
          obtain ⟨hrest, hmap, hitems⟩ := ih hrest (hdoc.sublist (hsub₀.map Prod.fst)) hsecs
          have hdrop : ∀ k ∈ secs, find k (drop sec doc) = find k doc := fun k hk => by
            rw [find_drop hdoc, if_neg (fun heq : sec = k => hsec (heq ▸ hk))]
          refine ⟨?_, ?_, List.forall_mem_cons.mpr ⟨⟨hitem, htable⟩, fun e he => ?_⟩⟩
          · rw [hrest, drop_eq_filter hdoc, List.filter_filter]
            refine List.filter_congr fun e _ => ?_
            simp [Bool.and_comm]
          · rw [List.map_cons, hmap, List.filter_cons_of_pos (by simp [hitem])]
            exact congrArg _ (List.filter_congr fun k hk => by rw [hdrop k hk])
          · have hmem : e.1 ∈ secs := by
              have := hmap ▸ List.mem_map_of_mem (f := Prod.fst) he
              exact (List.mem_filter.mp this).1
            exact hdrop e.1 hmem ▸ hitems e he
      · cases h

theorem find_filter (es : Entries δ ρ) (keep : String → Bool) (k : String) :
    find k (es.filter fun e => keep e.1) = if keep k then find k es else none := by
  induction es with
  | nil => simp
  | cons e es ih =>
    obtain ⟨k', d, i⟩ := e
    by_cases hkeep : keep k' = true
    · rw [List.filter_cons_of_pos (by simpa using hkeep), find_cons, find_cons, ih]
      by_cases hk : k' = k
      · rw [if_pos hk, if_pos (hk ▸ hkeep), if_pos hk]
      · simp [hk]
    · rw [List.filter_cons_of_neg (by simpa using hkeep), ih, find_cons]
      by_cases hk : k' = k
      · subst hk
        simp [hkeep]
      · simp [hk]

theorem asTable_eq_ok {k message : String} {es inner : Entries δ ρ} :
    asTable k message es = .ok inner ↔ entriesOf k es = some inner := by
  rw [asTable]
  cases entriesOf k es with
  | none => simp
  | some i => simp

section Moved

variable [Inhabited δ]

theorem moveIn_eq_ok {solana solana' : Entries δ ρ} {e : String × Item δ ρ} :
    moveIn solana e = .ok solana' ↔ find e.1 solana = none ∧ solana ++ [(e.1, default, e.2)] = solana' := by
  rw [moveIn]
  cases hfind : find e.1 solana with
  | some i => simp
  | none => simp [insert_of_none hfind]

theorem foldlM_moveIn {items : List (String × Item δ ρ)} {solana solana' : Entries δ ρ}
    (h : items.foldlM moveIn solana = .ok solana') :
    (∀ e ∈ items, find e.1 solana = none) ∧ solana' = solana ++ items.map fun e => (e.1, default, e.2) := by
  induction items generalizing solana with
  | nil =>
    cases h
    simp
  | cons e items ih =>
    rw [List.foldlM_cons] at h
    obtain ⟨solana₁, h₁, h⟩ := Thresholds.exceptBind_eq_ok.mp h
    obtain ⟨hnone, rfl⟩ := moveIn_eq_ok.mp h₁
    obtain ⟨hall, rfl⟩ := ih h
    refine ⟨List.forall_mem_cons.mpr ⟨hnone, fun e' he' => ?_⟩, by simp⟩
    have := hall e' he'
    rw [find_append, Option.or_eq_none_iff] at this
    exact this.1

end Moved

/-- The table under the key has these entries, or there is nothing under it and there are none. -/
def Opens (k : String) (es inner : Entries δ ρ) : Prop :=
  find k es = none ∧ inner = [] ∨ entriesOf k es = some inner

theorem shown_opens {k : String} {es inner : Entries δ ρ} (h : Opens k es inner) (hes : allShown es = true) :
    allShown inner = true := by
  rcases h with ⟨-, rfl⟩ | h
  · rfl
  · obtain ⟨l, hidden, hfind⟩ := entriesOf_eq_some.mp h
    exact (Bool.and_eq_true_iff.mp (shown_find hes hfind)).2

section Relaid

variable [Inhabited δ] {k message : String} {es inner : Entries δ ρ}

/-- The document with the table under a key filled: the first table with the key has other entries, under its own key
and with its own layout; or there was none, and a new one stands at the end. Every other entry is as it was. -/
inductive Filled (k : String) : (es inner es' inner' : Entries δ ρ) → Prop
  | stood (pre post : Entries δ ρ) (d l : δ) (hidden : Bool) (inner inner' : Entries δ ρ) : k ∉ pre.map Prod.fst →
    Filled k (pre ++ (k, d, .table l hidden inner) :: post) inner (pre ++ (k, d, .table l hidden inner') :: post) inner'
  | added (es inner' : Entries δ ρ) : k ∉ es.map Prod.fst →
    Filled k es [] (es ++ [(k, default, .table default true inner')]) inner'

theorem filled (h : asTable k message (withImplicit k es) = .ok inner) (inner' : Entries δ ρ) :
    Filled k es inner (setEntries k inner' (withImplicit k es)) inner' := by
  obtain ⟨l, hidden, hfind⟩ := entriesOf_eq_some.mp (asTable_eq_ok.mp h)
  cases hk : find k es with
  | none =>
    have hadd : withImplicit k es = es ++ [(k, default, .table default true [])] := by
      rw [withImplicit, hk, Option.isSome_none, if_neg Bool.false_ne_true, insert_of_none hk]
    have hnone := find_eq_none.mp hk
    rw [hadd, find_append, hk, Option.none_or, find_cons, if_pos rfl] at hfind
    cases hfind
    rw [hadd, setEntries_skip hnone]
    exact .added es inner' hnone
  | some i =>
    have hsame : withImplicit k es = es := by rw [withImplicit, hk, Option.isSome_some, if_pos rfl]
    rw [hsame] at hfind ⊢
    obtain ⟨pre, d, post, rfl, hpre⟩ := find_eq_some hfind
    rw [setEntries_skip hpre]
    exact .stood pre post d l hidden inner inner' hpre

namespace Filled

variable {es' inner' : Entries δ ρ}

theorem opens (h : Filled k es inner es' inner') : Opens k es inner := by
  cases h with
  | stood pre post d l hidden inner inner' hpre =>
    exact .inr (entriesOf_eq_some.mpr ⟨l, hidden, by rw [find_skip hpre, if_pos rfl]⟩)
  | added es inner' hk => exact .inl ⟨find_eq_none.mpr hk, rfl⟩

/-- The table under the key has the new entries. -/
theorem stands (h : Filled k es inner es' inner') : entriesOf k es' = some inner' := by
  cases h with
  | stood pre post d l hidden inner inner' hpre =>
    exact entriesOf_eq_some.mpr ⟨l, hidden, by rw [find_skip hpre, if_pos rfl]⟩
  | added es inner' hk => exact entriesOf_eq_some.mpr ⟨default, true, by rw [find_skip hk, if_pos rfl]⟩

theorem others (h : Filled k es inner es' inner') {k' : String} (hk' : k' ≠ k) : find k' es' = find k' es := by
  cases h with
  | stood pre post d l hidden inner inner' hpre => rw [find_skip hpre, find_skip hpre, if_neg hk'.symm, if_neg hk'.symm]
  | added es inner' hk => rw [find_skip hk, if_neg hk'.symm, List.append_nil]

end Filled

/-- The sections `items` of `doc` stand under `[venues.solana]` in `doc'`, each as it was, after `solana`, which is what
stood there before. All else stays where it is: the other entries of `doc`, those of `venues`, their keys and layout. -/
structure Relaid (doc doc' venues solana venues' : Entries δ ρ) (items : List (String × Item δ ρ)) : Prop where
  names : items.map Prod.fst = solanaSections.filter fun s => (find s doc).isSome
  apart : ∀ e ∈ items, find e.1 doc = some e.2 ∧ e.2.isTable = true ∧ find e.1 solana = none
  top : Filled "venues" (doc.filter fun e => e.1 ∉ solanaSections) venues doc' venues'
  under : Filled "solana" venues solana venues' (solana ++ items.map fun e => (e.1, default, e.2))

namespace Relaid

variable {doc doc' venues solana venues' : Entries δ ρ} {items : List (String × Item δ ρ)}

theorem opens (h : Relaid doc doc' venues solana venues' items) : Opens "venues" doc venues ∧ Opens "solana" venues solana := by
  refine ⟨?_, h.under.opens⟩
  have hfind := find_filter doc (fun k => decide (k ∉ solanaSections)) "venues"
  rw [if_pos (by decide)] at hfind
  have hopen := h.top.opens
  unfold Opens entriesOf at hopen ⊢
  rwa [hfind] at hopen

theorem stands (h : Relaid doc doc' venues solana venues' items) : entriesOf "venues" doc' = some venues' ∧
    entriesOf "solana" venues' = some (solana ++ items.map fun e => (e.1, default, e.2)) := ⟨h.top.stands, h.under.stands⟩

theorem rest (h : Relaid doc doc' venues solana venues' items) {k : String} (hk : k ≠ "venues") :
    find k doc' = if k ∈ solanaSections then none else find k doc := by
  have hfind := find_filter doc (fun k => decide (k ∉ solanaSections)) k
  rw [h.top.others hk, hfind]
  by_cases hsec : k ∈ solanaSections <;> simp [hsec]

end Relaid

variable [BEq ρ] {T : Toml ρ}

/-- **A plan**: the sections of the file that stand at the top level are put under `[venues.solana]`. -/
theorem plan_eq_ok {E : Editor T δ} {text new : T.Text} {moved : List String}
    (h : plan E text = .ok (some (new, moved))) :
    ∃ doc doc' venues solana venues' items, E.parse text = .ok doc ∧ new = E.print doc' ∧ moved = items.map Prod.fst ∧
      items ≠ [] ∧ allShown doc' = true ∧ Relaid doc doc' venues solana venues' items := by
  obtain ⟨doc, hdoc, h⟩ := Thresholds.exceptBind_eq_ok.mp h
  have hdoc : E.parse text = .ok doc := Thresholds.mapError_eq_ok.mp hdoc
  obtain ⟨⟨doc₁, items⟩, hout, h⟩ := Thresholds.exceptBind_eq_ok.mp h
  obtain ⟨hrest, hnames, hitems⟩ := takeOut_eq_ok hout (E.parse_nodup hdoc) (by decide)
  have hshown := E.parse_shown hdoc
  have hshown₁ : allShown doc₁ = true := allShown_iff.mpr fun e he =>
    allShown_iff.mp hshown e (List.mem_of_mem_filter (hrest ▸ he))
  dsimp only at h
  split at h
  · cases h
  · rename_i hempty
    have hne : items ≠ [] := by simpa using hempty
    obtain ⟨doc', hmove, h⟩ := Thresholds.exceptBind_eq_ok.mp h
    cases h
    obtain ⟨venues, hvenues, hmove⟩ := Thresholds.exceptBind_eq_ok.mp hmove
    obtain ⟨solana, hsolana, hmove⟩ := Thresholds.exceptBind_eq_ok.mp hmove
    obtain ⟨solana', hfold, hmove⟩ := Thresholds.exceptBind_eq_ok.mp hmove
    cases hmove
    obtain ⟨hnone, rfl⟩ := foldlM_moveIn hfold
    have hunder := filled hsolana (solana ++ items.map fun e => (e.1, default, e.2))
    have htop := filled hvenues
      (setEntries "solana" (solana ++ items.map fun e => (e.1, default, e.2)) (withImplicit "solana" venues))
    refine ⟨doc, _, venues, solana, _, items, hdoc, rfl, rfl, hne, ?_, hnames,
      fun e he => ⟨(hitems e he).1, (hitems e he).2, hnone e he⟩, hrest ▸ htop, hunder⟩
    have hitem : ∀ e ∈ items, e.2.shown = true := fun e he => shown_find hshown (hitems e he).1
    have hv := shown_opens htop.opens hshown₁
    have hs := shown_opens hunder.opens hv
    have hfull : allShown (solana ++ items.map fun e => (e.1, default, e.2)) = true := by
      rw [allShown_append]
      refine ⟨hs, allShown_iff.mpr fun e he => ?_⟩
      obtain ⟨e', he', rfl⟩ := List.mem_map.mp he
      exact hitem e' he'
    refine shown_filled hshown₁ (shown_filled hv hfull (by simp [hne])) fun hnil => ?_
    have hstands := hunder.stands
    rw [hnil] at hstands
    cases hstands

end Relaid

/-! ### What is lifted -/

section Lift

variable {display : Node ρ → String} {t u x y : Table ρ}

/-- **Entries that are lifted** are sections that stand nowhere else, and stand at the top level then. -/
theorem liftEntries_eq_ok (hu : u.Ordered) (hx : x.Ordered) :
    liftEntries u x = .ok y ↔ (∀ k, u.get k ≠ none → k ∈ solanaSections ∧ x.get k = none) ∧
      y.Ordered ∧ ∀ k, y.get k = (u.get k).or (x.get k) := by
  induction u using consRec generalizing x with
  | nil =>
    rw [liftEntries, Except.ok.injEq]
    constructor
    · rintro rfl
      exact ⟨by simp, hx, by simp⟩
    · rintro ⟨-, hy, hget⟩
      exact ext_get hx hy fun k => by simp [hget k]
  | cons k n rest _ ih =>
    obtain ⟨hn, -, hrest⟩ := (ordered_cons k n rest).mp hu
    have hhead : rest.get k = none := hu.head
    rw [Thresholds.liftEntries_cons, ih hrest (hx.insert hn)]
    constructor
    · rintro ⟨hk, hnone, hall, hy, hget⟩
      refine ⟨fun k' hk' => ?_, hy, fun k' => ?_⟩
      · rw [get_cons] at hk'
        split at hk'
        · rename_i heq
          exact heq ▸ ⟨hk, hnone⟩
        · rename_i hne
          obtain ⟨hmem, hno⟩ := hall k' hk'
          rw [get_insert, if_neg hne] at hno
          exact ⟨hmem, hno⟩
      · rw [hget k', get_insert, get_cons]
        split
        · rename_i heq
          rw [← heq, hhead, Option.none_or, Option.some_or]
        · rfl
    · rintro ⟨hall, hy, hget⟩
      obtain ⟨hk, hnone⟩ := hall k (by simp)
      refine ⟨hk, hnone, fun k' hk' => ?_, hy, fun k' => ?_⟩
      · have hne : k ≠ k' := by
          rintro rfl
          exact hk' hhead
        obtain ⟨hmem, hno⟩ := hall k' (by rwa [get_cons, if_neg hne])
        exact ⟨hmem, by rwa [get_insert, if_neg hne]⟩
      · rw [hget k', get_insert, get_cons]
        split
        · rename_i heq
          rw [← heq, hhead, Option.none_or, Option.some_or]
        · rfl

/-- What is lifted from a table under `[venues.solana]`. -/
theorem liftInto_eq_ok : liftInto display x (some (.table u)) = .ok y ↔
    (∀ k ∈ u.get "kind", asStr k = some "solana") ∧ liftEntries (u.remove "kind") x = .ok y := by
  rw [liftInto]
  cases hk : u.get "kind" with
  | none => simp [remove_of_get hk]
  | some k => by_cases hkind : asStr k = some "solana" <;> simp [hkind]

/-- Nothing there is the same as an empty table. -/
theorem liftInto_open (h : ∀ a, (t.get "solana") ≠ some (.leaf a)) :
    liftInto display x (t.get "solana") = liftInto display x (some (.table (t.tableAt "solana"))) := by
  rcases OpenAt.cases h with hnone | ⟨u, hu⟩
  · rw [hnone, tableAt_of_none hnone]
    rfl
  · rw [hu, tableAt_of_get hu]

theorem takeSolana_open (h : t.OpenAt "venues") : (takeSolana t).1 = (t.tableAt "venues").get "solana" := by
  rcases h.cases with hnone | ⟨v, hv⟩
  · simp only [takeSolana, hnone, tableAt_of_none hnone, get_nil]
  · simp only [takeSolana, hv, tableAt_of_get hv]

/-- What is left of the venues. -/
theorem rest_venues (ht : t.Ordered) (h : t.OpenAt "venues") : (dropVenues (takeSolana t).2).get "venues" =
    if ((t.tableAt "venues").remove "solana").isEmpty then none
    else some (.table ((t.tableAt "venues").remove "solana")) := by
  rcases h.cases with hnone | ⟨v, hv⟩
  · simp [takeSolana, dropVenues, hnone, tableAt_of_none hnone, remove, isEmpty]
  · have hget : (t.insert "venues" (.table (v.remove "solana"))).get "venues" = some (.table (v.remove "solana")) := by
      rw [get_insert, if_pos rfl]
    simp only [takeSolana, dropVenues, hv, tableAt_of_get hv, hget]
    split
    · rw [get_remove (ht.insert (n := .table _) ((ht.get hv).remove "solana")), if_pos rfl]
    · exact hget

end Lift

section Meaning

variable [Inhabited δ] {display : Node ρ → String} {doc doc' venues solana venues' es inner : Entries δ ρ}
  {items : List (String × Item δ ρ)} {t t' : Table ρ} {k : String} {legacy : Bool}

omit [Inhabited δ] in
theorem opens_table (h : Opens k es inner) :
    (tableOf es).OpenAt k ∧ (tableOf es).tableAt k = tableOf inner := by
  rcases h with ⟨hnone, rfl⟩ | h
  · have hget : (tableOf es).get k = none := by rw [get_tableOf, hnone, Option.map_none]
    exact ⟨fun a => by simp [hget], tableAt_of_none hget⟩
  · obtain ⟨l, hidden, hfind⟩ := entriesOf_eq_some.mp h
    have hget : (tableOf es).get k = some (.table (tableOf inner)) := by
      rw [get_tableOf, hfind, Option.map_some, Item.node]
    exact ⟨openAt_of_get hget, tableAt_of_get hget⟩

/-- **A file is lifted** when what stands under `[venues.solana]` are sections that stand nowhere else. -/
theorem liftSolana_iff (ht : t.Ordered) (hv : t.OpenAt "venues") (hs : (t.tableAt "venues").OpenAt "solana")
    {u : Table ρ} (hu : (t.tableAt "venues").tableAt "solana" = u) :
    liftSolana display t = .ok (t', legacy) ↔ (∀ k ∈ u.get "kind", asStr k = some "solana") ∧
      (∀ k, (u.remove "kind").get k ≠ none → k ∈ solanaSections ∧ t.get k = none) ∧ t'.Ordered ∧
        (∀ k, t'.get k = ((u.remove "kind").get k).or ((dropVenues (takeSolana t).2).get k)) ∧
          legacy = solanaSections.any fun s => (t.get s).isSome := by
  have huord : u.Ordered := hu ▸ (ht.tableAt "venues").tableAt "solana"
  obtain ⟨hord, hnone, -⟩ := takeSolana_spec ht
  have hrest : (dropVenues (takeSolana t).2).Ordered := (dropVenues_spec hord hnone).1
  have hsection : ∀ k ∈ solanaSections, (dropVenues (takeSolana t).2).get k = t.get k := fun k hk =>
    Thresholds.get_rest ht fun he => absurd (he ▸ hk) (by decide)
  rw [Thresholds.liftSolana_eq_ok, takeSolana_open hv, liftInto_open hs, hu, liftInto_eq_ok,
    liftEntries_eq_ok (huord.remove "kind") hrest]
  constructor
  · rintro ⟨⟨hkind, hall, hy, hget⟩, hlegacy⟩
    exact ⟨hkind, fun k hk => ⟨(hall k hk).1, hsection k (hall k hk).1 ▸ (hall k hk).2⟩, hy, hget, hlegacy⟩
  · rintro ⟨hkind, hall, hy, hget, hlegacy⟩
    exact ⟨⟨hkind, fun k hk => ⟨(hall k hk).1, hsection k (hall k hk).1 ▸ (hall k hk).2⟩, hy, hget⟩, hlegacy⟩

theorem find_moved (h : Relaid doc doc' venues solana venues' items) (k : String) :
    find k (items.map fun e => (e.1, (default : δ), e.2)) = if k ∈ solanaSections then find k doc else none := by
  have hmem : k ∈ items.map Prod.fst ↔ k ∈ solanaSections ∧ (find k doc).isSome := by rw [h.names, List.mem_filter]
  by_cases hk : k ∈ items.map Prod.fst
  · rw [if_pos (hmem.mp hk).1]
    have hall := fun e he => (h.apart e he).1
    clear * - hk hall
    induction items with
    | nil => cases hk
    | cons e items ih =>
      obtain ⟨he, hitems⟩ := List.forall_mem_cons.mp hall
      rw [List.map_cons, find_cons]
      split
      · rename_i heq
        rw [← heq, he]
      · rename_i hne
        exact ih ((List.mem_cons.mp hk).resolve_left (Ne.symm hne)) hitems
  · have hnone : find k (items.map fun e => (e.1, (default : δ), e.2)) = none := find_eq_none.mpr (by simpa using hk)
    rw [hnone]
    split
    · rename_i hsec
      have : ¬ (find k doc).isSome := fun hsome => hk (hmem.mpr ⟨hsec, hsome⟩)
      exact (Option.not_isSome_iff_eq_none.mp this).symm
    · rfl

theorem Relaid.wasLegacy (h : Relaid doc doc' venues solana venues' items) (hne : items ≠ []) :
    (solanaSections.any fun s => ((tableOf doc).get s).isSome) = true := by
  obtain ⟨e, he⟩ := List.exists_mem_of_ne_nil items hne
  have hmem : e.1 ∈ items.map Prod.fst := List.mem_map_of_mem he
  rw [h.names] at hmem
  refine List.any_eq_true.mpr ⟨e.1, (List.mem_filter.mp hmem).1, ?_⟩
  rw [get_tableOf, (h.apart e he).1]
  rfl

/-- At the top level of the new file a section is not. -/
theorem Relaid.get_top (h : Relaid doc doc' venues solana venues' items) {k : String} (hk : k ≠ "venues") :
    (tableOf doc').get k = if k ∈ solanaSections then none else (tableOf doc).get k := by
  rw [get_tableOf, h.rest hk, get_tableOf]
  split <;> rfl

theorem Relaid.notLegacy (h : Relaid doc doc' venues solana venues' items) :
    (solanaSections.any fun s => ((tableOf doc').get s).isSome) = false := by
  refine List.any_eq_false.mpr fun s hs => ?_
  rw [h.get_top fun he => absurd (he ▸ hs) (by decide), if_pos hs]
  simp

/-- Under the venue are the entries there were and the sections of the top level. -/
theorem Relaid.get_under (h : Relaid doc doc' venues solana venues' items) (k : String) :
    (tableOf (solana ++ items.map fun e => (e.1, default, e.2))).get k =
      ((tableOf solana).get k).or (if k ∈ solanaSections then (tableOf doc).get k else none) := by
  rw [get_tableOf, get_tableOf, get_tableOf, find_append, find_moved h]
  split <;> cases find k solana <;> simp

/-- The other venues are as they were. -/
theorem Relaid.otherVenues (h : Relaid doc doc' venues solana venues' items) (ht : (tableOf doc).Ordered)
    (hm : (tableOf doc').Ordered) :
    (dropVenues (takeSolana (tableOf doc')).2).get "venues" = (dropVenues (takeSolana (tableOf doc)).2).get "venues" := by
  obtain ⟨hopen, hv⟩ := opens_table h.opens.1
  obtain ⟨hopen', hv'⟩ := opens_table (.inr h.stands.1)
  have hvord := ht.tableAt "venues"
  have hvord' := hm.tableAt "venues"
  have hsame : ((tableOf doc').tableAt "venues").remove "solana" = ((tableOf doc).tableAt "venues").remove "solana" := by
    refine ext_get (hvord'.remove _) (hvord.remove _) fun k => ?_
    rw [get_remove hvord', get_remove hvord]
    split
    · rfl
    · rename_i hk
      rw [hv, hv', get_tableOf, get_tableOf, h.under.others (Ne.symm hk)]
  rw [rest_venues hm hopen', rest_venues ht hopen, hsame]

/-- A section that was moved did not stand under the venue. -/
theorem Relaid.solana_none (h : Relaid doc doc' venues solana venues' items) {k : String} (hk : k ∈ solanaSections)
    (hsome : (tableOf doc).get k ≠ none) : (tableOf solana).get k = none := by
  rw [get_tableOf, ne_eq, Option.map_eq_none_iff] at hsome
  have hmem : k ∈ items.map Prod.fst := by
    rw [h.names, List.mem_filter]
    exact ⟨hk, Option.isSome_iff_ne_none.mpr hsome⟩
  obtain ⟨e, he, rfl⟩ := List.mem_map.mp hmem
  rw [get_tableOf, (h.apart e he).2.2, Option.map_none]

/-- **Where the sections stand makes no difference**: what was moved is lifted as what was there before. -/
theorem lift_moved (h : Relaid doc doc' venues solana venues' items) (hne : items ≠ []) (ht : (tableOf doc).Ordered)
    (hm : (tableOf doc').Ordered) :
    liftSolana display (tableOf doc') = .ok (t', legacy) ↔
      legacy = false ∧ liftSolana display (tableOf doc) = .ok (t', true) := by
  obtain ⟨hvopen, hv⟩ := opens_table h.opens.1
  obtain ⟨hsopen, hs⟩ := opens_table h.opens.2
  obtain ⟨hvopen', hv'⟩ := opens_table (.inr h.stands.1)
  obtain ⟨hsopen', hs'⟩ := opens_table (.inr h.stands.2)
  rw [← hv] at hsopen hs
  rw [← hv'] at hsopen' hs'
  have huord : (tableOf solana).Ordered := hs ▸ (ht.tableAt "venues").tableAt "solana"
  have huord' := hs' ▸ (hm.tableAt "venues").tableAt "solana"
  have hnew : ∀ k ∈ solanaSections, k ≠ "venues" := fun k hk he => absurd (he ▸ hk) (by decide)
  -- the same entries are refused
  have hcond : ∀ k, (((tableOf (solana ++ items.map fun e => (e.1, default, e.2))).remove "kind").get k ≠ none →
      k ∈ solanaSections ∧ (tableOf doc').get k = none) ↔
        (((tableOf solana).remove "kind").get k ≠ none → k ∈ solanaSections ∧ (tableOf doc).get k = none) := by
    intro k
    rw [get_remove huord', get_remove huord]
    by_cases hk : "kind" = k
    · simp [hk]
    · rw [if_neg hk, if_neg hk, h.get_under]
      by_cases hsec : k ∈ solanaSections
      · rw [h.get_top (hnew k hsec), if_pos hsec, if_pos hsec]
        refine ⟨fun _ hsome => ⟨hsec, ?_⟩, fun _ _ => ⟨hsec, rfl⟩⟩
        by_contra hno
        exact hsome (h.solana_none hsec hno)
      · simp [hsec]
  -- and the rest is lifted to the same table
  have hsame : ∀ k, (((tableOf (solana ++ items.map fun e => (e.1, default, e.2))).remove "kind").get k).or
      ((dropVenues (takeSolana (tableOf doc')).2).get k) =
        (((tableOf solana).remove "kind").get k).or ((dropVenues (takeSolana (tableOf doc)).2).get k) := by
    intro k
    rw [get_remove huord', get_remove huord, h.get_under]
    by_cases hvk : k = "venues"
    · subst hvk
      rw [h.otherVenues ht hm, if_neg (show "venues" ∉ solanaSections by decide), Option.or_none]
    · rw [Thresholds.get_rest hm hvk, Thresholds.get_rest ht hvk, h.get_top hvk]
      by_cases hk : "kind" = k
      · subst hk
        simp [solanaSections]
      · rw [if_neg hk, if_neg hk]
        by_cases hsec : k ∈ solanaSections <;> simp [hsec]
  have hkind : (tableOf (solana ++ items.map fun e => (e.1, default, e.2))).get "kind" = (tableOf solana).get "kind" := by
    rw [h.get_under, if_neg (by decide), Option.or_none]
  rw [liftSolana_iff hm hvopen' hsopen' hs', liftSolana_iff ht hvopen hsopen hs, forall_congr' hcond, hkind,
    h.wasLegacy hne, h.notLegacy]
  simp only [hsame]
  tauto

end Meaning

/-! ### What is loaded -/

section Load

variable [BEq ρ] {T : Toml ρ} {S : Sections ρ}

/-- What a layer of a file that parses comes to. -/
theorem addLayer_text {layer : Layer} {path : String} {text : T.Text} {t : Table ρ} (ht : T.parse text = .ok t)
    {w w' : Loading ρ} : addLayer T S layer ⟨path, .text text⟩ w = .ok w' ↔
      ∃ t' legacy, liftSolana T.display t = .ok (t', legacy) ∧ ((config S).readTable ((defaults S).merge t')).isSome ∧
        w' = ⟨w.merged.merge t', w.files ++ [(layer, path)],
          if legacy then w.legacySolana ++ [path] else w.legacySolana,
          (leaves "" t').foldl (fun o e => (e.1, layer) :: o) w.origins⟩ := by
  have hread : readTable T ⟨path, .text text⟩ = .ok (some t) := readTable_eq_ok.mpr ⟨text, rfl, ht⟩
  constructor
  · intro h
    obtain ⟨x, hx, h⟩ := Config.bind_eq_ok.mp h
    rw [hread] at hx
    cases hx
    obtain ⟨⟨t', legacy⟩, hl, h⟩ := Config.bind_eq_ok.mp h
    obtain ⟨c, hc, h⟩ := Config.bind_eq_ok.mp h
    cases h
    refine ⟨t', legacy, Config.mapError_eq_ok.mp hl, ?_, rfl⟩
    rw [toConfig_eq_ok.mp (Config.mapError_eq_ok.mp hc)]
    rfl
  · rintro ⟨t', legacy, hl, hsome, rfl⟩
    obtain ⟨c, hc⟩ := Option.isSome_iff_exists.mp hsome
    exact Config.bind_eq_ok.mpr ⟨some t, hread, Config.bind_eq_ok.mpr ⟨_, Config.mapError_eq_ok.mpr hl,
      Config.bind_eq_ok.mpr ⟨c, Config.mapError_eq_ok.mpr (toConfig_eq_ok.mpr hc), rfl⟩⟩⟩

theorem loadLayered_iff {repo user : File T.Text} {l : Layered ρ} :
    loadLayered T S repo user = .ok l ↔ ∃ w w', addLayer T S .repo repo { merged := defaults S } = .ok w ∧
      (config S).readTable w.merged = some l.belowUser ∧ addLayer T S .user user w = .ok w' ∧
        (config S).readTable w'.merged = some l.config ∧ S.validate l.config = .ok () ∧
          l = ⟨l.config, l.belowUser, w'.files, w'.legacySolana, w'.origins⟩ := by
  constructor
  · intro h
    obtain ⟨w, hw, h⟩ := Config.bind_eq_ok.mp h
    obtain ⟨b, hb, h⟩ := Config.bind_eq_ok.mp h
    obtain ⟨w', hw', h⟩ := Config.bind_eq_ok.mp h
    obtain ⟨c, hc, h⟩ := Config.bind_eq_ok.mp h
    obtain ⟨⟨⟩, hv, h⟩ := Config.bind_eq_ok.mp h
    cases h
    exact ⟨w, w', hw, toConfig_eq_ok.mp (Config.mapError_eq_ok.mp hb), hw', toConfig_eq_ok.mp hc, hv, rfl⟩
  · rintro ⟨w, w', hw, hb, hw', hc, hv, hl⟩
    rw [hl]
    exact Config.bind_eq_ok.mpr ⟨w, hw, Config.bind_eq_ok.mpr ⟨_, Config.mapError_eq_ok.mpr (toConfig_eq_ok.mpr hb),
      Config.bind_eq_ok.mpr ⟨w', hw', Config.bind_eq_ok.mpr ⟨_, toConfig_eq_ok.mpr hc,
        Config.bind_eq_ok.mpr ⟨(), hv, rfl⟩⟩⟩⟩⟩

theorem loadLayered_through {repo user : File T.Text} {w w' : Loading ρ} {b c : Table ρ}
    (hw : addLayer T S .repo repo { merged := defaults S } = .ok w) (hb : (config S).readTable w.merged = some b)
    (hw' : addLayer T S .user user w = .ok w') (hc : (config S).readTable w'.merged = some c)
    (hv : S.validate c = .ok ()) :
    loadLayered T S repo user = .ok ⟨c, b, w'.files, w'.legacySolana, w'.origins⟩ :=
  loadLayered_iff.mpr ⟨w, w', hw, hb, hw', hc, hv, rfl⟩

/-- Two loads that differ in nothing but the user's file: of the first, at `path`, it is said that it has sections of
Solana's at the top level. -/
structure SameLoad (path path' : String) (l l' : Layered ρ) : Prop where
  config : l'.config = l.config
  belowUser : l'.belowUser = l.belowUser
  origins : l'.origins = l.origins
  files : ∃ files, l.files = files ++ [(.user, path)] ∧ l'.files = files ++ [(.user, path')]
  legacySolana : l.legacySolana = l'.legacySolana ++ [path]

section Same

variable {repo : File T.Text} {path path' : String} {text new : T.Text} {t t' : Table ρ} {l l' : Layered ρ}
  (ht : T.parse text = .ok t) (ht' : T.parse new = .ok t')
  (h : ∀ y legacy, liftSolana T.display t' = .ok (y, legacy) ↔ legacy = false ∧ liftSolana T.display t = .ok (y, true))

include ht ht' h

/-- A file that is lifted to the same table loads to the same. -/
theorem load_new (hlegacy : ∀ y legacy, liftSolana T.display t = .ok (y, legacy) → legacy = true)
    (hl : loadLayered T S repo ⟨path, .text text⟩ = .ok l) :
    ∃ l', loadLayered T S repo ⟨path', .text new⟩ = .ok l' ∧ SameLoad path path' l l' := by
  obtain ⟨w, w', hw, hb, hw', hc, hv, hl⟩ := loadLayered_iff.mp hl
  obtain ⟨y, legacy, hlift, hsome, rfl⟩ := (addLayer_text ht).mp hw'
  obtain rfl := hlegacy y legacy hlift
  have hnew : addLayer T S .user ⟨path', .text new⟩ w = .ok _ :=
    (addLayer_text ht').mpr ⟨y, false, (h y false).mpr ⟨rfl, hlift⟩, hsome, rfl⟩
  refine ⟨_, loadLayered_through hw hb hnew hc hv, ⟨rfl, rfl, ?_, ?_, ?_⟩⟩
  · rw [hl]
  · exact ⟨w.files, by rw [hl], rfl⟩
  · rw [hl]
    rfl

theorem load_old (hl : loadLayered T S repo ⟨path', .text new⟩ = .ok l') :
    ∃ l, loadLayered T S repo ⟨path, .text text⟩ = .ok l ∧ SameLoad path path' l l' := by
  obtain ⟨w, w', hw, hb, hw', hc, hv, hl⟩ := loadLayered_iff.mp hl
  obtain ⟨y, legacy, hlift, hsome, rfl⟩ := (addLayer_text ht').mp hw'
  obtain ⟨rfl, hold⟩ := (h y legacy).mp hlift
  have hlayer : addLayer T S .user ⟨path, .text text⟩ w = .ok _ :=
    (addLayer_text ht).mpr ⟨y, true, hold, hsome, rfl⟩
  refine ⟨_, loadLayered_through hw hb hlayer hc hv, ⟨rfl, rfl, ?_, ?_, ?_⟩⟩
  · rw [hl]
  · exact ⟨w.files, rfl, by rw [hl]⟩
  · rw [hl]
    rfl

end Same

variable [Inhabited δ]

/-- **A migration keeps the meaning of the file.** The sections that stood at the top level stand under the venue, each
with its comments and its layout, and nothing else is different. Under any name and over any file of the repository,
the new text loads where the old one does and nowhere else, to the same configuration, every value of it from the same
layer; and there is nothing in it to move. -/
theorem plan_keeps_meaning (T : Toml ρ) (S : Sections ρ) (E : Editor T δ) {text new : T.Text} {moved : List String}
    {m : Table ρ} (h : plan E text = .ok (some (new, moved))) (hnew : T.parse new = .ok m) :
    (∃ doc doc' venues solana venues' items, E.parse text = .ok doc ∧ new = E.print doc' ∧
      moved = items.map Prod.fst ∧ Relaid doc doc' venues solana venues' items) ∧
    (∀ repo path path' l, loadLayered T S repo ⟨path, .text text⟩ = .ok l →
      ∃ l', loadLayered T S repo ⟨path', .text new⟩ = .ok l' ∧ SameLoad path path' l l') ∧
    (∀ repo path path' l', loadLayered T S repo ⟨path', .text new⟩ = .ok l' →
      ∃ l, loadLayered T S repo ⟨path, .text text⟩ = .ok l ∧ SameLoad path path' l l') ∧
    ∀ r, plan E new = .ok r → r = none := by
  obtain ⟨doc, doc', venues, solana, venues', items, hdoc, rfl, rfl, hne, hshown, hrelaid⟩ := plan_eq_ok h
  have ht := E.parse_table hdoc
  have hm : m = tableOf doc' := E.print_table hshown hnew
  subst hm
  have hlift : ∀ y legacy, liftSolana T.display (tableOf doc') = .ok (y, legacy) ↔
      legacy = false ∧ liftSolana T.display (tableOf doc) = .ok (y, true) := fun y legacy =>
    lift_moved hrelaid hne (T.ordered ht) (T.ordered hnew)
  have hlegacy : ∀ y legacy, liftSolana T.display (tableOf doc) = .ok (y, legacy) → legacy = true := fun y legacy hl => by
    rw [(Thresholds.liftSolana_eq_ok.mp hl).2]
    exact hrelaid.wasLegacy hne
  refine ⟨⟨doc, doc', venues, solana, venues', items, hdoc, rfl, rfl, hrelaid⟩,
    fun repo path path' l hl => load_new ht hnew hlift hlegacy hl,
    fun repo path path' l' hl => load_old ht hnew hlift hl, fun r hr => ?_⟩
  rcases r with _ | ⟨new', moved'⟩
  · rfl
  · obtain ⟨doc₁, _, _, _, _, items₁, hdoc₁, -, -, hne₁, -, hrelaid₁⟩ := plan_eq_ok hr
    have htable : tableOf doc₁ = tableOf doc' := by
      have hagain := E.parse_table hdoc₁
      rw [hnew] at hagain
      exact (Except.ok.inj hagain).symm
    have hlegacy₁ := hrelaid₁.wasLegacy hne₁
    rw [htable, hrelaid.notLegacy] at hlegacy₁
    cases hlegacy₁

end Load

/-! ### Comments that stay -/

/-- A table as a document of values. -/
def ofTable : Table ρ → Entries String ρ
  | .nil => []
  | .leaf k a rest => (k, "", .value "" a) :: ofTable rest
  | .sub k t rest => (k, "", .inline "" t) :: ofTable rest

theorem tableOf_ofTable {t : Table ρ} (h : t.Ordered) : tableOf (ofTable t) = t := by
  induction t using consRec with
  | nil => rfl
  | cons k n rest _ ih =>
    obtain ⟨hn, -, hrest⟩ := (ordered_cons k n rest).mp h
    have hcons : tableOf (ofTable (cons k n rest)) = (tableOf (ofTable rest)).insert k n := by cases n <;> rfl
    rw [hcons, ih hrest]
    refine ext_get (hrest.insert hn) h fun k' => ?_
    rw [get_insert, get_cons]

theorem commented_eq_of_beq : ∀ v w : Empty, (v == w) = true → v = w := fun v => v.elim

/-- Files that are the documents they hold, with their comments. -/
def commented : Toml Empty where
  Text := Entries String Empty
  parse es := if (tableOf es).Ordered then .ok (tableOf es) else .error "duplicate key"
  print t := .ok (ofTable t)
  fits _ := true
  display _ := ""
  refused _ := "not a configuration"
  overflows _ := "out of range"
  eq_of_beq := commented_eq_of_beq
  ordered {text t} h := by
    split at h
    · rename_i hord
      cases h
      exact hord
    · cases h
  parse_print {t} hord _ := ⟨ofTable t, rfl, by rw [tableOf_ofTable hord, if_pos hord]⟩

def commentedEditor : Editor commented String where
  parse es :=
    if (es.map Prod.fst).Nodup ∧ allShown es = true ∧ (tableOf es).Ordered then .ok es else .error "duplicate key"
  print es := es
  parse_table {text es} h := by
    split at h
    · rename_i hok
      cases h
      exact if_pos hok.2.2
    · cases h
  parse_nodup {text es} h := by
    split at h
    · rename_i hok
      cases h
      exact hok.1
    · cases h
  parse_shown {text es} h := by
    split at h
    · rename_i hok
      cases h
      exact hok.2.1
    · cases h
  print_table {es t} _ h := by
    simp only [commented] at h
    split at h
    · exact (Except.ok.inj h).symm
    · cases h

/-- Jupiter's section, with comments. -/
def jupiterItem : Item String Empty :=
  .table "# fees\n" false [("slippage", "# tighter than rtse\n", .value " # bps" (.string "10"))]

/-- A user's file with the section at the top level, and one with it under the venue. -/
def oldFile : commented.Text := [("jupiter", "", jupiterItem)]

def newFile : commented.Text :=
  [("venues", "", .table "" true [("solana", "", .table "" true [("jupiter", "", jupiterItem)])])]

theorem plan_oldFile : plan commentedEditor oldFile = .ok (some (newFile, ["jupiter"])) := rfl

theorem plan_keeps_meaning_comments :
    (∃ doc doc' venues solana venues' items, commentedEditor.parse oldFile = .ok doc ∧
      newFile = commentedEditor.print doc' ∧ ["jupiter"] = items.map Prod.fst ∧
        Relaid doc doc' venues solana venues' items) ∧
    (∀ repo path path' l, loadLayered commented Thresholds.slippageOnly repo ⟨path, .text oldFile⟩ = .ok l →
      ∃ l', loadLayered commented Thresholds.slippageOnly repo ⟨path', .text newFile⟩ = .ok l' ∧
        SameLoad path path' l l') ∧
    (∀ repo path path' l', loadLayered commented Thresholds.slippageOnly repo ⟨path', .text newFile⟩ = .ok l' →
      ∃ l, loadLayered commented Thresholds.slippageOnly repo ⟨path, .text oldFile⟩ = .ok l ∧
        SameLoad path path' l l') ∧
    ∀ r, plan commentedEditor newFile = .ok r → r = none :=
  plan_keeps_meaning commented Thresholds.slippageOnly commentedEditor plan_oldFile (m := tableOf newFile) rfl

end Migrate
end MobiusSearcher
