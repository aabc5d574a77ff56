/-
# Threshold changes in the user's file

`apps/mobius-searcher/src/thresholds_file.rs`: a change is written into the
user's file, each value under its section at the top level, where the section
is made if it is not there. The text that comes of it is read again and holds
the values.

What the file says is laid over the repository's the next time the program
starts, and its sections for Solana may stand under `[venues.solana]` instead.
A section that stands in both places is refused. So a change of Jupiter's
slippage makes a file unreadable that has `[venues.solana.jupiter]`; any other
change is there after a restart, and nothing else is different.

Key definitions: `Editor`, `write`, `UnderSolana`, `Survives`.
Key theorems: `write_eq_ok`, `liftSolana_puts`, `saved_change_survives`.
-/
import MobiusSearcher.Core.Thresholds

namespace MobiusSearcher
namespace Thresholds

open Nested Config Text

variable {ρ : Type}

/-! ### Lifting what is put in -/

/-- What stands under a key of `[venues.solana]`. -/
def solanaOf (t : Table ρ) (s : String) : Option (Node ρ) := follow ["venues", "solana", s] (some (.table t))

section Lift

variable {display : Node ρ → String} {t t' u x y : Table ρ} {s : String} {legacy : Bool}

theorem solanaOf_put (hs : s ≠ "venues") (l : String) (a : Leaf ρ) (t : Table ρ) (k : String) :
    solanaOf (t.put s l a) k = solanaOf t k := by
  rw [solanaOf, solanaOf, follow, follow, get_put, if_neg hs]

theorem solanaOf_puts {es : List ((String × String) × Leaf ρ)} (hes : ∀ s ∈ es.map fun e => e.1.1, s ≠ "venues")
    (t : Table ρ) (k : String) : solanaOf (t.puts es) k = solanaOf t k := by
  induction es generalizing t with
  | nil => rfl
  | cons e es ih =>
    rw [List.map_cons, List.forall_mem_cons] at hes
    rw [puts_cons, ih hes.2, solanaOf_put hes.1]

/-- What is taken from under `[venues.solana]`. -/
theorem takeSolana_cases (t : Table ρ) :
    (takeSolana t).1 = none ∧ (∀ s, solanaOf t s = none) ∨ (∃ a, (takeSolana t).1 = some (.leaf a)) ∨
      ∃ u, (takeSolana t).1 = some (.table u) ∧ ∀ s, solanaOf t s = u.get s := by
  rw [takeSolana]
  split
  · rename_i v hv
    rcases hn : v.get "solana" with _ | n
    · exact .inl ⟨rfl, fun s => by simp [solanaOf, follow, hv, hn]⟩
    · cases n with
      | leaf a => exact .inr (.inl ⟨a, rfl⟩)
      | table u => exact .inr (.inr ⟨u, rfl, fun s => by simp [solanaOf, follow, hv, hn]⟩)
  · rename_i hv
    refine .inl ⟨rfl, fun s => ?_⟩
    rw [solanaOf, follow]
    rcases ht : t.get "venues" with _ | n
    · rfl
    · cases n with
      | leaf a => rfl
      | table v => exact absurd ht (hv v)

theorem liftEntry_eq_ok {k : String} {n : Node ρ} :
    liftEntry k n x = .ok y ↔ k ∈ solanaSections ∧ x.get k = none ∧ x.insert k n = y := by
  rw [liftEntry]
  split
  · rename_i hk
    simp_all
  · rename_i hk
    split
    · rename_i hsome
      simp [Option.isSome_iff_ne_none.mp hsome]
    · rename_i hnone
      simp_all

theorem liftEntries_cons {k : String} {n : Node ρ} {rest : Table ρ} :
    liftEntries (cons k n rest) x = .ok y ↔
      k ∈ solanaSections ∧ x.get k = none ∧ liftEntries rest (x.insert k n) = .ok y := by
  have h : liftEntries (cons k n rest) x = (liftEntry k n x).bind (liftEntries rest) := by cases n <;> rfl
  rw [h]
  cases hk : liftEntry k n x with
  | error e =>
    have hno : ¬ (k ∈ solanaSections ∧ x.get k = none) := fun ⟨hmem, hnone⟩ => by
      rw [liftEntry_eq_ok.mpr ⟨hmem, hnone, rfl⟩] at hk
      cases hk
    rw [← and_assoc]
    exact ⟨fun he => (by cases he), fun he => absurd he.1 hno⟩
  | ok x₁ =>
    obtain ⟨hmem, hnone, rfl⟩ := liftEntry_eq_ok.mp hk
    simp [hmem, hnone, Except.bind]

/-- A key that is lifted is one of the sections, and stands nowhere else. -/
theorem liftEntries_apart (h : liftEntries u x = .ok y) (hs : u.get s ≠ none) :
    s ∈ solanaSections ∧ x.get s = none := by
  induction u using consRec generalizing x with
  | nil => simp at hs
  | cons k n rest _ ih =>
    obtain ⟨hmem, hnone, h⟩ := liftEntries_cons.mp h
    rw [get_cons] at hs
    by_cases hk : k = s
    · exact hk ▸ ⟨hmem, hnone⟩
    · rw [if_neg hk] at hs
      obtain ⟨hmem', hnone'⟩ := ih h hs
      rw [get_insert, if_neg hk] at hnone'
      exact ⟨hmem', hnone'⟩

/-- Another section is left as it is. -/
theorem liftEntries_put (h : liftEntries u x = .ok y) (hu : u.Ordered) (hx : x.Ordered) (hs : u.get s = none)
    (l : String) (a : Leaf ρ) : liftEntries u (x.put s l a) = .ok (y.put s l a) := by
  induction u using consRec generalizing x with
  | nil =>
    cases h
    rfl
  | cons k n rest _ ih =>
    obtain ⟨hmem, hnone, h⟩ := liftEntries_cons.mp h
    obtain ⟨hn, -, hrest⟩ := (ordered_cons k n rest).mp hu
    rw [get_cons] at hs
    split at hs
    · cases hs
    · rename_i hk
      refine liftEntries_cons.mpr ⟨hmem, by rw [get_put, if_neg (Ne.symm hk), hnone], ?_⟩
      rw [← put_insert (Ne.symm hk) hx hn]
      exact ih h hrest (hx.insert hn) hs

theorem liftInto_table (h : liftInto display x (some (.table u)) = .ok y) :
    liftEntries (u.remove "kind") x = .ok y := by
  rw [liftInto] at h
  split at h
  · rename_i hnone
    rwa [remove_of_get hnone]
  · split at h
    · exact h
    · cases h

theorem liftInto_put (h : liftInto display x (some (.table u)) = .ok y) (hu : u.Ordered) (hx : x.Ordered)
    (hs : u.get s = none) (l : String) (a : Leaf ρ) :
    liftInto display (x.put s l a) (some (.table u)) = .ok (y.put s l a) := by
  rw [liftInto] at h ⊢
  split at h
  · exact liftEntries_put h hu hx hs l a
  · split at h
    · rename_i hkind
      rw [if_pos hkind]
      refine liftEntries_put h (hu.remove "kind") hx ?_ l a
      rw [get_remove hu, hs, ite_self]
    · cases h

theorem takeSolana_put (ht : t.Ordered) (hs : s ≠ "venues") (l : String) (a : Leaf ρ) :
    takeSolana (t.put s l a) = ((takeSolana t).1, (takeSolana t).2.put s l a) := by
  rcases hv : t.get "venues" with _ | n
  · simp only [takeSolana, get_put, if_neg hs, hv]
  · cases n with
    | leaf b => simp only [takeSolana, get_put, if_neg hs, hv]
    | table v =>
      have hord : v.Ordered := ht.get hv
      simp only [takeSolana, get_put, if_neg hs, hv]
      rw [put_insert (n := .table _) hs ht (hord.remove "solana")]

theorem dropVenues_put (hx : x.Ordered) (hs : s ≠ "venues") (l : String) (a : Leaf ρ) :
    dropVenues (x.put s l a) = (dropVenues x).put s l a := by
  rcases hv : x.get "venues" with _ | n
  · simp only [dropVenues, get_put, if_neg hs, hv]
  · cases n with
    | leaf b => simp only [dropVenues, get_put, if_neg hs, hv]
    | table v =>
      simp only [dropVenues, get_put, if_neg hs, hv]
      split
      · rw [put_remove hs hx]
      · rfl

theorem get_rest (ht : t.Ordered) (hs : s ≠ "venues") : (dropVenues (takeSolana t).2).get s = t.get s := by
  have htake : (takeSolana t).2.get s = t.get s := by
    rw [takeSolana]
    split
    · rw [get_insert, if_neg (Ne.symm hs)]
    · rfl
  have hord := (takeSolana_spec ht).1
  rw [dropVenues]
  split
  · split
    · rw [get_remove hord, if_neg (Ne.symm hs), htake]
    · exact htake
  · exact htake

theorem liftSolana_eq_ok : liftSolana display t = .ok (t', legacy) ↔
    liftInto display (dropVenues (takeSolana t).2) (takeSolana t).1 = .ok t' ∧
      legacy = solanaSections.any fun s => (t.get s).isSome := by
  rw [liftSolana]
  cases liftInto display (dropVenues (takeSolana t).2) (takeSolana t).1 with
  | error e => simp [Except.map]
  | ok u => simp [Except.map, eq_comm]

/-- **A section stands in one place**: what is lifted from under `[venues.solana]` is not at the top level. -/
theorem liftSolana_apart (h : liftSolana display t = .ok (t', legacy)) (ht : t.Ordered) (hs : solanaOf t s ≠ none)
    (hkind : s ≠ "kind") : s ∈ solanaSections ∧ t.get s = none := by
  obtain ⟨hinto, -⟩ := liftSolana_eq_ok.mp h
  rcases takeSolana_cases t with ⟨-, hnone⟩ | ⟨a, ha⟩ | ⟨u, hu, hget⟩
  · exact absurd (hnone s) hs
  · rw [ha] at hinto
    cases hinto
  · rw [hu] at hinto
    have huord : u.Ordered := (takeSolana_spec ht).2.2 (.table u) hu
    rw [hget] at hs
    obtain ⟨hmem, hnone⟩ := liftEntries_apart (s := s) (liftInto_table hinto) (by
      rwa [get_remove huord, if_neg (Ne.symm hkind)])
    have hvenues : s ≠ "venues" := fun he => absurd (he ▸ hmem) (by decide)
    exact ⟨hmem, get_rest ht hvenues ▸ hnone⟩

theorem liftSolana_put (h : liftSolana display t = .ok (t', legacy)) (ht : t.Ordered) (hvenues : s ≠ "venues")
    (hs : solanaOf t s = none) (l : String) (a : Leaf ρ) :
    ∃ legacy', liftSolana display (t.put s l a) = .ok (t'.put s l a, legacy') := by
  obtain ⟨hinto, -⟩ := liftSolana_eq_ok.mp h
  obtain ⟨hord, -, hsolana⟩ := takeSolana_spec ht
  have hrest : (dropVenues (takeSolana t).2).Ordered := by
    rw [dropVenues]
    split
    · split
      · exact hord.remove "venues"
      · exact hord
    · exact hord
  refine ⟨_, liftSolana_eq_ok.mpr ⟨?_, rfl⟩⟩
  rw [takeSolana_put ht hvenues, dropVenues_put hord hvenues]
  rcases takeSolana_cases t with ⟨hnone, -⟩ | ⟨b, hb⟩ | ⟨u, hu, hget⟩
  · rw [hnone] at hinto ⊢
    cases hinto
    rfl
  · rw [hb] at hinto
    cases hinto
  · rw [hu] at hinto ⊢
    exact liftInto_put hinto (hsolana (.table u) hu) hrest (hget s ▸ hs) l a

/-- **Values in other sections are lifted with the rest.** -/
theorem liftSolana_puts {es : List ((String × String) × Leaf ρ)} (h : liftSolana display t = .ok (t', legacy))
    (ht : t.Ordered) (hes : ∀ s ∈ es.map fun e => e.1.1, s ≠ "venues" ∧ solanaOf t s = none) :
    ∃ legacy', liftSolana display (t.puts es) = .ok (t'.puts es, legacy') := by
  induction es generalizing t t' legacy with
  | nil => exact ⟨legacy, h⟩
  | cons e es ih =>
    rw [List.map_cons, List.forall_mem_cons] at hes
    obtain ⟨legacy₁, h₁⟩ := liftSolana_put h ht hes.1.1 hes.1.2 e.1.2 e.2
    refine ih h₁ (ht.put _ _ _) fun s hs => ⟨(hes.2 s hs).1, ?_⟩
    rw [solanaOf_put hes.1.1]
    exact (hes.2 s hs).2

end Lift

/-! ### Writing -/

variable [BEq ρ] {T : Toml ρ} {S : Sections ρ}

/-- A document whose values can be changed in place, comments and layout kept: what it holds, and how it is edited. -/
structure Editor (T : Toml ρ) where
  Doc : Type
  /-- The empty text. -/
  empty : T.Text
  parse : T.Text → Except String Doc
  /-- The values and tables of a document. -/
  table : Doc → Table ρ
  /-- `as_table_mut` of an item: a table of its own, not one written as a value. -/
  isTable : String → Doc → Bool
  /-- An empty table under a key. -/
  addTable : String → Doc → Doc
  /-- A value of a table, in its line where it has one. -/
  set : String → String → Leaf ρ → Doc → Doc
  print : Doc → T.Text
  isFloat : ρ → Bool
  parse_empty : T.parse empty = .ok .nil
  parse_table : ∀ {text d}, parse text = .ok d → T.parse text = .ok (table d)
  table_add : ∀ {s d}, (table d).get s = none → table (addTable s d) = (table d).insert s (.table .nil)
  table_set : ∀ {s l v d}, isTable s d = true → table (set s l v d) = (table d).put s l v
  print_table : ∀ {d t}, T.parse (print d) = .ok t → t = table d

section Write

variable (E : Editor T)

/-- A value as one of a document's. -/
def toEdit : Leaf ρ → Except String (Leaf ρ)
  | .string s => .ok (.string s)
  | .integer i => .ok (.integer i)
  | .boolean b => .ok (.boolean b)
  | .other v => if E.isFloat v then .ok (.other v) else .error ("unsupported value " ++ T.display (.leaf (.other v)))
  | .strings xs => .error ("unsupported value " ++ T.display (.leaf (.strings xs)))

/-- The document with something under a key. -/
def withTable (sec : String) (doc : E.Doc) : E.Doc :=
  if ((E.table doc).get sec).isSome then doc else E.addTable sec doc

def asTable (path sec : String) (doc : E.Doc) : Except String Unit :=
  if E.isTable sec doc then .ok () else .error ("[" ++ sec ++ "] is not a table in " ++ path)

/-- One value set. -/
def setOne (path : String) (doc : E.Doc) (kv : String × Leaf ρ) : Except String E.Doc := do
  let (key, value) := kv
  let (sec, name) ← (splitKey key).elim (.error ("bad key " ++ key)) .ok
  let doc := withTable E sec doc
  asTable E path sec doc
  let new ← toEdit E value
  pure (E.set sec name new doc)

/-- What the file says before: nothing, where there is none. -/
def textBefore (file : File T.Text) : Except String T.Text :=
  match file.content with
  | .missing => .ok E.empty
  | .unreadable _ => .error ("reading " ++ file.path)
  | .text s => .ok s

/-- Whether a table has the value under its key. -/
def roundTrips (check : Table ρ) (kv : String × Leaf ρ) : Bool :=
  match get check kv.1 with
  | some (.leaf v) => v == kv.2
  | _ => false

/-- Set `values` (dotted key → TOML value) in the file, created if missing: the text it has then. -/
def write (file : File T.Text) (values : List (String × Leaf ρ)) : Except String T.Text := do
  let text ← textBefore E file
  let doc ← (E.parse text).mapError fun _ => "parsing " ++ file.path
  let doc ← values.foldlM (setOne E file.path) doc
  let text := E.print doc
  let check ← (T.parse text).mapError fun _ => "the edited file does not parse"
  match values.find? fun kv => !roundTrips check kv with
  | some kv => .error (kv.1 ++ " did not round-trip through the edited file")
  | none => .ok text

end Write

/-- The values and tables of a file. -/
def TableOf (file : File T.Text) (t : Table ρ) : Prop :=
  readTable T file = .ok (some t) ∨ readTable T file = .ok none ∧ t = .nil

theorem exceptBind_eq_ok {ε β γ : Type} {x : Except ε β} {f : β → Except ε γ} {c : γ} :
    (x >>= f) = .ok c ↔ ∃ b, x = .ok b ∧ f b = .ok c := by
  cases x with
  | error e => simp [bind, Except.bind]
  | ok a => simp [bind, Except.bind]

theorem toEdit_eq_ok {E : Editor T} {v w : Leaf ρ} (h : toEdit E v = .ok w) : w = v := by
  cases v with
  | other v =>
    rw [toEdit] at h
    split at h
    · cases h
      rfl
    · cases h
  | strings xs => cases h
  | _ =>
    cases h
    rfl

theorem put_withTable {E : Editor T} {doc : E.Doc} (hord : (E.table doc).Ordered) (s l : String) (v : Leaf ρ) :
    (E.table (withTable E s doc)).put s l v = (E.table doc).put s l v := by
  rw [withTable]
  split
  · rfl
  · rename_i hsome
    have hnone : (E.table doc).get s = none := by simpa using hsome
    rw [E.table_add hnone, put_fresh hord hnone]

theorem setOne_eq_ok {E : Editor T} {path : String} {doc doc' : E.Doc} {kv : String × Leaf ρ}
    (h : setOne E path doc kv = .ok doc') (hord : (E.table doc).Ordered) :
    ∃ p, splitKey kv.1 = some p ∧ E.table doc' = (E.table doc).put p.1 p.2 kv.2 := by
  obtain ⟨⟨s, l⟩, hp, h⟩ := exceptBind_eq_ok.mp h
  have hp : splitKey kv.1 = some (s, l) := by
    cases hk : splitKey kv.1 with
    | none =>
      rw [hk] at hp
      cases hp
    | some p =>
      rw [hk] at hp
      cases hp
      rfl
  obtain ⟨_, htable, h⟩ := exceptBind_eq_ok.mp h
  obtain ⟨v, hv, h⟩ := exceptBind_eq_ok.mp h
  cases h
  have htable : E.isTable s (withTable E s doc) = true := by
    by_contra hno
    rw [asTable, if_neg hno] at htable
    cases htable
  refine ⟨(s, l), hp, ?_⟩
  rw [E.table_set htable, toEdit_eq_ok hv]
  exact put_withTable hord s l kv.2

theorem setAll_eq_ok {E : Editor T} {path : String} {vs : List (String × Leaf ρ)} {doc doc' : E.Doc}
    (h : vs.foldlM (setOne E path) doc = .ok doc') (hord : (E.table doc).Ordered) :
    E.table doc' = (E.table doc).puts (edits vs) := by
  induction vs generalizing doc with
  | nil =>
    cases h
    rfl
  | cons kv vs ih =>
    rw [List.foldlM_cons] at h
    obtain ⟨doc₁, h₁, h⟩ := exceptBind_eq_ok.mp h
    obtain ⟨p, hp, htable⟩ := setOne_eq_ok h₁ hord
    have hcons : edits (kv :: vs) = (p, kv.2) :: edits vs := by simp [edits, hp]
    rw [hcons, puts_cons, ← htable]
    exact ih h (htable ▸ hord.put _ _ _)

/-- **A file that is written holds what it did, with the values put in.** -/
theorem write_eq_ok {E : Editor T} {file : File T.Text} {vs : List (String × Leaf ρ)} {text : T.Text}
    (h : write E file vs = .ok text) {t : Table ρ} (ht : TableOf file t) : T.parse text = .ok (t.puts (edits vs)) := by
  obtain ⟨old, hold, h⟩ := exceptBind_eq_ok.mp h
  obtain ⟨doc, hdoc, h⟩ := exceptBind_eq_ok.mp h
  obtain ⟨doc', hset, h⟩ := exceptBind_eq_ok.mp h
  obtain ⟨check, hcheck, h⟩ := exceptBind_eq_ok.mp h
  have htext : E.print doc' = text := by
    split at h
    · cases h
    · exact Except.ok.inj h
  have hparse := E.parse_table (mapError_eq_ok.mp hdoc)
  have htable : E.table doc = t := by
    rcases hc : file.content with _ | e | s
    · rw [textBefore, hc] at hold
      cases hold
      rw [E.parse_empty] at hparse
      rcases ht with ht | ⟨-, rfl⟩
      · simp [readTable, hc] at ht
      · exact (Except.ok.inj hparse).symm
    · rw [textBefore, hc] at hold
      cases hold
    · rw [textBefore, hc] at hold
      cases hold
      rcases ht with ht | ⟨ht, -⟩
      · obtain ⟨s', hs', hread⟩ := readTable_eq_ok.mp ht
        rw [hc] at hs'
        cases hs'
        rw [hparse] at hread
        exact Except.ok.inj hread
      · simp [readTable, hc, hparse] at ht
  rw [← htext, mapError_eq_ok.mp hcheck, E.print_table (mapError_eq_ok.mp hcheck),
    setAll_eq_ok hset (T.ordered hparse), htable]

/-! ### After a restart -/

/-- The user's file has Jupiter's section under `[venues.solana]`. -/
def UnderSolana (T : Toml ρ) (user : File T.Text) : Prop :=
  ∃ t, readTable T user = .ok (some t) ∧ solanaOf t "jupiter" ≠ none

/-- With what was written as the user's file the configuration loads again, as the changed one; and nothing but the
changed keys differs in it. -/
def Survives (T : Toml ρ) (S : Sections ρ) (repo user : File T.Text) (cfg : Table ρ) (change : Change ρ)
    (text : T.Text) : Prop :=
  ∃ l, loadLayered T S repo ⟨user.path, .text text⟩ = .ok l ∧ l.config = change.config ∧
    (∀ k, k ∉ ((edits change.values).map fun e => e.1.1) → l.config.get k = cfg.get k) ∧
      ∀ s k, (s, k) ∉ (edits change.values).map Prod.fst → (l.config.tableAt s).get k = (cfg.tableAt s).get k

/-- The layer of the user's file, an empty one where there is none. -/
theorem loaded_user {repo user : File T.Text} {l : Layered ρ} (h : loadLayered T S repo user = .ok l) :
    ∃ w t t' legacy, addLayer T S .repo repo { merged := defaults S } = .ok w ∧
      (config S).readTable w.merged = some l.belowUser ∧ TableOf user t ∧ t.Ordered ∧
        liftSolana T.display t = .ok (t', legacy) ∧ ((config S).readTable ((defaults S).merge t')).isSome ∧
          (config S).readTable (w.merged.merge t') = some l.config := by
  obtain ⟨w, w', hw, hb, hw', hc⟩ := loadLayered_eq_ok h
  rcases addLayer_eq_ok hw' with ⟨hnone, rfl⟩ | ⟨t, t', legacy, ht, hlift, halone, hm⟩
  · have hlift : liftSolana T.display (.nil : Table ρ) = .ok (.nil, false) := rfl
    refine ⟨w', .nil, .nil, false, hw, hb, .inr ⟨hnone, rfl⟩, trivial, hlift, ?_, hc⟩
    rw [merge_nil, Fields.readTable_again (readTable_defaults S)]
    rfl
  · obtain ⟨text, -, hparse⟩ := readTable_eq_ok.mp ht
    exact ⟨w, t, t', legacy, hw, hb, .inl ht, T.ordered hparse, hlift, halone, hm ▸ hc⟩

section Saved

variable {repo user : File T.Text} {l : Layered ρ} {changes : List (String × String)} {change : Change ρ}
  {text : T.Text}

/-- A change is of the sections of the thresholds, and of Jupiter's only with the slippage. -/
theorem edits_sections (ha : apply T S l.config changes = .ok change) {s : String}
    (hs : s ∈ (edits change.values).map fun e => e.1.1) :
    s ∈ ["profit", "jupiter", "risk"] ∧ (s = "jupiter" → "jupiter.slippage" ∈ changes.map Prod.fst) := by
  obtain ⟨hkeys, hmap, -⟩ := apply_eq_ok ha
  obtain ⟨e, he, rfl⟩ := List.mem_map.mp hs
  obtain ⟨kv, hkv, hp⟩ := List.mem_filterMap.mp he
  obtain ⟨p, hsplit, rfl⟩ := Option.map_eq_some_iff.mp hp
  have hmem : kv.1 ∈ changes.map Prod.fst := hmap ▸ List.mem_map_of_mem hkv
  obtain ⟨th, hth, hkey⟩ := hkeys kv.1 hmem
  obtain ⟨p', hp', hsec, hjupiter⟩ := splitKey_thresholds th hth
  rw [hkey, hsplit] at hp'
  cases hp'
  refine ⟨hsec, fun h => ?_⟩
  rwa [← hjupiter.mp h, hkey]

/-- Each section that is changed is read as a table. -/
theorem edits_tables (hl : loadLayered T S repo user = .ok l) (ha : apply T S l.config changes = .ok change)
    {s : String} (hs : s ∈ (edits change.values).map fun e => e.1.1) :
    s ≠ "venues" ∧ ∃ G, (config S).entry s = .table G .nil := by
  have hvenues : s ≠ "venues" := fun he => absurd (he ▸ (edits_sections ha hs).1) (by decide)
  obtain ⟨w, t, t', legacy, -, -, -, -, -, -, hc⟩ := loaded_user hl
  obtain ⟨-, -, htables, -⟩ := apply_eq_ok ha
  obtain ⟨u, hu⟩ := htables s hs
  have hread := (Fields.readTable_eq_some.mp (Fields.readTable_again hc)).2 s
  rw [hu, config_section S hvenues] at hread
  rw [config_section S hvenues]
  exact ⟨hvenues, (S.plain s).table_of_read hread⟩

/-- Where no changed section stands under `[venues.solana]`, the file that was written loads as the changed
configuration. -/
theorem survives_of_apart (hl : loadLayered T S repo user = .ok l) (ha : apply T S l.config changes = .ok change)
    {E : Editor T} (hw : write E user change.values = .ok text)
    (hapart : ∀ t, TableOf user t → ∀ s ∈ (edits change.values).map fun e => e.1.1, solanaOf t s = none) :
    Survives T S repo user l.config change text := by
  obtain ⟨w, t, t', legacy, hrepo, hb, ht, htord, hlift, halone, hc⟩ := loaded_user hl
  obtain ⟨-, -, -, hread, hvalid⟩ := apply_eq_ok ha
  have htables := fun s hs => edits_tables hl ha (s := s) hs
  obtain ⟨legacy', hlift'⟩ := liftSolana_puts hlift htord fun s hs => ⟨(htables s hs).1, hapart t ht s hs⟩
  have ht'ord := (liftSolana_spec hlift htord).1
  have hopen : ∀ {d c : Table ρ}, (config S).readTable d = some c → ∀ c', (config S).readTable (d.merge t') = some c' →
      ∀ s ∈ (edits change.values).map (fun e => e.1.1), d.OpenAt s ∧ t'.OpenAt s := fun hd _ hm s hs =>
    ⟨Fields.openAt_of_read hd (htables s hs).2, (Fields.openAt_of_read hm (htables s hs).2).of_merge ht'ord⟩
  have hfile : readTable T ⟨user.path, .text text⟩ = .ok (some (t.puts (edits change.values))) :=
    readTable_eq_ok.mpr ⟨text, rfl, write_eq_ok hw ht⟩
  -- over the defaults alone the values read as they do in the configuration
  have halone' : ((config S).readTable ((defaults S).merge (t'.puts (edits change.values)))).isSome := by
    obtain ⟨c, hcread⟩ := Option.isSome_iff_exists.mp halone
    have hdefaults := Fields.readTable_again (readTable_defaults S)
    rw [merge_puts (Fields.readTable_eq_some.mp hdefaults).1 ht'ord (hopen hdefaults c hcread)]
    refine Fields.readTable_puts_isSome (fun s hs => (htables s hs).2) halone (c := l.config) ?_
    rw [hread]
    rfl
  obtain ⟨w', hw', hm⟩ := addLayer_of .user hfile hlift' halone' w
  have hnew : (config S).readTable w'.merged = some change.config := by
    rw [hm, merge_puts (repo_layer hrepo).1 ht'ord (hopen hb l.config hc)]
    exact Fields.readTable_puts (fun s hs => (htables s hs).2) hc hread
  obtain ⟨l', hl', hconfig⟩ := loadLayered_of hrepo hb hw' hnew hvalid
  have hsame := Fields.readTable_puts_same (fun s hs => (htables s hs).2) (Fields.readTable_again hc) hread
  exact ⟨l', hl', hconfig, hconfig ▸ hsame⟩

/-- A section that stands under `[venues.solana]` and has been changed is refused. -/
theorem apart_of_survives {E : Editor T} (hl : loadLayered T S repo user = .ok l)
    (ha : apply T S l.config changes = .ok change) (hw : write E user change.values = .ok text)
    (hs : Survives T S repo user l.config change text) {t : Table ρ} (ht : readTable T user = .ok (some t))
    {s : String} (hmem : s ∈ (edits change.values).map fun e => e.1.1) : solanaOf t s = none := by
  obtain ⟨l', hl', -⟩ := hs
  obtain ⟨w, t₁, t', legacy, -, -, ht₁, hord, hlift, -⟩ := loaded_user hl'
  have hfile : readTable T ⟨user.path, .text text⟩ = .ok (some (t.puts (edits change.values))) :=
    readTable_eq_ok.mpr ⟨text, rfl, write_eq_ok hw (.inl ht)⟩
  have htext : t₁ = t.puts (edits change.values) := by
    rcases ht₁ with ht₁ | ⟨ht₁, -⟩
    · rw [hfile] at ht₁
      cases ht₁
      rfl
    · rw [hfile] at ht₁
      cases ht₁
  by_contra hne
  have hkind : s ≠ "kind" := fun he => absurd (he ▸ (edits_sections ha hmem).1) (by decide)
  rw [htext] at hlift hord
  rw [← solanaOf_puts (fun s hs => (edits_tables hl ha hs).1)] at hne
  have hnone := (liftSolana_apart hlift hord hne hkind).2
  rw [get_puts_of_mem hmem] at hnone
  cases hnone

/-- **A saved change survives a restart**, as the changed configuration and with nothing else different, exactly when
it does not change Jupiter's slippage over a user's file that has Jupiter's section under `[venues.solana]`. -/
theorem saved_change_survives (E : Editor T) (hl : loadLayered T S repo user = .ok l)
    (ha : apply T S l.config changes = .ok change) (hw : write E user change.values = .ok text) :
    Survives T S repo user l.config change text ↔
      ("jupiter.slippage" ∈ changes.map Prod.fst → ¬ UnderSolana T user) := by
  constructor
  · rintro hs hmem ⟨t, ht, hne⟩
    rw [← (apply_eq_ok ha).2.1] at hmem
    exact hne (apart_of_survives hl ha hw hs ht (slippage_edits hmem))
  · intro hcond
    refine survives_of_apart hl ha hw fun t ht s hs => ?_
    by_contra hne
    rcases ht with ht | ⟨-, rfl⟩
    · -- the file was read with the section there, so it is one of Solana's
      obtain ⟨w, t₁, t', legacy, -, -, ht₁, hord, hlift, -⟩ := loaded_user hl
      obtain rfl : t = t₁ := by
        rcases ht₁ with ht₁ | ⟨ht₁, -⟩
        · rw [ht] at ht₁
          cases ht₁
          rfl
        · rw [ht] at ht₁
          cases ht₁
      obtain ⟨hsec, hjupiter⟩ := edits_sections ha hs
      have hkind : s ≠ "kind" := fun he => absurd (he ▸ hsec) (by decide)
      have hsolana := (liftSolana_apart hlift hord hne hkind).1
      have hs' : s = "jupiter" := by
        simp only [List.mem_cons, List.not_mem_nil, or_false] at hsec
        rcases hsec with rfl | rfl | rfl
        · exact absurd hsolana (by decide)
        · rfl
        · exact absurd hsolana (by decide)
      exact hcond (hjupiter hs') ⟨t, ht, hs' ▸ hne⟩
    · exact hne rfl

end Saved

/-! ### Jupiter under Solana -/

/-- Of the sections only Jupiter's, and of it the slippage. -/
def slippageOnly : Sections Empty where
  fields :=
    { known := ["jupiter"]
      entry := fun k =>
        if k = "jupiter" then .table (.ofTyped [("slippage", defaulted isString (.string "rtse") rfl)]) .nil
        else .unknown
      rest := fun {k} h => by
        rw [List.mem_singleton] at h
        rw [if_neg h]
        rfl }
  plain k := by
    dsimp only
    split
    · exact .table _ (Plain.ofTyped _)
    · exact .unknown
  defaults := by decide
  validate _ := .ok ()

/-- Files that are the tables they hold, edited as such. -/
def bareEditor : Editor bare where
  Doc := Table Empty
  empty := .nil
  parse := bare.parse
  table d := d
  isTable s d := match d.get s with
    | some (.table _) => true
    | _ => false
  addTable s d := d.insert s (.table .nil)
  set s l v d := d.put s l v
  print d := d
  isFloat _ := true
  parse_empty := rfl
  parse_table h := h
  table_add _ := rfl
  table_set _ := rfl
  print_table {d t} h := by
    simp only [bare] at h
    split at h
    · exact (Except.ok.inj h).symm
    · cases h

/-- A user's file with the slippage at the top level, and one with it under `[venues.solana]`. -/
def atTop : Table Empty := .sub "jupiter" (.leaf "slippage" (.string "10") .nil) .nil

def underVenue : Table Empty := .sub "venues" (.sub "solana" atTop .nil) .nil

theorem get_defaultSlippage :
    (defaults slippageOnly).get "jupiter" = some (.table (.leaf "slippage" (.string "rtse") .nil)) := by
  have hread := (Fields.readTable_eq_some.mp (readTable_defaults slippageOnly)).2 "jupiter"
  rw [config_section slippageOnly (by decide), get_nil] at hread
  exact (Option.some.inj hread).symm

theorem slippage_reads (v : String) :
    (config slippageOnly).readTable ((defaults slippageOnly).put "jupiter" "slippage" (.string v)) =
      some ((defaults slippageOnly).put "jupiter" "slippage" (.string v)) := by
  refine Fields.readTable_insert (Fields.readTable_again (readTable_defaults slippageOnly)) ?_
  rw [config_section slippageOnly (by decide), tableAt_of_get get_defaultSlippage]
  rfl

theorem defaults_fit : (defaults slippageOnly).all (Leaf.fits bare.fits) = true := by
  have hsmall : ∀ e ∈ defaultVenues, ∀ id ∈ e.2.chainId, id.toNat < 2 ^ 63 := by
    simp [defaultVenues, VenueConfig.okx, VenueConfig.binance, VenueConfig.evm]
  have hvenues := venues_fit (ρ := Empty) hsmall bare.fits
  obtain ⟨hord, hread⟩ := Fields.readTable_eq_some.mp (readTable_defaults slippageOnly)
  have hdefaults : defaults slippageOnly =
      .sub "jupiter" (.leaf "slippage" (.string "rtse") .nil) (.sub "venues" (venuesTable defaultVenues) .nil) := by
    have hvord := (Fields.readTable_eq_some.mp (defaultVenues_read (ρ := Empty))).1
    have hlt : ∀ k ∈ (Nested.sub "venues" (venuesTable defaultVenues) .nil : Table Empty).keys, "jupiter" < k := by
      simp only [keys, List.mem_singleton, forall_eq]
      decide
    refine ext_get hord ⟨⟨by simp [keys], trivial⟩, hlt, hvord, by simp [keys], trivial⟩ fun k => ?_
    by_cases hjupiter : k = "jupiter"
    · rw [hjupiter, get_defaultSlippage]
      rfl
    · by_cases hk : k = "venues"
      · rw [hk, get_defaults]
        rfl
      · have hentry : (config slippageOnly).entry k = .unknown := (config_section _ hk).trans (if_neg hjupiter)
        have hnone := hread k
        rw [hentry] at hnone
        rw [← Option.some.inj hnone]
        simp [Nested.get, Ne.symm hjupiter, Ne.symm hk]
  simp [hdefaults, all, hvenues, Leaf.fits]

/-- The repository has no file. -/
def noRepo : File bare.Text := ⟨"config/mobius.toml", .missing⟩

def userFile (t : Table Empty) : File bare.Text := ⟨"config.toml", .text t⟩

/-- Both files load, with the slippage they set. -/
theorem loads_slippage {t : Table Empty} {legacy : Bool} (ht : t.Ordered)
    (hlift : liftSolana bare.display t = .ok (atTop, legacy)) :
    ∃ l, loadLayered bare slippageOnly noRepo (userFile t) = .ok l ∧
      l.config = (defaults slippageOnly).put "jupiter" "slippage" (.string "10") := by
  have hdefaults := Fields.readTable_again (readTable_defaults slippageOnly)
  have hmerge : (defaults slippageOnly).merge atTop =
      (defaults slippageOnly).put "jupiter" "slippage" (.string "10") :=
    merge_put (t := .nil) (Fields.readTable_eq_some.mp hdefaults).1 trivial (openAt_of_get get_defaultSlippage)
      (by simp [OpenAt]) "slippage" (.string "10")
  have hread := slippage_reads "10"
  rw [← hmerge] at hread
  have hfile : readTable bare (userFile t) = .ok (some t) := readTable_eq_ok.mpr ⟨t, rfl, if_pos ht⟩
  obtain ⟨w', hw', hm⟩ := addLayer_of .user hfile hlift (by rw [hread]; rfl) { merged := defaults slippageOnly }
  have hrepo : addLayer bare slippageOnly .repo noRepo { merged := defaults slippageOnly } =
      .ok { merged := defaults slippageOnly } := rfl
  obtain ⟨l, hl, hconfig⟩ := loadLayered_of hrepo hdefaults hw' (hm ▸ hread) rfl
  exact ⟨l, hl, hconfig.trans (hm.trans hmerge)⟩

/-- The slippage can be changed. -/
theorem changes_slippage : ∃ change, apply bare slippageOnly
    ((defaults slippageOnly).put "jupiter" "slippage" (.string "10")) [("jupiter.slippage", "20")] = .ok change ∧
      change.values = [("jupiter.slippage", .string "20")] := by
  set cfg := (defaults slippageOnly).put "jupiter" "slippage" (.string "10") with hcfg
  have hget : cfg.get "jupiter" = some (.table (.leaf "slippage" (.string "10") .nil)) := by
    rw [hcfg, get_put, if_pos rfl, tableAt_of_get get_defaultSlippage]
    rfl
  have htable : table bare cfg = .ok cfg := if_pos (all_insert defaults_fit (by
    rw [tableAt_of_get get_defaultSlippage]
    rfl))
  have hfind : find "jupiter.slippage" = some ⟨"jupiter.slippage", "Slippage tolerance", .text⟩ := rfl
  have hsplit : splitKey "jupiter.slippage" = some ("jupiter", "slippage") := rfl
  have hparse : parse ⟨"jupiter.slippage", "Slippage tolerance", .text⟩ "20" = .ok (.string "20" : Leaf Empty) := rfl
  obtain ⟨w, hw, hwtable, hwvalues⟩ := applyOne_of (T := bare) (values bare cfg) (w := { table := cfg })
    (c := ("jupiter.slippage", "20")) hfind hparse hsplit hget
  have hread : (config slippageOnly).readTable w.table = some w.table := by
    rw [hwtable]
    refine Fields.readTable_insert (slippage_reads "10") ?_
    rw [config_section slippageOnly (by decide), tableAt_of_get hget]
    rfl
  have hall : [("jupiter.slippage", "20")].foldlM (applyOne bare (values bare cfg)) { table := cfg } = .ok w := by
    rw [List.foldlM_cons, hw]
    rfl
  exact ⟨_, bind_eq_ok.mpr ⟨cfg, htable, bind_eq_ok.mpr ⟨w, hall, bind_eq_ok.mpr
    ⟨w.table, orElse_eq_ok.mpr hread, rfl⟩⟩⟩, hwvalues⟩

theorem write_under : write bareEditor (userFile underVenue) [("jupiter.slippage", .string "20")] =
    .ok (underVenue.put "jupiter" "slippage" (.string "20")) := rfl

theorem write_top : write bareEditor (userFile atTop) [("jupiter.slippage", .string "20")] =
    .ok (atTop.put "jupiter" "slippage" (.string "20")) := rfl

/-- With `[venues.solana.jupiter]` the user's file is refused once the slippage has been changed. -/
theorem saved_change_refused : ∃ (repo user : File bare.Text) (l : Layered Empty) (changes : List (String × String))
    (change : Change Empty) (text : bare.Text), loadLayered bare slippageOnly repo user = .ok l ∧
      apply bare slippageOnly l.config changes = .ok change ∧ write bareEditor user change.values = .ok text ∧
        ¬ Survives bare slippageOnly repo user l.config change text := by
  obtain ⟨l, hl, hconfig⟩ := loads_slippage (t := underVenue) (by decide) rfl
  obtain ⟨change, ha, hvalues⟩ := changes_slippage
  rw [← hconfig] at ha
  have hw : write bareEditor (userFile underVenue) change.values =
      .ok (underVenue.put "jupiter" "slippage" (.string "20")) := by
    rw [hvalues]
    exact write_under
  refine ⟨noRepo, userFile underVenue, l, _, change, _, hl, ha, hw, fun hs => ?_⟩
  have hmem : "jupiter" ∈ (edits change.values).map fun e => e.1.1 := slippage_edits (by rw [hvalues]; simp)
  have hnone := apart_of_survives hl ha hw hs (t := underVenue) (readTable_eq_ok.mpr ⟨_, rfl, rfl⟩) hmem
  cases hnone

/-- At the top level it survives. -/
theorem saved_change_survives_top : ∃ (l : Layered Empty) (change : Change Empty) (text : bare.Text),
    loadLayered bare slippageOnly noRepo (userFile atTop) = .ok l ∧
      apply bare slippageOnly l.config [("jupiter.slippage", "20")] = .ok change ∧
        write bareEditor (userFile atTop) change.values = .ok text ∧
          Survives bare slippageOnly noRepo (userFile atTop) l.config change text := by
  obtain ⟨l, hl, hconfig⟩ := loads_slippage (t := atTop) (by decide) rfl
  obtain ⟨change, ha, hvalues⟩ := changes_slippage
  rw [← hconfig] at ha
  have hw : write bareEditor (userFile atTop) change.values = .ok (atTop.put "jupiter" "slippage" (.string "20")) := by
    rw [hvalues]
    exact write_top
  refine ⟨l, change, _, hl, ha, hw, (saved_change_survives bareEditor hl ha hw).mpr fun _ hunder => ?_⟩
  obtain ⟨t, ht, hne⟩ := hunder
  have hfile : readTable bare (userFile atTop) = .ok (some atTop) := rfl
  rw [hfile] at ht
  cases ht
  exact hne rfl

end Thresholds
end MobiusSearcher
