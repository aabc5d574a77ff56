/-
# Layered configuration

`crates/core/src/config.rs` over several files: the repository's file and the
user's are laid over the built-in defaults, each of them read on its own terms
over the defaults first, and what the user has changed is written as a file
that holds only what differs (`user_delta`).

A configuration is the table it is written as. Of its sections only the venues
are spelled out; the others are any that are read field by field with a
default for each. TOML itself, its parser and its printer, is `Toml`, and
`validate` is any check of the result.

For tables, laying the difference over the lower one gives the upper one. A
file that holds the difference does not always load: each file is read over
the defaults alone, where a venue of the repository's that the defaults do not
know lacks the fields that have not changed.

Key definitions: `liftSolana`, `loadLayered`, `userDelta`, `Reloads`.
Key theorem: `user_delta_reproduces`.
-/
import MobiusSearcher.Core.VenueConfig

namespace MobiusSearcher
namespace Config

open Nested

variable {ρ : Type}

/-! ### Lifting the Solana sections -/

/-- The Solana stack's sections. -/
def solanaSections : List String := ["rpc", "jupiter", "jito", "feeds", "wallet"]

/-- One entry of `[venues.solana]`, put at the top level. -/
def liftEntry (k : String) (n : Node ρ) (t : Table ρ) : Except String (Table ρ) :=
  if !solanaSections.contains k then
    .error ("[venues.solana] has no `" ++ k ++ "` (sections: " ++ ", ".intercalate solanaSections ++ ")")
  else if (t.get k).isSome then
    .error ("[" ++ k ++ "] is set both at the top level and as [venues.solana." ++ k ++ "]; keep one")
  else .ok (t.insert k n)

def liftEntries : Table ρ → Table ρ → Except String (Table ρ)
  | .nil, t => .ok t
  | .leaf k a rest, t => (liftEntry k (.leaf a) t).bind (liftEntries rest)
  | .sub k u rest, t => (liftEntry k (.table u) t).bind (liftEntries rest)

/-- The table without `[venues.solana]`, and what stood there. -/
def takeSolana (t : Table ρ) : Option (Node ρ) × Table ρ :=
  match t.get "venues" with
  | some (.table v) => (v.get "solana", t.insert "venues" (.table (v.remove "solana")))
  | _ => (none, t)

/-- The table without `[venues]`, where that is empty. -/
def dropVenues (t : Table ρ) : Table ρ :=
  match t.get "venues" with
  | some (.table v) => if v.isEmpty then t.remove "venues" else t
  | _ => t

/-- `as_str` of a value. -/
def asStr : Node ρ → Option String
  | .leaf (.string s) => some s
  | _ => none

/-- What stood under `[venues.solana]`, put at the top level of the rest; `display` writes an entry in a message. -/
def liftInto (display : Node ρ → String) (t : Table ρ) : Option (Node ρ) → Except String (Table ρ)
  | none => .ok t
  | some (.leaf _) => .error "[venues.solana] must be a table"
  | some (.table solana) =>
    match solana.get "kind" with
    | none => liftEntries solana t
    | some k =>
      if asStr k = some "solana" then liftEntries (solana.remove "kind") t
      else .error ("[venues.solana] kind must be \"solana\", got " ++ display k)

/-- Lift `[venues.solana.<section>]` to the internal top-level `<section>`.
Gives the table and whether it used the old top-level form. -/
def liftSolana (display : Node ρ → String) (t : Table ρ) : Except String (Table ρ × Bool) :=
  (liftInto display (dropVenues (takeSolana t).2) (takeSolana t).1).map fun lifted =>
    (lifted, solanaSections.any fun s => (t.get s).isSome)

/-! ### Files -/

inductive ConfigError
  | parse (message : String)
  | invalid (message : String)
deriving DecidableEq

/-- TOML: what is parsed and printed, and the messages of what fails. -/
structure Toml (ρ : Type) [BEq ρ] where
  Text : Type
  /-- `str::parse` of a table. -/
  parse : Text → Except String (Table ρ)
  /-- `toml::to_string_pretty`. -/
  print : Table ρ → Except String Text
  /-- Whether the integers in a value are `i64`s. -/
  fits : ρ → Bool
  display : Node ρ → String
  /-- The message of a table that is not a configuration. -/
  refused : Table ρ → String
  /-- The message of a configuration with an integer no table holds. -/
  overflows : Table ρ → String
  eq_of_beq : ∀ v w : ρ, (v == w) = true → v = w
  ordered : ∀ {text t}, parse text = .ok t → t.Ordered
  parse_print : ∀ {t : Table ρ}, t.Ordered → t.all (Leaf.fits fits) = true → ∃ text, print t = .ok text ∧ parse text = .ok t

/-- The sections of a configuration besides its venues, and the check of the whole. -/
structure Sections (ρ : Type) where
  fields : Fields String (Leaf ρ)
  /-- Each is read field by field. -/
  plain : ∀ k, Plain (fields.entry k)
  /-- Every field of every section has a default. -/
  defaults : (fields.readTable .nil).isSome
  validate : Table ρ → Except ConfigError Unit

/-- What is at a path when it is read. -/
inductive Content (Text : Type)
  | missing
  | unreadable (message : String)
  | text (text : Text)

structure File (Text : Type) where
  path : String
  content : Content Text

inductive Layer
  | default
  | repo
  | user
deriving DecidableEq, Repr

/-- The effective configuration and where each value came from. -/
structure Layered (ρ : Type) where
  config : Table ρ
  /-- Defaults and repository file: what the user file is a delta against. -/
  belowUser : Table ρ
  files : List (Layer × String)
  /-- Files that still put Solana sections at the top level. -/
  legacySolana : List String
  /-- Dotted keys and the layer that set each, the last one first. -/
  origins : List (String × Layer)

/-- The dotted key and the value of every leaf. -/
def leaves (pre : String) : Table ρ → List (String × Leaf ρ)
  | .nil => []
  | .leaf k a rest => ((if pre = "" then k else pre ++ "." ++ k), a) :: leaves pre rest
  | .sub k t rest => leaves (if pre = "" then k else pre ++ "." ++ k) t ++ leaves pre rest

section Load

variable [BEq ρ] (T : Toml ρ) (S : Sections ρ)

/-- The fields of `Config`. -/
def config : Fields String (Leaf ρ) where
  known := "venues" :: S.fields.known
  entry k := if k = "venues" then .table venues (venuesTable defaultVenues) else S.fields.entry k
  rest {k} h := by
    rw [List.mem_cons, not_or] at h
    rw [if_neg h.1]
    exact S.fields.rest h.2

/-- `Config::default()`, which is what the empty file is read as. -/
def defaults : Table ρ := ((config S).readTable .nil).getD .nil

def toConfig (t : Table ρ) : Except ConfigError (Table ρ) :=
  match (config S).readTable t with
  | some c => .ok c
  | none => .error (.parse (T.refused t))

/-- Errors name the file they come from. -/
def inFile (path : String) : ConfigError → ConfigError
  | .parse m => .parse (path ++ ": " ++ m)
  | .invalid m => .invalid m

def readTable (file : File T.Text) : Except ConfigError (Option (Table ρ)) :=
  match file.content with
  | .missing => .ok none
  | .unreadable e => .error (.parse (file.path ++ ": " ++ e))
  | .text s =>
    match T.parse s with
    | .ok t => .ok (some t)
    | .error e => .error (.parse (file.path ++ ": " ++ e))

/-- What the layers read so far come to. -/
structure Loading (ρ : Type) where
  merged : Table ρ
  files : List (Layer × String) := []
  legacySolana : List String := []
  origins : List (String × Layer) := []

/-- Lay one file over the layers below it. -/
def addLayer (layer : Layer) (file : File T.Text) (w : Loading ρ) : Except ConfigError (Loading ρ) := do
  let some t ← readTable T file | pure w
  let (t, legacy) ← (liftSolana T.display t).mapError fun e => .invalid (file.path ++ ": " ++ e)
  -- each file must be valid on its own terms, read over the defaults
  let _ ← (toConfig T S ((defaults S).merge t)).mapError (inFile file.path)
  pure
    { merged := w.merged.merge t
      files := w.files ++ [(layer, file.path)]
      legacySolana := if legacy then w.legacySolana ++ [file.path] else w.legacySolana
      origins := (leaves "" t).foldl (fun o e => (e.1, layer) :: o) w.origins }

/-- Load `repo` then `user` over the built-in defaults and validate the result. -/
def loadLayered (repo user : File T.Text) : Except ConfigError (Layered ρ) := do
  let w ← addLayer T S .repo repo { merged := defaults S }
  let below ← (toConfig T S w.merged).mapError (inFile repo.path)
  let w ← addLayer T S .user user w
  let c ← toConfig T S w.merged
  S.validate c
  pure ⟨c, below, w.files, w.legacySolana, w.origins⟩

/-- A configuration as a table. -/
def written (c : Table ρ) : Except ConfigError (Table ρ) :=
  if c.all (Leaf.fits T.fits) then .ok c else .error (.invalid (T.overflows c))

/-- TOML for a user file holding only what `c` changes relative to `below`. -/
def userDelta (below c : Table ρ) : Except ConfigError T.Text := do
  let b ← written T below
  let c ← written T c
  (T.print (b.diff c)).mapError .invalid

end Load

/-! ### What lifting leaves -/

/-- What stands under the name of a venue. -/
def venueOf (t : Table ρ) (name : String) : Option (Node ρ) := follow ["venues", name] (some (.table t))

theorem venueOf_eq {t v : Table ρ} (h : t.get "venues" = some (.table v)) (name : String) : venueOf t name = v.get name := by
  simp [venueOf, follow, h]

theorem venueOf_congr {t t' : Table ρ} (h : t'.get "venues" = t.get "venues") (name : String) :
    venueOf t' name = venueOf t name := by
  simp [venueOf, follow, h]

theorem liftEntry_spec {k : String} {n : Node ρ} {t t' : Table ρ} (h : liftEntry k n t = .ok t') (ht : t.Ordered)
    (hn : n.Ordered) : t'.Ordered ∧ t'.get "venues" = t.get "venues" := by
  rw [liftEntry] at h
  split at h
  · cases h
  · rename_i hk
    split at h
    · cases h
    · cases h
      refine ⟨ht.insert hn, ?_⟩
      have hne : k ≠ "venues" := by
        rintro rfl
        exact absurd hk (by decide)
      rw [get_insert, if_neg hne]

theorem liftEntries_spec {u t t' : Table ρ} (h : liftEntries u t = .ok t') (ht : t.Ordered) (hu : u.Ordered) :
    t'.Ordered ∧ t'.get "venues" = t.get "venues" := by
  induction u using consRec generalizing t with
  | nil =>
    cases h
    exact ⟨ht, rfl⟩
  | cons k n rest _ ih =>
    obtain ⟨hn, -, hrest⟩ := (ordered_cons k n rest).mp hu
    have h : (liftEntry k n t).bind (liftEntries rest) = .ok t' := by cases n <;> exact h
    cases hk : liftEntry k n t with
    | error e => simp [hk, Except.bind] at h
    | ok t₁ =>
      rw [hk] at h
      obtain ⟨hord, hv⟩ := liftEntry_spec hk ht hn
      obtain ⟨hord', hv'⟩ := ih h hord hrest
      exact ⟨hord', hv'.trans hv⟩

theorem takeSolana_spec {t : Table ρ} (ht : t.Ordered) :
    (takeSolana t).2.Ordered ∧ venueOf (takeSolana t).2 "solana" = none ∧ ∀ n ∈ (takeSolana t).1, n.Ordered := by
  rw [takeSolana]
  split
  · rename_i v hv
    have hord : v.Ordered := ht.get hv
    refine ⟨ht.insert (n := .table _) (hord.remove "solana"), ?_, fun n hn => hord.get hn⟩
    rw [venueOf_eq (v := v.remove "solana") (by rw [get_insert, if_pos rfl]), get_remove hord, if_pos rfl]
  · rename_i hv
    refine ⟨ht, ?_, fun n hn => absurd hn (by simp)⟩
    rw [venueOf, follow]
    rcases h : t.get "venues" with _ | n
    · rfl
    · cases n with
      | leaf a => rfl
      | table v => exact absurd h (hv v)

theorem dropVenues_spec {t : Table ρ} (ht : t.Ordered) {name : String} (h : venueOf t name = none) :
    (dropVenues t).Ordered ∧ venueOf (dropVenues t) name = none := by
  rw [dropVenues]
  split
  · split
    · refine ⟨ht.remove "venues", ?_⟩
      rw [venueOf, follow, get_remove ht, if_pos rfl]
      rfl
    · exact ⟨ht, h⟩
  · exact ⟨ht, h⟩

theorem liftInto_spec {display : Node ρ → String} {t t' : Table ρ} {x : Option (Node ρ)}
    (h : liftInto display t x = .ok t') (ht : t.Ordered) (hx : ∀ n ∈ x, n.Ordered) :
    t'.Ordered ∧ t'.get "venues" = t.get "venues" := by
  rcases x with _ | n
  · cases h
    exact ⟨ht, rfl⟩
  · cases n with
    | leaf a => cases h
    | table u =>
      have hu : u.Ordered := hx _ rfl
      rw [liftInto] at h
      split at h
      · exact liftEntries_spec h ht hu
      · split at h
        · exact liftEntries_spec h ht (hu.remove "kind")
        · cases h

/-- After lifting there is no venue called `solana`. -/
theorem liftSolana_spec {display : Node ρ → String} {t t' : Table ρ} {legacy : Bool}
    (h : liftSolana display t = .ok (t', legacy)) (ht : t.Ordered) : t'.Ordered ∧ venueOf t' "solana" = none := by
  obtain ⟨hord, hnone, hsolana⟩ := takeSolana_spec ht
  obtain ⟨hord', hnone'⟩ := dropVenues_spec hord hnone
  rw [liftSolana] at h
  cases hl : liftInto display (dropVenues (takeSolana t).2) (takeSolana t).1 with
  | error e => simp [hl, Except.map] at h
  | ok u =>
    simp only [hl, Except.map, Except.ok.injEq, Prod.mk.injEq] at h
    obtain ⟨hu, hv⟩ := liftInto_spec hl hord' hsolana
    exact h.1 ▸ ⟨hu, (venueOf_congr hv "solana").trans hnone'⟩

/-- A table without such a venue is lifted as it is. -/
theorem liftSolana_plain (display : Node ρ → String) {t : Table ρ} (ht : t.Ordered)
    (h : ∀ v, t.get "venues" = some (.table v) → v.get "solana" = none ∧ v ≠ .nil) :
    ∃ legacy, liftSolana display t = .ok (t, legacy) := by
  have htake : takeSolana t = (none, t) := by
    rw [takeSolana]
    split
    · rename_i v hv
      rw [(h v hv).1, remove_of_get (h v hv).1, insert_get ht hv]
    · rfl
  have hdrop : dropVenues t = t := by
    rw [dropVenues]
    split
    · rename_i v hv
      rw [if_neg fun he => (h v hv).2 (Nested.isEmpty_iff.mp he)]
    · rfl
  exact ⟨_, by rw [liftSolana, htake, hdrop]; rfl⟩

/-- A venue of the name `solana` that is of another kind is refused. -/
theorem liftSolana_refuses (display : Node ρ → String) {t v u : Table ρ} {k : Node ρ}
    (hv : t.get "venues" = some (.table v)) (hu : v.get "solana" = some (.table u)) (hk : u.get "kind" = some k)
    (hne : asStr k ≠ some "solana") : ∃ e, liftSolana display t = .error e := by
  have htake : (takeSolana t).1 = some (.table u) := by simp only [takeSolana, hv, hu]
  have hinto : ∃ e, liftInto display (dropVenues (takeSolana t).2) (some (.table u)) = .error e := by
    simp only [liftInto, hk, if_neg hne]
    exact ⟨_, rfl⟩
  obtain ⟨e, he⟩ := hinto
  exact ⟨e, by rw [liftSolana, htake, he]; rfl⟩

/-! ### Venues, laid over and read -/

theorem venueOf_merge {s t : Table ρ} (hs : s.Ordered) {name : String} (ht : venueOf t name = none)
    (hn : venueOf s name = none) : venueOf (t.merge s) name = none := by
  rw [venueOf, follow] at ht hn ⊢
  rw [get_merge hs]
  rcases hy : s.get "venues" with _ | y
  · rwa [laid_none]
  · rcases hx : t.get "venues" with _ | x
    · rwa [none_laid, ← hy]
    · rw [hx] at ht
      rw [hy] at hn
      cases y with
      | leaf a => rw [laid_leaf, follow]
      | table v =>
        cases x with
        | leaf a => rwa [leaf_laid]
        | table u =>
          have hv : v.Ordered := hs.get hy
          simp only [follow] at ht hn
          simp only [table_laid, follow, get_merge hv, ht, hn, laid_none]

section Reading

variable (S : Sections ρ)

theorem config_venues : (config S).entry "venues" = .table venues (venuesTable defaultVenues) := by
  simp [config]

theorem config_section {k : String} (h : k ≠ "venues") : (config S).entry k = S.fields.entry k := by
  simp [config, h]

theorem get_defaultVenues {name : String} (h : name ∉ defaultVenues.map Prod.fst) :
    (venuesTable defaultVenues : Table ρ).get name = none := (get_venuesTable defaultVenues_nodup).2 name h

theorem get_defaultVenues_of_mem {name : String} (h : name ∈ defaultVenues.map Prod.fst) :
    (venuesTable defaultVenues : Table ρ).get name ≠ none := by
  obtain ⟨e, he, rfl⟩ := List.mem_map.mp h
  rw [(get_venuesTable defaultVenues_nodup).1 e he]
  simp

/-- The built-in defaults are what the empty file is read as. -/
theorem readTable_defaults : (config S).readTable .nil = some (defaults S) := by
  have hsome : ((config S).readTable .nil).isSome := by
    refine Fields.readTable_isSome.mpr fun k => ?_
    by_cases hk : k = "venues"
    · rw [hk, config_venues, get_nil, Reader.table_none, defaultVenues_read]
      rfl
    · rw [config_section S hk]
      exact Fields.readTable_isSome.mp S.defaults k
  obtain ⟨t, ht⟩ := Option.isSome_iff_exists.mp hsome
  rw [defaults, ht]
  rfl

/-- The venues of a configuration that reads are a table of venues. -/
theorem venues_of_read {t c : Table ρ} (h : (config S).readTable t = some c) :
    ∃ v, c.get "venues" = some (.table v) ∧ venues.readTable v = some v := by
  have hread := (Fields.readTable_eq_some.mp h).2 "venues"
  rw [config_venues] at hread
  exact Reader.eq_table hread

theorem get_defaults : (defaults S).get "venues" = some (.table (venuesTable defaultVenues)) := by
  have hread := (Fields.readTable_eq_some.mp (readTable_defaults S)).2 "venues"
  rw [config_venues, get_nil, Reader.table_none, defaultVenues_read] at hread
  exact (Option.some.inj hread).symm

/-- A venue that neither the tables read nor the defaults have is none of the configuration's. -/
theorem venueOf_read {t c : Table ρ} (h : (config S).readTable t = some c) {name : String}
    (hname : name ∉ defaultVenues.map Prod.fst) (hnone : venueOf t name = none) : venueOf c name = none := by
  have hread := (Fields.readTable_eq_some.mp h).2 "venues"
  rw [config_venues] at hread
  obtain ⟨v, hv, -⟩ := venues_of_read S h
  rw [venueOf_eq hv]
  rw [hv] at hread
  rcases ht : t.get "venues" with _ | x
  · rw [ht, Reader.table_none, defaultVenues_read] at hread
    cases hread
    exact get_defaultVenues hname
  · rw [ht] at hread
    cases x with
    | leaf a => cases hread
    | table u =>
      obtain ⟨w, hw, he⟩ := Option.map_eq_some_iff.mp hread
      cases he
      have hentry := (Fields.readTable_eq_some.mp hw).2 name
      rw [venueOf_eq ht] at hnone
      rw [hnone] at hentry
      exact (Option.some.inj hentry).symm

end Reading

/-! ### Loading -/

section Loads

variable [BEq ρ] {T : Toml ρ} {S : Sections ρ}

theorem toConfig_eq_ok {t c : Table ρ} : toConfig T S t = .ok c ↔ (config S).readTable t = some c := by
  rw [toConfig]
  cases (config S).readTable t with
  | none => simp
  | some c' => simp

theorem bind_eq_ok {α β : Type} {x : Except ConfigError α} {f : α → Except ConfigError β} {b : β} :
    (x >>= f) = .ok b ↔ ∃ a, x = .ok a ∧ f a = .ok b := by
  cases x with
  | error e => simp [bind, Except.bind]
  | ok a => simp [bind, Except.bind]

theorem mapError_eq_ok {α ε : Type} {x : Except ε α} {f : ε → ConfigError} {a : α} :
    x.mapError f = .ok a ↔ x = .ok a := by
  cases x with
  | error e => simp [Except.mapError]
  | ok b => simp [Except.mapError]

theorem readTable_eq_ok {file : File T.Text} {t : Table ρ} :
    readTable T file = .ok (some t) ↔ ∃ text, file.content = .text text ∧ T.parse text = .ok t := by
  rcases hc : file.content with _ | e | text
  · simp [readTable, hc]
  · simp [readTable, hc]
  · cases hp : T.parse text with
    | error e => simp [readTable, hc, hp]
    | ok t' => simp [readTable, hc, hp]

/-- A layer that is added has been lifted, and reads over the defaults alone. -/
theorem addLayer_eq_ok {layer : Layer} {file : File T.Text} {w w' : Loading ρ}
    (h : addLayer T S layer file w = .ok w') :
    readTable T file = .ok none ∧ w' = w ∨ ∃ t t' legacy, readTable T file = .ok (some t) ∧ liftSolana T.display t = .ok (t', legacy) ∧
      ((config S).readTable ((defaults S).merge t')).isSome ∧ w'.merged = w.merged.merge t' := by
  obtain ⟨x, hx, h⟩ := bind_eq_ok.mp h
  cases x with
  | none =>
    cases h
    exact .inl ⟨hx, rfl⟩
  | some t =>
    obtain ⟨⟨t', legacy⟩, hl, h⟩ := bind_eq_ok.mp h
    obtain ⟨c, hc, h⟩ := bind_eq_ok.mp h
    cases h
    refine .inr ⟨t, t', legacy, hx, mapError_eq_ok.mp hl, ?_, rfl⟩
    rw [toConfig_eq_ok.mp (mapError_eq_ok.mp hc)]
    rfl

theorem addLayer_of (layer : Layer) {file : File T.Text} {t t' : Table ρ} {legacy : Bool}
    (hp : readTable T file = .ok (some t)) (hl : liftSolana T.display t = .ok (t', legacy))
    (ha : ((config S).readTable ((defaults S).merge t')).isSome) (w : Loading ρ) :
    ∃ w', addLayer T S layer file w = .ok w' ∧ w'.merged = w.merged.merge t' := by
  obtain ⟨c, hc⟩ := Option.isSome_iff_exists.mp ha
  have hl' := (mapError_eq_ok (f := fun e => .invalid (file.path ++ ": " ++ e))).mpr hl
  have hc' := (mapError_eq_ok (f := inFile file.path)).mpr (toConfig_eq_ok (T := T).mpr hc)
  exact ⟨_, bind_eq_ok.mpr ⟨_, hp, bind_eq_ok.mpr ⟨_, hl', bind_eq_ok.mpr ⟨c, hc', rfl⟩⟩⟩, rfl⟩

/-- What a load that succeeds went through. -/
theorem loadLayered_eq_ok {repo user : File T.Text} {l : Layered ρ} (h : loadLayered T S repo user = .ok l) :
    ∃ w w', addLayer T S .repo repo { merged := defaults S } = .ok w ∧ (config S).readTable w.merged = some l.belowUser ∧
      addLayer T S .user user w = .ok w' ∧ (config S).readTable w'.merged = some l.config := by
  obtain ⟨w, hw, h⟩ := bind_eq_ok.mp h
  obtain ⟨b, hb, h⟩ := bind_eq_ok.mp h
  obtain ⟨w', hw', h⟩ := bind_eq_ok.mp h
  obtain ⟨c, hc, h⟩ := bind_eq_ok.mp h
  obtain ⟨-, -, h⟩ := bind_eq_ok.mp h
  cases h
  exact ⟨w, w', hw, toConfig_eq_ok.mp (mapError_eq_ok.mp hb), hw', toConfig_eq_ok.mp hc⟩

theorem loadLayered_of {repo user : File T.Text} {w w' : Loading ρ} {b c : Table ρ}
    (hw : addLayer T S .repo repo { merged := defaults S } = .ok w) (hb : (config S).readTable w.merged = some b)
    (hw' : addLayer T S .user user w = .ok w') (hc : (config S).readTable w'.merged = some c)
    (hv : S.validate c = .ok ()) : ∃ l, loadLayered T S repo user = .ok l ∧ l.config = c := by
  have hb' := (mapError_eq_ok (f := inFile repo.path)).mpr (toConfig_eq_ok (T := T).mpr hb)
  exact ⟨_, bind_eq_ok.mpr ⟨w, hw, bind_eq_ok.mpr ⟨b, hb', bind_eq_ok.mpr ⟨w', hw',
    bind_eq_ok.mpr ⟨c, toConfig_eq_ok.mpr hc, bind_eq_ok.mpr ⟨(), hv, rfl⟩⟩⟩⟩⟩, rfl⟩

/-- What lies below the user's file: tables in order, with their venues and none called `solana`. -/
theorem repo_layer {repo : File T.Text} {w : Loading ρ}
    (h : addLayer T S .repo repo { merged := defaults S } = .ok w) :
    w.merged.Ordered ∧ w.merged.get "venues" ≠ none ∧ venueOf w.merged "solana" = none := by
  obtain ⟨hord, -⟩ := Fields.readTable_eq_some.mp (readTable_defaults S)
  have hnone : venueOf (defaults S) "solana" = none := by
    rw [venueOf_eq (get_defaults S)]
    exact get_defaultVenues (by decide)
  rcases addLayer_eq_ok h with ⟨-, rfl⟩ | ⟨t, t', legacy, hp, hl, -, hm⟩
  · dsimp only
    rw [get_defaults]
    exact ⟨hord, by simp, hnone⟩
  · obtain ⟨text, -, hp⟩ := readTable_eq_ok.mp hp
    obtain ⟨hord', hnone'⟩ := liftSolana_spec hl (T.ordered hp)
    dsimp only at hm
    rw [hm]
    refine ⟨hord.merge hord', ?_, venueOf_merge hord' hnone hnone'⟩
    rw [get_merge hord', get_defaults]
    obtain ⟨n, hn⟩ := laid_some (.table (venuesTable defaultVenues)) (t'.get "venues")
    simp [hn]

end Loads

/-! ### Reading a difference -/

section Difference

variable [BEq ρ] (heq : ∀ v w : ρ, (v == w) = true → v = w) {S : Sections ρ} {b c : Table ρ}

include heq in
/-- Over the layers below it, the difference gives the configuration. -/
theorem merged_reads {m : Table ρ} (hm : m.Ordered) (hvenues : m.get "venues" ≠ none)
    (hb : (config S).readTable m = some b) (hc : (config S).readTable c = some c)
    (hkept : Kept (some (.table b)) (some (.table c))) : (config S).readTable (m.merge (b.diff c)) = some c := by
  obtain ⟨hord, hread⟩ := Fields.readTable_eq_some.mp hc
  have hbread := (Fields.readTable_eq_some.mp hb).2
  refine Fields.readTable_eq_some.mpr ⟨hord, fun k => ?_⟩
  rw [get_merge (hord.diff b), get_diff hord]
  have hsteady : ((config S).entry k).SteadyAt (m.get k) := by
    by_cases hk : k = "venues"
    · subst hk
      have hentry := hbread "venues"
      rw [config_venues] at hentry ⊢
      rcases ht : m.get "venues" with _ | x
      · exact absurd ht hvenues
      · rw [ht] at hentry
        cases x with
        | leaf a => cases hentry
        | table v =>
          refine Reader.steadyAt_table (Leaf.eq_of_beq heq) fun name => Reader.steadyAt_present ?_
          exact (Plain.table venue (Plain.ofTyped venueFields)).steady (Leaf.eq_of_beq heq) _
    · rw [config_section S hk]
      exact (S.plain k).steady (Leaf.eq_of_beq heq) _
  exact hsteady (b.get k) (c.get k) (fun n hn => hm.get hn) (hbread k) (hread k) (hkept.get k)

include heq in
/-- Over the defaults alone it reads, unless a venue the defaults do not have lacks what it needs. -/
theorem alone_reads_iff (hb : (config S).readTable b = some b) (hc : (config S).readTable c = some c)
    (hkept : Kept (some (.table b)) (some (.table c))) :
    ((config S).readTable ((defaults S).merge (b.diff c))).isSome ↔
      ∀ name v w, name ∉ defaultVenues.map Prod.fst → venueOf b name = some (.table v) →
        venueOf c name = some (.table w) → v ≠ w →
          v.get "kind" ≠ w.get "kind" ∧ v.get "rest_url" ≠ w.get "rest_url" := by
  obtain ⟨hord, hread⟩ := Fields.readTable_eq_some.mp hc
  obtain ⟨hdord, hdread⟩ := Fields.readTable_eq_some.mp (Fields.readTable_again (readTable_defaults S))
  obtain ⟨vb, hvb, hvbread⟩ := venues_of_read S hb
  obtain ⟨vc, hvc, hvcread⟩ := venues_of_read S hc
  obtain ⟨hvcord, hvcentry⟩ := Fields.readTable_eq_some.mp hvcread
  have hvbentry := (Fields.readTable_eq_some.mp hvbread).2
  have hvkept : Kept (some (.table vb)) (some (.table vc)) := hvb ▸ hvc ▸ hkept.get "venues"
  -- every section reads over its defaults, so it comes down to the venues, and to each of them
  have hsections : ((config S).readTable ((defaults S).merge (b.diff c))).isSome ↔
      (venues.readTable ((venuesTable defaultVenues).merge (vb.diff vc))).isSome := by
    have hentry : ∀ k, ((defaults S).merge (b.diff c)).get k =
        laid ((defaults S).get k) (changed (b.get k) (c.get k)) := fun k => by
      rw [get_merge (hord.diff b), get_diff hord]
    have hkey : ((config S).entry "venues").read (((defaults S).merge (b.diff c)).get "venues") =
        (venues.readTable ((venuesTable defaultVenues).merge (vb.diff vc))).map fun t => some (.table t) := by
      rw [hentry, get_defaults, hvb, hvc, laid_changed_table, config_venues, Reader.table_table]
    rw [Fields.readTable_isSome]
    constructor
    · intro h
      have := h "venues"
      rwa [hkey, Option.isSome_map] at this
    · intro h k
      by_cases hk : k = "venues"
      · rwa [hk, hkey, Option.isSome_map]
      · rw [hentry]
        have hd := hdread k
        have hcread := hread k
        rw [config_section S hk] at hd hcread ⊢
        exact (S.plain k).lenient _ (b.get k) (c.get k) (fun n hn => hdord.get hn) (by rw [hd]; rfl) hcread
  have hvenues : (venues.readTable ((venuesTable defaultVenues).merge (vb.diff vc))).isSome ↔
      ∀ name, name ∉ defaultVenues.map Prod.fst →
        ((Reader.table venue .nil).present.read (changed (vb.get name) (vc.get name))).isSome := by
    have hdefault := Fields.readTable_eq_some.mp (defaultVenues_read (ρ := ρ))
    rw [Fields.readTable_isSome]
    simp only [get_merge (hvcord.diff vb), get_diff hvcord]
    constructor
    · intro h name hname
      have := h name
      rwa [get_defaultVenues hname, none_laid] at this
    · intro h name
      rcases hv : (venuesTable defaultVenues : Table ρ).get name with _ | n
      · rw [none_laid]
        exact h name fun hmem => absurd hv (get_defaultVenues_of_mem hmem)
      · have hentry := hdefault.2 name
        rw [hv] at hentry
        have hread : ((Reader.table venue .nil).present.read (some n)).isSome := Option.isSome_iff_exists.mpr ⟨_, hentry⟩
        refine Reader.lenientAt_present ?_ (vb.get name) (vc.get name) (fun m hm => ?_) hread (hvcentry name)
        · exact (Plain.table venue (Plain.ofTyped venueFields)).lenient _
        · cases hm
          exact hdefault.1.get hv
  rw [hsections, hvenues]
  constructor
  · intro h name v w hname hv hw hne
    rw [venueOf_eq hvb] at hv
    rw [venueOf_eq hvc] at hw
    exact (changed_reads_iff heq (hvbentry name) (hvcentry name) (hvkept.get name)).mp (h name hname) v w hv hw hne
  · intro h name hname
    refine (changed_reads_iff heq (hvbentry name) (hvcentry name) (hvkept.get name)).mpr fun v w hv hw hne => ?_
    exact h name v w hname ((venueOf_eq hvb name).trans hv) ((venueOf_eq hvc name).trans hw) hne

end Difference

/-! ### The user's file -/

section UserFile

variable [BEq ρ] (T : Toml ρ) (S : Sections ρ)

/-- What the delta is written as loads, over the same repository file, as the configuration. -/
def Reproduces (repo : File T.Text) (path : String) (below c : Table ρ) : Prop :=
  ∃ text l, userDelta T below c = .ok text ∧ loadLayered T S repo ⟨path, .text text⟩ = .ok l ∧ l.config = c

/-- When it does: the values can be written, and are read as what they are; no venue is called `solana`; and a venue
that is not built in, and has changed, has changed in both fields it cannot go without. -/
structure Reloads (below c : Table ρ) : Prop where
  below_fits : below.all (Leaf.fits T.fits) = true
  fits : c.all (Leaf.fits T.fits) = true
  settled : (config S).readTable c = some c
  no_solana : venueOf c "solana" = none
  renewed : ∀ name v w, name ∉ defaultVenues.map Prod.fst → venueOf below name = some (.table v) →
    venueOf c name = some (.table w) → v ≠ w → v.get "kind" ≠ w.get "kind" ∧ v.get "rest_url" ≠ w.get "rest_url"

variable {T S}

theorem written_eq_ok {c t : Table ρ} : written T c = .ok t ↔ t = c ∧ c.all (Leaf.fits T.fits) = true := by
  rw [written]
  split
  · rename_i h
    simp [h, eq_comm]
  · rename_i h
    simp [h]

theorem userDelta_eq_ok {b c : Table ρ} {text : T.Text} : userDelta T b c = .ok text ↔
    b.all (Leaf.fits T.fits) = true ∧ c.all (Leaf.fits T.fits) = true ∧ T.print (b.diff c) = .ok text := by
  constructor
  · intro h
    obtain ⟨b', hb, hrest⟩ := bind_eq_ok.mp h
    obtain ⟨c', hc, hprint⟩ := bind_eq_ok.mp hrest
    obtain ⟨rfl, hbfits⟩ := written_eq_ok.mp hb
    obtain ⟨rfl, hcfits⟩ := written_eq_ok.mp hc
    exact ⟨hbfits, hcfits, mapError_eq_ok.mp hprint⟩
  · rintro ⟨hb, hc, hp⟩
    exact bind_eq_ok.mpr ⟨b, written_eq_ok.mpr ⟨rfl, hb⟩, bind_eq_ok.mpr ⟨c, written_eq_ok.mpr ⟨rfl, hc⟩,
      mapError_eq_ok.mpr hp⟩⟩

/-- The venues of a difference. -/
theorem diff_venues {b c vb vc : Table ρ} (hc : c.Ordered) (hvb : b.get "venues" = some (.table vb))
    (hvc : c.get "venues" = some (.table vc)) {v : Table ρ} :
    (b.diff c).get "venues" = some (.table v) ↔ v = vb.diff vc ∧ v ≠ .nil := by
  rw [get_diff hc, hvb, hvc, changed]
  by_cases h : (vb.diff vc).isEmpty = true
  · rw [if_pos h]
    have := Nested.isEmpty_iff.mp h
    simp [this]
  · rw [if_neg h]
    have := mt Nested.isEmpty_iff.mpr h
    constructor
    · intro he
      cases he
      exact ⟨rfl, this⟩
    · rintro ⟨rfl, -⟩
      rfl

/-- A difference with a venue called `solana` is refused. -/
theorem no_solana_of_lift {b c : Table ρ} (hb : (config S).readTable b = some b) (hc : (config S).readTable c = some c)
    (hnone : venueOf b "solana" = none) {r : Table ρ × Bool} :
    liftSolana T.display (b.diff c) = .ok r → venueOf c "solana" = none := by
  obtain ⟨vb, hvb, -⟩ := venues_of_read S hb
  obtain ⟨vc, hvc, hvcread⟩ := venues_of_read S hc
  obtain ⟨hvcord, hvcentry⟩ := Fields.readTable_eq_some.mp hvcread
  intro h
  rw [venueOf_eq hvb] at hnone
  rw [venueOf_eq hvc]
  by_contra hne
  obtain ⟨n, hn⟩ := Option.ne_none_iff_exists'.mp hne
  have hentry := hvcentry "solana"
  rw [hn] at hentry
  obtain ⟨u, hu, hread⟩ := Reader.eq_table (F := venue) hentry
  cases hu
  -- the venue is new, so it stands in the difference as it is
  have hsolana : (vb.diff vc).get "solana" = some (.table u) := by rw [get_diff hvcord, hnone, none_changed, hn]
  have hne' : vb.diff vc ≠ .nil := fun he => by rw [he] at hsolana; cases hsolana
  obtain ⟨s, hs⟩ := kind_string hread
  have hkind : asStr (.leaf (.string s) : Node ρ) ≠ some "solana" := fun he => by
    have he : s = "solana" := Option.some.inj he
    exact kind_not_solana hread (he ▸ hs)
  obtain ⟨e, he⟩ := liftSolana_refuses T.display
    ((diff_venues (Fields.readTable_eq_some.mp hc).1 hvb hvc).mpr ⟨rfl, hne'⟩) hsolana hs hkind
  rw [he] at h
  cases h

/-- Any other is lifted as it is. -/
theorem lift_diff {b c : Table ρ} (hb : (config S).readTable b = some b) (hc : (config S).readTable c = some c)
    (hnone : venueOf c "solana" = none) : ∃ legacy, liftSolana T.display (b.diff c) = .ok (b.diff c, legacy) := by
  obtain ⟨vb, hvb, -⟩ := venues_of_read S hb
  obtain ⟨vc, hvc, hvcread⟩ := venues_of_read S hc
  have hord := (Fields.readTable_eq_some.mp hc).1
  refine liftSolana_plain T.display (hord.diff b) fun v hv => ?_
  obtain ⟨rfl, hne⟩ := (diff_venues hord hvb hvc).mp hv
  rw [venueOf_eq hvc] at hnone
  rw [get_diff (Fields.readTable_eq_some.mp hvcread).1, hnone, changed_none]
  exact ⟨rfl, hne⟩

/-- The delta of a configuration that loads reproduces it under just these conditions. -/
theorem reproduces_iff {repo user : File T.Text} {l : Layered ρ} {c : Table ρ} (path : String)
    (hl : loadLayered T S repo user = .ok l) (hc : c.Ordered) (hv : S.validate c = .ok ())
    (hkept : Kept (some (.table l.belowUser)) (some (.table c))) :
    Reproduces T S repo path l.belowUser c ↔ Reloads T S l.belowUser c := by
  obtain ⟨w, -, hw, hb, -, -⟩ := loadLayered_eq_ok hl
  obtain ⟨hord, hvenues, hsolana⟩ := repo_layer hw
  have hb' := Fields.readTable_again hb
  have hbsolana := venueOf_read S hb (by decide) hsolana
  constructor
  · rintro ⟨text, l', hdelta, hload, hcfg⟩
    obtain ⟨hbfits, hcfits, hprint⟩ := userDelta_eq_ok.mp hdelta
    obtain ⟨text', hprint', hparse⟩ := T.parse_print (hc.diff l.belowUser) (all_diff hcfits l.belowUser)
    rw [hprint'] at hprint
    cases hprint
    obtain ⟨w₁, w', hw₁, -, hw', hc'⟩ := loadLayered_eq_ok hload
    rw [hw] at hw₁
    cases hw₁
    rw [hcfg] at hc'
    have hsettled := Fields.readTable_again hc'
    have hfile : readTable T ⟨path, .text text⟩ = .ok (some (l.belowUser.diff c)) := readTable_eq_ok.mpr ⟨text, rfl, hparse⟩
    rcases addLayer_eq_ok hw' with ⟨hnone, -⟩ | ⟨t, t', legacy, ht, hlift, halone, -⟩
    · rw [hfile] at hnone
      cases hnone
    · rw [hfile] at ht
      cases ht
      have hnosolana := no_solana_of_lift hb' hsettled hbsolana hlift
      obtain ⟨legacy', hlift'⟩ := lift_diff (T := T) hb' hsettled hnosolana
      rw [hlift'] at hlift
      cases hlift
      exact ⟨hbfits, hcfits, hsettled, hnosolana, (alone_reads_iff T.eq_of_beq hb' hsettled hkept).mp halone⟩
  · rintro ⟨hbfits, hcfits, hsettled, hnosolana, hrenewed⟩
    obtain ⟨text, hprint, hparse⟩ := T.parse_print (hc.diff l.belowUser) (all_diff hcfits l.belowUser)
    have hfile : readTable T ⟨path, .text text⟩ = .ok (some (l.belowUser.diff c)) := readTable_eq_ok.mpr ⟨text, rfl, hparse⟩
    obtain ⟨legacy, hlift⟩ := lift_diff (T := T) hb' hsettled hnosolana
    have halone := (alone_reads_iff T.eq_of_beq hb' hsettled hkept).mpr hrenewed
    obtain ⟨w', hw', hm⟩ := addLayer_of .user hfile hlift halone w
    have hread : (config S).readTable w'.merged = some c := by
      rw [hm]
      exact merged_reads T.eq_of_beq hord hvenues hb hsettled hkept
    obtain ⟨l', hl', hcfg⟩ := loadLayered_of hw hb hw' hread hv
    exact ⟨text, l', userDelta_eq_ok.mpr ⟨hbfits, hcfits, hprint⟩, hl', hcfg⟩

end UserFile

/-- **A user delta reproduces the configuration**, as a table always, and as a file where it reloads. The difference
between two tables, with nothing taken away, gives the second over the first and holds no value that is equal in both.
Over the layers it was made for it loads as the configuration, for one that is valid and unsets nothing, exactly when
the values can be written and read, no venue is called `solana`, and every venue of the files alone that has changed
has a new `kind` and a new `rest_url`. -/
theorem user_delta_reproduces [BEq ρ] (T : Toml ρ) (S : Sections ρ) :
    (∀ below cur : Table ρ, below.Ordered → cur.Ordered → Kept (some (.table below)) (some (.table cur)) →
      below.merge (below.diff cur) = cur ∧
        ∀ p a, follow p (some (.table (below.diff cur))) = some (.leaf a) →
          follow p (some (.table cur)) = some (.leaf a) ∧
            ∀ b, follow p (some (.table below)) = some (.leaf b) → (b == a) = false) ∧
      ∀ (repo user : File T.Text) (path : String) (l : Layered ρ) (c : Table ρ), loadLayered T S repo user = .ok l →
        c.Ordered → S.validate c = .ok () → Kept (some (.table l.belowUser)) (some (.table c)) →
          (Reproduces T S repo path l.belowUser c ↔ Reloads T S l.belowUser c) := by
  refine ⟨fun below cur hb hc hkept => ?_, fun repo user path l c hl hc hv hkept => reproduces_iff path hl hc hv hkept⟩
  refine ⟨merge_diff (Leaf.eq_of_beq T.eq_of_beq) cur below hb hc hkept, fun p a h => ?_⟩
  cases p with
  | nil => cases h
  | cons k p =>
    rw [follow, get_diff hc] at h
    exact follow_changed (x := below.get k) (y := cur.get k) (fun n hn => hc.get hn) h

/-! ### A venue of the repository's -/

/-- Files that are the tables they hold, in a TOML with texts, integers and truth values only. -/
def bare : Toml Empty where
  Text := Table Empty
  parse t := if t.Ordered then .ok t else .error "duplicate key"
  print t := .ok t
  fits _ := true
  display _ := ""
  refused _ := "not a configuration"
  overflows _ := "out of range"
  eq_of_beq v := v.elim
  ordered {text t} h := by
    split at h
    · rename_i hord
      cases h
      exact hord
    · cases h
  parse_print {t} hord _ := ⟨t, rfl, if_pos hord⟩

/-- No sections but the venues. -/
def venuesOnly : Sections Empty where
  fields := ⟨[], fun _ => .unknown, fun _ => rfl⟩
  plain _ := .unknown
  defaults := rfl
  validate _ := .ok ()

/-- A second venue of OKX's, as the repository's file names it and as it is read. -/
def euRepo : Table Empty :=
  .sub "venues" (.sub "okx_eu" (.leaf "kind" (.string "okx") (.leaf "markets" (.strings ["ETH-EUR"])
    (.leaf "rest_url" (.string "https://my.okx.com") .nil))) .nil) .nil

def euVenue : VenueConfig :=
  { VenueConfig.okx with
    restUrl := "https://my.okx.com"
    markets := ["ETH-EUR"]
    watchlist := []
    apiKeyEnv := ""
    secretEnv := ""
    passphraseEnv := "" }

def euFile : File bare.Text := ⟨"config/mobius.toml", .text euRepo⟩

def noFile : File bare.Text := ⟨"config.toml", .missing⟩

/-- A configuration of some venues. -/
def ofVenues (vs : List (String × VenueConfig)) : Table Empty := .sub "venues" (venuesTable vs) .nil

def euVenues : List (String × VenueConfig) := ("okx_eu", euVenue) :: defaultVenues

theorem loads_eu : ∃ l, loadLayered bare venuesOnly euFile noFile = .ok l ∧ l.belowUser = ofVenues euVenues := by
  have h : (loadLayered bare venuesOnly euFile noFile).toOption.map Layered.belowUser = some (ofVenues euVenues) := by
    decide +kernel
  obtain ⟨l, hl, hbelow⟩ := Option.map_eq_some_iff.mp h
  cases hload : loadLayered bare venuesOnly euFile noFile with
  | error e =>
    rw [hload] at hl
    cases hl
  | ok l' =>
    rw [hload] at hl
    exact ⟨l', rfl, Option.some.inj hl ▸ hbelow⟩

/-- The venues with other markets for one of them. -/
def withMarkets (name : String) (v : VenueConfig) (markets : List String) : Table Empty :=
  (ofVenues euVenues).insert "venues" (.table ((venuesTable euVenues).insert name
    (.table (v.table.insert "markets" (.leaf (.strings markets))))))

theorem euVenues_nodup : (euVenues.map Prod.fst).Nodup := by decide

/-- Another value for a field of a venue unsets nothing. -/
theorem replace_spec {t v u : Table ρ} {name k : String} {a : Leaf ρ} (ht : t.Ordered)
    (hv : t.get "venues" = some (.table v)) (hu : v.get name = some (.table u)) (ha : u.get k = some (.leaf a))
    (a' : Leaf ρ) :
    (t.insert "venues" (.table (v.insert name (.table (u.insert k (.leaf a')))))).Ordered ∧
      Kept (some (.table t)) (some (.table (t.insert "venues" (.table (v.insert name (.table (u.insert k (.leaf a')))))))) := by
  have hvord : v.Ordered := ht.get hv
  have huord : u.Ordered := hvord.get hu
  have hinner : Kept (some (.table u)) (some (.table (u.insert k (.leaf a')))) := Kept.insert (ha ▸ kept_leaf a a')
  have hmiddle := Kept.insert (t := v) (k := name) (hu ▸ hinner)
  exact ⟨ht.insert (n := .table _) (hvord.insert (n := .table _) (huord.insert trivial)), Kept.insert (hv ▸ hmiddle)⟩

theorem withMarkets_spec {name : String} {v : VenueConfig} (hmem : (name, v) ∈ euVenues) (markets : List String) :
    (withMarkets name v markets).Ordered ∧
      Kept (some (.table (ofVenues euVenues))) (some (.table (withMarkets name v markets))) := by
  have hord := (Fields.readTable_eq_some.mp (venues_reads_back (ρ := Empty) euVenues_nodup)).1
  have hmarkets : (v.table : Table Empty).get "markets" = some (.leaf (.strings v.markets)) :=
    v.get_table (e := ("markets", some (.strings v.markets))) (by simp [VenueConfig.fields])
  have hone : (ofVenues euVenues).Ordered := ⟨hord, by simp [keys], trivial⟩
  have hvenues : (ofVenues euVenues).get "venues" = some (.table (venuesTable euVenues)) := rfl
  exact replace_spec hone hvenues
    ((get_venuesTable (ρ := Empty) euVenues_nodup).1 (name, v) hmem) hmarkets (.strings markets)

/-- The markets of a venue that only the repository's file has cannot be changed by the user's. -/
theorem new_venue_refused : ∃ (repo user : File bare.Text) (path : String) (l : Layered Empty) (c : Table Empty),
    loadLayered bare venuesOnly repo user = .ok l ∧ c.Ordered ∧ venuesOnly.validate c = .ok () ∧
      Kept (some (.table l.belowUser)) (some (.table c)) ∧ ¬ Reproduces bare venuesOnly repo path l.belowUser c := by
  obtain ⟨l, hload, hbelow⟩ := loads_eu
  have hmem : ("okx_eu", euVenue) ∈ euVenues := List.mem_cons_self
  obtain ⟨hord, hkept⟩ := withMarkets_spec hmem ["BTC-EUR"]
  rw [← hbelow] at hkept
  refine ⟨euFile, noFile, "config.toml", l, withMarkets "okx_eu" euVenue ["BTC-EUR"], hload, hord, rfl, hkept, ?_⟩
  rw [reproduces_iff "config.toml" hload hord rfl hkept, hbelow]
  intro h
  have hold : venueOf (ofVenues euVenues) "okx_eu" = some (.table euVenue.table) :=
    (venueOf_eq (v := venuesTable euVenues) rfl "okx_eu").trans
      ((get_venuesTable (ρ := Empty) euVenues_nodup).1 ("okx_eu", euVenue) hmem)
  have hnew : venueOf (withMarkets "okx_eu" euVenue ["BTC-EUR"]) "okx_eu" =
      some (.table (euVenue.table.insert "markets" (.leaf (.strings ["BTC-EUR"])))) := by
    rw [venueOf_eq (by rw [withMarkets, get_insert, if_pos rfl]), get_insert, if_pos rfl]
  have hmarkets : (euVenue.table : Table Empty).get "markets" = some (.leaf (.strings ["ETH-EUR"])) :=
    euVenue.get_table (e := ("markets", some (.strings ["ETH-EUR"]))) (by simp [VenueConfig.fields, euVenue])
  refine (h.renewed "okx_eu" _ _ (by decide) hold hnew fun he => ?_).1 ?_
  · rw [he, get_insert, if_pos rfl] at hmarkets
    exact absurd hmarkets (by decide)
  · rw [get_insert, if_neg (by decide)]

theorem ofVenues_reads : (config venuesOnly).readTable (ofVenues euVenues) = some (ofVenues euVenues) := by
  have hvenues := venues_reads_back (ρ := Empty) euVenues_nodup
  refine Fields.readTable_eq_some.mpr ⟨⟨(Fields.readTable_eq_some.mp hvenues).1, by simp [keys], trivial⟩, fun k => ?_⟩
  by_cases hk : k = "venues"
  · subst hk
    rw [config_venues, show (ofVenues euVenues).get "venues" = some (.table (venuesTable euVenues)) from rfl,
      Reader.table_table, hvenues]
    rfl
  · have hnone : (ofVenues euVenues).get k = none := by simp [ofVenues, Nested.get, Ne.symm hk]
    rw [config_section venuesOnly hk, hnone]
    rfl

theorem withMarkets_reloads : Reloads bare venuesOnly (ofVenues euVenues) (withMarkets "okx" .okx ["SOL-USDT"]) := by
  have hsmall : ∀ e ∈ euVenues, ∀ id ∈ e.2.chainId, id.toNat < 2 ^ 63 := by
    simp [euVenues, euVenue, defaultVenues, VenueConfig.okx, VenueConfig.binance, VenueConfig.evm]
  have hfits := venues_fit (ρ := Empty) hsmall bare.fits
  have hokxfits := VenueConfig.okx.fits (ρ := Empty) (by simp [VenueConfig.okx]) bare.fits
  have hvenues := venues_reads_back (ρ := Empty) euVenues_nodup
  constructor
  · simpa [ofVenues, all] using hfits
  · refine all_insert (by simpa [ofVenues, all] using hfits) (all_insert (n := .table _) hfits ?_)
    exact all_insert hokxfits rfl
  · refine Fields.readTable_insert ofVenues_reads ?_
    have hokx := Fields.readTable_insert (VenueConfig.okx.reads_back (ρ := Empty)) (markets_read ["SOL-USDT"])
    have hentry : (venues.entry "okx").read (some (.table (VenueConfig.okx.table.insert "markets"
        (.leaf (.strings ["SOL-USDT"]))))) =
          some (some (Nested.Node.table (κ := String) (α := Leaf Empty)
            (VenueConfig.okx.table.insert "markets" (.leaf (.strings ["SOL-USDT"]))))) := by
      rw [venues, Fields.ofEntries, Reader.present_some, Reader.table_table, hokx]
      rfl
    rw [config_venues, Reader.table_table, Fields.readTable_insert hvenues hentry]
    rfl
  · rw [venueOf_eq (by rw [withMarkets, get_insert, if_pos rfl]), get_insert, if_neg (by decide)]
    exact (get_venuesTable euVenues_nodup).2 "solana" (by decide)
  · intro name v w hname hv hw hne
    -- no other venue has changed
    have hokx : "okx" ≠ name := fun he => hname (he ▸ by decide)
    rw [venueOf_eq (v := venuesTable euVenues) rfl] at hv
    rw [venueOf_eq (by rw [withMarkets, get_insert, if_pos rfl]), get_insert, if_neg hokx, hv] at hw
    cases hw
    exact absurd rfl hne

/-- A user of the same repository who wants one market of OKX's. -/
theorem user_delta_reproduces_okx : ∃ l : Layered Empty, loadLayered bare venuesOnly euFile noFile = .ok l ∧
    Reproduces bare venuesOnly euFile "config.toml" l.belowUser (withMarkets "okx" .okx ["SOL-USDT"]) := by
  obtain ⟨l, hload, hbelow⟩ := loads_eu
  have hmem : ("okx", VenueConfig.okx) ∈ euVenues := by simp [euVenues, defaultVenues]
  obtain ⟨hord, hkept⟩ := withMarkets_spec hmem ["SOL-USDT"]
  rw [← hbelow] at hkept
  refine ⟨l, hload, ((user_delta_reproduces bare venuesOnly).2 euFile noFile "config.toml" l _ hload hord rfl hkept).mpr ?_⟩
  rw [hbelow]
  exact withMarkets_reloads

end Config
end MobiusSearcher
