/-
# A venue's settings

`VenueConfig` of `crates/core/src/config.rs`: the table of one market, as it
is written and as it is read, and the five venues of the built-in defaults.
`kind` and `rest_url` have to be there; everything else has a default.

Values are those of a TOML file. The ones no venue has (numbers with a
fraction, dates, lists of anything but texts) are of a type `ρ` that is left
open, and values are told apart as `toml::Value` tells them apart, by `==`.

Key definitions: `Leaf`, `VenueConfig`, `venueFields`, `defaultVenues`.
Key theorems: `VenueConfig.reads_back`, `defaultVenues_read`,
`entry_reads_iff`.
-/
import MobiusSearcher.Lib.Typed
import Mathlib.Data.String.Basic

namespace MobiusSearcher
namespace Config

open Nested

/-- A value of a TOML table that is not a table itself. -/
inductive Leaf (ρ : Type)
  | string (s : String)
  | integer (i : ℤ)
  | boolean (b : Bool)
  | strings (xs : List String)
  | other (v : ρ)
deriving DecidableEq

abbrev Table (ρ : Type) := Nested String (Leaf ρ)

abbrev Node (ρ : Type) := Nested.Node String (Leaf ρ)

variable {ρ : Type}

namespace Leaf

/-- `==` of `toml::Value`. -/
instance [BEq ρ] : BEq (Leaf ρ) where
  beq
    | .string s, .string t => s == t
    | .integer i, .integer j => i == j
    | .boolean a, .boolean b => a == b
    | .strings xs, .strings ys => xs == ys
    | .other v, .other w => v == w
    | _, _ => false

theorem eq_of_beq [BEq ρ] (h : ∀ v w : ρ, (v == w) = true → v = w) (a b : Leaf ρ) (hab : (a == b) = true) : a = b := by
  cases a with
  | string s => cases b <;> first | exact congrArg _ (LawfulBEq.eq_of_beq hab) | cases hab
  | integer i => cases b <;> first | exact congrArg _ (LawfulBEq.eq_of_beq hab) | cases hab
  | boolean x => cases b <;> first | exact congrArg _ (LawfulBEq.eq_of_beq hab) | cases hab
  | strings xs => cases b <;> first | exact congrArg _ (LawfulBEq.eq_of_beq hab) | cases hab
  | other v => cases b <;> first | exact congrArg _ (h _ _ hab) | cases hab

/-- An integer of a TOML file is an `i64`; of the rest, `fits` says whether its integers are. -/
def fits (other : ρ → Bool) : Leaf ρ → Bool
  | .integer i => decide (-2 ^ 63 ≤ i ∧ i < 2 ^ 63)
  | .other v => other v
  | _ => true

end Leaf

/-! ### The types of a venue's fields -/

/-- A field whose values are those that satisfy `p`. -/
def typed (p : Leaf ρ → Bool) (absent : Option (Option (Leaf ρ))) (h : ∀ a, absent = some (some a) → p a = true) :
    Typed (Leaf ρ) where
  read a := if p a then some a else none
  absent := absent
  again {a b} hab := by
    split at hab
    · rename_i ha
      cases hab
      rw [if_pos ha]
    · cases hab
  absent_reads {a} ha := if_pos (h a ha)

def isString : Leaf ρ → Bool
  | .string _ => true
  | _ => false

def isBool : Leaf ρ → Bool
  | .boolean _ => true
  | _ => false

def isStrings : Leaf ρ → Bool
  | .strings _ => true
  | _ => false

/-- An unsigned integer of `w` bits. -/
def isUnsigned (w : ℕ) : Leaf ρ → Bool
  | .integer i => decide (0 ≤ i ∧ i < 2 ^ w)
  | _ => false

theorem isUnsigned_u32 (x : UInt32) : isUnsigned 32 (.integer x.toNat : Leaf ρ) = true := by
  have := x.toNat_lt
  simp only [isUnsigned, decide_eq_true_eq]
  omega

theorem isUnsigned_u64 (x : UInt64) : isUnsigned 64 (.integer x.toNat : Leaf ρ) = true := by
  have := x.toNat_lt
  simp only [isUnsigned, decide_eq_true_eq]
  omega

/-- Connector a venue uses. -/
inductive VenueKind
  | okx
  | binance
  | evm
deriving DecidableEq, Repr

def VenueKind.name : VenueKind → String
  | .okx => "okx"
  | .binance => "binance"
  | .evm => "evm"

def isKind : Leaf ρ → Bool
  | .string s => ["okx", "binance", "evm"].contains s
  | _ => false

/-- A field that has to be there. -/
def required (p : Leaf ρ → Bool) : Typed (Leaf ρ) := typed p none fun _ h => absurd h (by simp)

/-- An `Option`: it may be left out, and then is not there. -/
def optional (p : Leaf ρ → Bool) : Typed (Leaf ρ) := typed p (some none) fun _ h => absurd h (by simp)

/-- A field with a default. -/
def defaulted (p : Leaf ρ → Bool) (a : Leaf ρ) (h : p a = true) : Typed (Leaf ρ) :=
  typed p (some (some a)) fun _ hb => Option.some.inj (Option.some.inj hb) ▸ h

def yes : Bool := true

def defaultTakerFeeBps : UInt32 := 10

/-- The fields of `VenueConfig`. -/
def venueFields : List (String × Typed (Leaf ρ)) :=
  [("kind", required isKind),
   ("enabled", defaulted isBool (.boolean yes) rfl),
   ("rest_url", required isString),
   ("markets", defaulted isStrings (.strings []) rfl),
   ("watchlist", defaulted isStrings (.strings []) rfl),
   ("api_key_env", defaulted isString (.string "") rfl),
   ("secret_env", defaulted isString (.string "") rfl),
   ("passphrase_env", defaulted isString (.string "") rfl),
   ("trading", defaulted isBool (.boolean false) rfl),
   ("demo", defaulted isBool (.boolean yes) rfl),
   ("taker_fee_bps", defaulted (isUnsigned 32) (.integer defaultTakerFeeBps.toNat) (isUnsigned_u32 _)),
   ("chain_id", optional (isUnsigned 64)),
   ("rpc_url_env", defaulted isString (.string "") rfl),
   ("quoter", defaulted isString (.string "") rfl),
   ("pools", defaulted isStrings (.strings []) rfl),
   ("router", defaulted isString (.string "") rfl)]

/-- Reading the table of a venue. -/
def venue : Fields String (Leaf ρ) := Fields.ofTyped venueFields

/-! ### Venues -/

/-- One market venue. -/
structure VenueConfig where
  kind : VenueKind
  enabled : Bool
  restUrl : String
  markets : List String
  watchlist : List String
  apiKeyEnv : String
  secretEnv : String
  passphraseEnv : String
  trading : Bool
  demo : Bool
  takerFeeBps : UInt32
  chainId : Option UInt64
  rpcUrlEnv : String
  quoter : String
  pools : List String
  router : String

namespace VenueConfig

/-- What stands under each key of the table of a venue. -/
def fields (v : VenueConfig) : List (String × Option (Leaf ρ)) :=
  [("kind", some (.string v.kind.name)),
   ("enabled", some (.boolean v.enabled)),
   ("rest_url", some (.string v.restUrl)),
   ("markets", some (.strings v.markets)),
   ("watchlist", some (.strings v.watchlist)),
   ("api_key_env", some (.string v.apiKeyEnv)),
   ("secret_env", some (.string v.secretEnv)),
   ("passphrase_env", some (.string v.passphraseEnv)),
   ("trading", some (.boolean v.trading)),
   ("demo", some (.boolean v.demo)),
   ("taker_fee_bps", some (.integer v.takerFeeBps.toNat)),
   ("chain_id", v.chainId.map fun id => .integer id.toNat),
   ("rpc_url_env", some (.string v.rpcUrlEnv)),
   ("quoter", some (.string v.quoter)),
   ("pools", some (.strings v.pools)),
   ("router", some (.string v.router))]

/-- The table a venue is written as. -/
def table (v : VenueConfig) : Table ρ := ofList (v.fields.map fun e => (e.1, e.2.map .leaf))

def okx : VenueConfig where
  kind := .okx
  enabled := true
  restUrl := "https://www.okx.com"
  markets := ["SOL-USDT", "SOL-USDC"]
  watchlist := ["BTC-USDT", "ETH-USDT", "SOL-USDT", "XRP-USDT", "JUP-USDT", "USDC-USDT"]
  apiKeyEnv := "OKX_API_KEY"
  secretEnv := "OKX_API_SECRET"
  passphraseEnv := "OKX_API_PASSPHRASE"
  trading := false
  demo := true
  takerFeeBps := defaultTakerFeeBps
  chainId := none
  rpcUrlEnv := ""
  quoter := ""
  pools := []
  router := ""

/-- Binance spot market data from the public mirror. -/
def binance : VenueConfig :=
  { okx with
    kind := .binance
    enabled := false
    restUrl := "https://data-api.binance.vision"
    markets := ["SOLUSDT", "SOLUSDC"]
    watchlist := ["BTCUSDT", "ETHUSDT", "SOLUSDT"]
    apiKeyEnv := "BINANCE_API_KEY"
    secretEnv := "BINANCE_API_SECRET"
    passphraseEnv := "" }

/-- Uniswap v3 WETH/USDC on an EVM chain. -/
def evm (chainId : UInt64) (rpc rpcEnv quoter router pool : String) : VenueConfig where
  kind := .evm
  enabled := false
  restUrl := rpc
  markets := []
  watchlist := []
  apiKeyEnv := ""
  secretEnv := ""
  passphraseEnv := ""
  trading := false
  demo := true
  takerFeeBps := 0
  chainId := some chainId
  rpcUrlEnv := rpcEnv
  quoter := quoter
  pools := [pool]
  router := router

end VenueConfig

/-- The venues of `Config::default()`. -/
def defaultVenues : List (String × VenueConfig) :=
  [("okx", .okx),
   ("binance", .binance),
   ("ethereum", .evm 1 "https://ethereum-rpc.publicnode.com" "ETHEREUM_RPC_URL"
      "0x61fFE014bA17989E743c5F6cB21bF9697530B21e" "0x68b3465833fb72A70ecDF485E0e4C7bD8665Fc45"
      "0x88e6A0c2dDD26FEEb64F039a2c41296FcB3f5640"),
   ("base", .evm 8453 "https://base-rpc.publicnode.com" "BASE_RPC_URL"
      "0x3d4e44Eb1374240CE5F1B871ab261CD16335B76a" "0x2626664c2603336E57B271c5C0b26F421741e481"
      "0xd0b53D9277642d899DF5C87A3966A349A798F224"),
   ("arbitrum", .evm 42161 "https://arbitrum-one-rpc.publicnode.com" "ARBITRUM_RPC_URL"
      "0x61fFE014bA17989E743c5F6cB21bF9697530B21e" "0x68b3465833fb72A70ecDF485E0e4C7bD8665Fc45"
      "0xC6962004f452bE9203591991D15f6b388e09E8D0")]

/-- A map of venues, as it is written. -/
def venuesTable (vs : List (String × VenueConfig)) : Table ρ :=
  ofList (vs.map fun e => (e.1, some (.table e.2.table)))

/-- Reading the map of venues. -/
def venues : Fields String (Leaf ρ) := Fields.ofEntries (.table venue .nil)

/-! ### What is written is read -/

theorem reads_typed {p : Leaf ρ → Bool} {absent : Option (Option (Leaf ρ))}
    {h : ∀ a, absent = some (some a) → p a = true} {a : Leaf ρ} (ha : p a = true) :
    ((typed p absent h).reader : Reader String (Leaf ρ)).read (some (.leaf a)) = some (some (.leaf a)) := by
  simp [typed, ha]

theorem venueFields_nodup : ((venueFields : List (String × Typed (Leaf ρ))).map Prod.fst).Nodup := by
  simp only [venueFields, List.map_cons, List.map_nil]
  decide

/-- What is written of a venue reads as what it was. -/
theorem VenueConfig.reads_back (v : VenueConfig) : venue.readTable (v.table : Table ρ) = some v.table := by
  have hkind : isKind (.string v.kind.name : Leaf ρ) = true := by cases v.kind <;> rfl
  have hchain : ((optional (isUnsigned 64)).reader : Reader String (Leaf ρ)).read
      ((v.chainId.map fun id => Leaf.integer id.toNat).map .leaf) =
        some ((v.chainId.map fun id => Leaf.integer id.toNat).map .leaf) := by
    cases v.chainId with
    | none => rfl
    | some id => exact reads_typed (isUnsigned_u64 id)
  refine Fields.readTable_ofTyped venueFields_nodup ?_
  simp only [VenueConfig.fields, venueFields, List.forall₂_cons, List.forall₂_nil_left_iff, true_and, and_true]
  exact ⟨reads_typed hkind, reads_typed rfl, reads_typed rfl, reads_typed rfl, reads_typed rfl, reads_typed rfl,
    reads_typed rfl, reads_typed rfl, reads_typed rfl, reads_typed rfl, reads_typed (isUnsigned_u32 _), hchain,
    reads_typed rfl, reads_typed rfl, reads_typed rfl, reads_typed rfl⟩

theorem defaultVenues_nodup : (defaultVenues.map Prod.fst).Nodup := by decide

theorem VenueConfig.get_table (v : VenueConfig) {e : String × Option (Leaf ρ)} (h : e ∈ v.fields) :
    (v.table : Table ρ).get e.1 = e.2.map .leaf := by
  have hn := venueFields_nodup (ρ := ρ)
  have hkeys : (v.fields.map fun e => (e.1, e.2.map (Nested.Node.leaf (κ := String) (α := Leaf ρ)))).map Prod.fst =
      (venueFields : List (String × Typed (Leaf ρ))).map Prod.fst := rfl
  rw [← hkeys] at hn
  exact (get_ofList hn).1 _ (List.mem_map_of_mem h)

/-- A venue whose chain has an id in range can be written. -/
theorem VenueConfig.fits (v : VenueConfig) (h : ∀ id ∈ v.chainId, id.toNat < 2 ^ 63) (other : ρ → Bool) :
    (v.table : Table ρ).all (Leaf.fits other) = true := by
  have hfee := v.takerFeeBps.toNat_lt
  refine all_ofList fun e he n hn => ?_
  obtain ⟨f, hf, rfl⟩ := List.mem_map.mp he
  obtain ⟨a, ha, rfl⟩ := Option.mem_map.mp hn
  simp only [VenueConfig.fields, List.mem_cons, List.not_mem_nil, or_false] at hf
  rcases hf with rfl | rfl | rfl | rfl | rfl | rfl | rfl | rfl | rfl | rfl | rfl | rfl | rfl | rfl | rfl | rfl
  case inr.inr.inr.inr.inr.inr.inr.inr.inr.inr.inl =>
    cases ha
    simp only [Node.all, Leaf.fits, decide_eq_true_eq]
    omega
  case inr.inr.inr.inr.inr.inr.inr.inr.inr.inr.inr.inl =>
    obtain ⟨id, hid, rfl⟩ := Option.mem_map.mp ha
    have := h id hid
    simp only [Node.all, Leaf.fits, decide_eq_true_eq]
    omega
  all_goals
    cases ha
    rfl

theorem venues_fit {vs : List (String × VenueConfig)} (h : ∀ e ∈ vs, ∀ id ∈ e.2.chainId, id.toNat < 2 ^ 63)
    (other : ρ → Bool) : (venuesTable vs : Table ρ).all (Leaf.fits other) = true := by
  refine all_ofList fun e he n hn => ?_
  obtain ⟨v, hv, rfl⟩ := List.mem_map.mp he
  cases hn
  exact v.2.fits (h v hv) other

/-- Venues of different names read as what they are. -/
theorem venues_reads_back {vs : List (String × VenueConfig)} (hn : (vs.map Prod.fst).Nodup) :
    venues.readTable (venuesTable vs : Table ρ) = some (venuesTable vs) := by
  have hkeys : (vs.map fun e => (e.1, some (Nested.Node.table (e.2.table : Table ρ)))).map Prod.fst =
      vs.map Prod.fst := by simp [List.map_map, Function.comp_def]
  refine Fields.readTable_ofList (hkeys ▸ hn) (fun e he => ?_) fun k _ => rfl
  obtain ⟨v, -, rfl⟩ := List.mem_map.mp he
  simp [venues, Fields.ofEntries, VenueConfig.reads_back]

theorem get_venuesTable {vs : List (String × VenueConfig)} (hn : (vs.map Prod.fst).Nodup) :
    (∀ e ∈ vs, (venuesTable vs : Table ρ).get e.1 = some (.table e.2.table)) ∧
      ∀ name ∉ vs.map Prod.fst, (venuesTable vs : Table ρ).get name = none := by
  have hkeys : (vs.map fun e => (e.1, some (Nested.Node.table (e.2.table : Table ρ)))).map Prod.fst =
      vs.map Prod.fst := by simp [List.map_map, Function.comp_def]
  rw [← hkeys] at hn
  obtain ⟨hget, hnone⟩ := get_ofList hn
  exact ⟨fun e he => hget _ (List.mem_map_of_mem he), fun name h => hnone name (hkeys ▸ h)⟩

/-- The built-in venues read as what they are. -/
theorem defaultVenues_read : venues.readTable (venuesTable defaultVenues : Table ρ) = some (venuesTable defaultVenues) :=
  venues_reads_back defaultVenues_nodup

/-! ### What a venue needs -/

/-- Only `kind` and `rest_url` have to be there. -/
theorem required_keys {k : String} {f : Typed (Leaf ρ)} (h : (k, f) ∈ venueFields) (hf : f.absent = none) :
    k = "kind" ∨ k = "rest_url" := by
  simp only [venueFields, List.mem_cons, List.not_mem_nil, or_false, Prod.mk.injEq] at h
  rcases h with ⟨rfl, -⟩ | ⟨-, rfl⟩ | ⟨rfl, -⟩ | ⟨-, rfl⟩ | ⟨-, rfl⟩ | ⟨-, rfl⟩ | ⟨-, rfl⟩ | ⟨-, rfl⟩ | ⟨-, rfl⟩ |
    ⟨-, rfl⟩ | ⟨-, rfl⟩ | ⟨-, rfl⟩ | ⟨-, rfl⟩ | ⟨-, rfl⟩ | ⟨-, rfl⟩ | ⟨-, rfl⟩
  · exact .inl rfl
  · cases hf
  · exact .inr rfl
  all_goals cases hf

/-- A value of a venue equals itself. -/
theorem venueFields_beq [BEq ρ] {p : String × Typed (Leaf ρ)} (h : p ∈ venueFields) {a b : Leaf ρ}
    (hr : p.2.read a = some b) : (b == b) = true := by
  have key : ∀ {q : Leaf ρ → Bool}, (∀ v, q (.other v) = false) →
      (if q a then some a else none) = some b → (b == b) = true := fun hq hr => by
    split at hr
    · rename_i ha
      cases hr
      cases a with
      | other v => simp [hq v] at ha
      | string s => exact beq_self_eq_true s
      | integer i => exact beq_self_eq_true i
      | boolean b => exact beq_self_eq_true b
      | strings xs => exact beq_self_eq_true xs
    · cases hr
  simp only [venueFields, List.mem_cons, List.not_mem_nil, or_false] at h
  rcases h with rfl | rfl | rfl | rfl | rfl | rfl | rfl | rfl | rfl | rfl | rfl | rfl | rfl | rfl | rfl | rfl
  all_goals exact key (fun _ => rfl) hr

/-- A field that is a text is one. -/
theorem required_string {p : Leaf ρ → Bool} (hp : ∀ a, p a = true → ∃ s, a = .string s) {x : Option (Node ρ)}
    (h : (required p).reader.read x = some x) : ∃ s, x = some (.leaf (.string s)) := by
  rcases x with _ | x
  · cases h
  · cases x with
    | table t => cases h
    | leaf a =>
      simp only [Typed.read_leaf, required, typed, Option.map_eq_some_iff] at h
      obtain ⟨b, hb, -⟩ := h
      split at hb
      · rename_i ha
        obtain ⟨s, rfl⟩ := hp a ha
        exact ⟨s, rfl⟩
      · cases hb

theorem venue_entry {p : String × Typed (Leaf ρ)} (h : p ∈ venueFields) : venue.entry p.1 = p.2.reader :=
  Fields.entry_ofTyped venueFields_nodup h

theorem markets_read (markets : List String) : (venue.entry "markets").read (some (.leaf (.strings markets : Leaf ρ))) =
    some (some (.leaf (.strings markets))) := by
  have hmem : ("markets", defaulted isStrings (.strings []) rfl) ∈ (venueFields : List (String × Typed (Leaf ρ))) := by
    simp [venueFields]
  rw [venue_entry hmem]
  simp [defaulted, typed, isStrings]

theorem kind_string {t : Table ρ} (h : venue.readTable t = some t) : ∃ s, t.get "kind" = some (.leaf (.string s)) := by
  have hread := (Fields.readTable_eq_some.mp h).2 "kind"
  rw [venue_entry (p := ("kind", required isKind)) (by simp [venueFields])] at hread
  refine required_string (fun a ha => ?_) hread
  cases a with
  | string s => exact ⟨s, rfl⟩
  | _ => cases ha

theorem url_string {t : Table ρ} (h : venue.readTable t = some t) :
    ∃ s, t.get "rest_url" = some (.leaf (.string s)) := by
  have hread := (Fields.readTable_eq_some.mp h).2 "rest_url"
  rw [venue_entry (p := ("rest_url", required isString)) (by simp [venueFields])] at hread
  refine required_string (fun a ha => ?_) hread
  cases a with
  | string s => exact ⟨s, rfl⟩
  | _ => cases ha

/-- The kind of a venue is one that has a connector. -/
theorem kind_not_solana {t : Table ρ} (h : venue.readTable t = some t) :
    t.get "kind" ≠ some (.leaf (.string "solana")) := by
  have hread := (Fields.readTable_eq_some.mp h).2 "kind"
  rw [venue_entry (p := ("kind", required isKind)) (by simp [venueFields])] at hread
  intro heq
  rw [heq] at hread
  exact absurd hread (by simp [required, typed, isKind])

section Differences

variable [BEq ρ]

/-- Nothing differs between a venue and itself. -/
theorem diff_self {t : Table ρ} (h : venue.readTable t = some t) : t.diff t = .nil := by
  obtain ⟨ht, hread⟩ := Fields.readTable_eq_some.mp h
  refine ext_get (ht.diff t) trivial fun k => ?_
  rw [get_diff ht, get_nil]
  rcases hk : t.get k with _ | n
  · rw [changed_none]
  · have hentry := hread k
    rw [hk] at hentry
    rcases Fields.entry_cases (venueFields : List (String × Typed (Leaf ρ))) k with hl | ⟨f, hmem, hl⟩
    · rw [venue, hl] at hentry
      cases hentry
    · rw [venue, hl] at hentry
      cases n with
      | table u => simp at hentry
      | leaf a =>
        obtain ⟨b, hb, he⟩ := Option.map_eq_some_iff.mp ((Typed.read_leaf f a).symm.trans hentry)
        cases he
        rw [changed, if_pos (venueFields_beq hmem hb)]

theorem changed_string {s s' : String} :
    changed (some (.leaf (.string s) : Node ρ)) (some (.leaf (.string s'))) ≠ none ↔
      some (Nested.Node.leaf (κ := String) (Leaf.string (ρ := ρ) s)) ≠ some (.leaf (.string s')) := by
  have hb : ((Leaf.string s : Leaf ρ) == .string s') = (s == s') := rfl
  rw [changed, hb]
  by_cases h : s = s'
  · simp [h]
  · simp [h]

/-- **What differs between two venues is a venue, as a file has to write it, where both required fields differ.** -/
theorem diff_reads_iff {b c : Table ρ} (hb : venue.readTable b = some b) (hc : venue.readTable c = some c) :
    (venue.readTable (b.diff c)).isSome ↔ b.get "kind" ≠ c.get "kind" ∧ b.get "rest_url" ≠ c.get "rest_url" := by
  obtain ⟨hord, hread⟩ := Fields.readTable_eq_some.mp hc
  have hkind : changed (b.get "kind") (c.get "kind") ≠ none ↔ b.get "kind" ≠ c.get "kind" := by
    obtain ⟨s, hs⟩ := kind_string hb
    obtain ⟨s', hs'⟩ := kind_string hc
    rw [hs, hs', changed_string]
  have hurl : changed (b.get "rest_url") (c.get "rest_url") ≠ none ↔ b.get "rest_url" ≠ c.get "rest_url" := by
    obtain ⟨s, hs⟩ := url_string hb
    obtain ⟨s', hs'⟩ := url_string hc
    rw [hs, hs', changed_string]
  rw [← hkind, ← hurl, Fields.readTable_isSome]
  simp only [get_diff hord]
  have hfield : ∀ {p : String × Typed (Leaf ρ)}, p ∈ venueFields →
      (((venue.entry p.1).read (changed (b.get p.1) (c.get p.1))).isSome ↔
        (p.2.absent = none → changed (b.get p.1) (c.get p.1) ≠ none)) := fun {p} hp => by
    have hentry := hread p.1
    rw [venue_entry hp] at hentry ⊢
    exact Reader.read_changed_isSome hentry
  constructor
  · intro h
    exact ⟨(hfield (p := ("kind", required isKind)) (by simp [venueFields])).mp (h "kind") rfl,
      (hfield (p := ("rest_url", required isString)) (by simp [venueFields])).mp (h "rest_url") rfl⟩
  · rintro ⟨hk, hu⟩ k
    rcases Fields.entry_cases (venueFields : List (String × Typed (Leaf ρ))) k with hl | ⟨f, hmem, -⟩
    · have hentry := hread k
      rw [venue, hl] at hentry ⊢
      rcases hc : c.get k with _ | n
      · rw [changed_none]
        rfl
      · rw [hc] at hentry
        cases hentry
    · refine (hfield hmem).mpr fun habs => ?_
      rcases required_keys hmem habs with rfl | rfl
      · exact hk
      · exact hu

/-- One entry of the map of venues, where the file stands for itself: it does not read when it is in both, and has
changed without changing what it needs. -/
theorem changed_reads_iff (heq : ∀ v w : ρ, (v == w) = true → v = w) {x y : Option (Node ρ)}
    (hx : (Reader.table venue .nil).present.read x = some x) (hy : (Reader.table venue .nil).present.read y = some y)
    (h : Kept x y) :
    ((Reader.table venue .nil).present.read (changed x y)).isSome ↔
      ∀ b c, x = some (.table b) → y = some (.table c) → b ≠ c →
        b.get "kind" ≠ c.get "kind" ∧ b.get "rest_url" ≠ c.get "rest_url" := by
  rcases y with _ | y
  · rw [changed_none]
    exact iff_of_true rfl fun _ _ _ h => absurd h (by simp)
  · rcases x with _ | x
    · rw [none_changed, hy]
      exact iff_of_true rfl fun _ _ h => absurd h (by simp)
    · obtain ⟨b, hb, hreadb⟩ := Reader.eq_table (F := venue) hx
      obtain ⟨c, hc, hreadc⟩ := Reader.eq_table (F := venue) hy
      cases hb
      cases hc
      have hdiff : (b.diff c).isEmpty = true ↔ b = c := by
        rw [Nested.isEmpty_iff]
        constructor
        · intro he
          have hm := merge_diff (Leaf.eq_of_beq heq) c b (Fields.readTable_eq_some.mp hreadb).1
            (Fields.readTable_eq_some.mp hreadc).1 h
          rwa [he, merge_nil] at hm
        · rintro rfl
          exact diff_self hreadb
      have hiff := diff_reads_iff hreadb hreadc
      rw [changed]
      by_cases heq' : b = c
      · rw [if_pos (hdiff.mpr heq')]
        refine iff_of_true rfl fun b' c' hb' hc' hne => absurd ?_ hne
        cases hb'
        cases hc'
        exact heq'
      · rw [if_neg (mt hdiff.mp heq'), Reader.present_some, Reader.table_table, Option.isSome_map, hiff]
        constructor
        · rintro hk b' c' hb' hc' -
          cases hb'
          cases hc'
          exact hk
        · exact fun hk => hk b c rfl rfl heq'

end Differences

end Config
end MobiusSearcher
