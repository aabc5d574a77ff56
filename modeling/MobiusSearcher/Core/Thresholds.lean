/-
# The thresholds an operator changes

`crates/core/src/thresholds.rs`: the settings that can be changed while the
bot runs. What the operator types is read as a value of the setting's kind,
put into a copy of the configuration, and the copy is read and validated as a
whole before anything uses it.

A configuration is the table it is written as, so a change puts values into
that table (`puts`).

Key definitions: `thresholds`, `parse`, `values`, `apply`.
Key theorems: `splitKey_thresholds`, `apply_eq_ok`.
-/
import MobiusSearcher.Core.Layers
import MobiusSearcher.Core.Decimal
import MobiusSearcher.Lib.Put

namespace MobiusSearcher
namespace Thresholds

open Nested Config Text

variable {ρ : Type}

inductive Kind
  | int
  | uInt
  /-- Decimal string (`"0.002"`). -/
  | decimal
  | bool
  /-- Free text (`jupiter.slippage`: `"rtse"` or bps). -/
  | text
deriving DecidableEq, Repr

structure Threshold where
  /-- Dotted config path (`profit.min_profit_lamports`). -/
  key : String
  label : String
  kind : Kind
deriving DecidableEq, Repr

def thresholds : List Threshold :=
  [{ key := "profit.min_profit_lamports", label := "Min profit (lamports)", kind := .int },
    { key := "profit.min_profit_bps", label := "Min profit (bp)", kind := .int },
    { key := "profit.min_profit_usd", label := "Min profit (USD)", kind := .decimal },
    { key := "profit.protect_min_out", label := "On-chain min-out", kind := .bool },
    { key := "profit.expected_slippage_share_bps", label := "Slippage reserve (bp of tolerance)", kind := .uInt },
    { key := "profit.safety_buffer_lamports", label := "Safety buffer (lamports)", kind := .uInt },
    { key := "profit.safety_buffer_bps", label := "Safety buffer (bp)", kind := .int },
    { key := "profit.max_new_deposit_lamports", label := "Max deposit per trade", kind := .uInt },
    { key := "jupiter.slippage", label := "Slippage tolerance", kind := .text },
    { key := "risk.max_trade_lamports", label := "Max trade size (lamports)", kind := .uInt },
    { key := "risk.max_daily_loss_usd", label := "Max daily loss (USD)", kind := .decimal }]

def find (key : String) : Option Threshold := thresholds.find? fun t => t.key == key

/-- `key.split_once('.')`: the section and the key in it. -/
def splitKey (key : String) : Option (String × String) :=
  (splitOnce '.' key.toList).map fun p => (String.ofList p.1, String.ofList p.2)

/-! ### Reading what is typed -/

/-- `str::parse` of a `u64`. -/
def parseU64 (s : List Char) : Option ℕ :=
  let digits := match s with
    | '+' :: digits => digits
    | _ => s
  if digits.all Char.isDigit then (parseUnsigned 64 digits).toOption else none

/-- `parse_decimal` with an optional leading `-`. -/
def parseSignedDecimal (s : List Char) (decimals : ℕ) : Except Unread ℤ := do
  let t := trim s
  let (neg, body) := match t with
    | '-' :: b => (true, b)
    | _ => (false, t)
  let v ← parseDecimal body decimals
  if 2 ^ 63 ≤ v then .error (.format ("`" ++ String.ofList s ++ "` overflows i64"))
  else .ok (if neg then -(v : ℤ) else v)

/-- `ok_or_else`. -/
def orElse {β : Type} (x : Option β) (message : String) : Except Unread β :=
  x.elim (.error (.format message)) .ok

/-- Parse operator input for `th` into a TOML value. -/
def parse (th : Threshold) (input : String) : Except Unread (Leaf ρ) :=
  let s := trim input.toList
  match th.kind with
  | .int => orElse ((parseI64 s).map .integer) (th.label ++ ": whole number")
  | .uInt =>
    orElse (((parseU64 s).filter fun v => v < 2 ^ 63).map fun v => .integer v) (th.label ++ ": whole number ≥ 0")
  | .decimal =>
    match parseSignedDecimal s 6 with
    | .ok _ => .ok (.string (String.ofList s))
    | .error (.format e) => .error (.format (th.label ++ ": " ++ e))
    | .error .panic => .error .panic
  | .bool =>
    if ["true", "on", "yes"].contains (String.ofList s) then .ok (.boolean true)
    else if ["false", "off", "no"].contains (String.ofList s) then .ok (.boolean false)
    else .error (.format (th.label ++ ": true or false"))
  | .text => .ok (.string (String.ofList s))

/-! ### Changing the configuration -/

def get (t : Table ρ) (key : String) : Option (Node ρ) := do
  let (sec, name) ← splitKey key
  match t.get sec with
  | some (.table u) => u.get name
  | _ => none

/-- Whether a landed trade could lose money: without the on-chain min-out, or with a minimum profit below zero. -/
def lossPossible (cfg : Table ρ) : Bool :=
  (match get cfg "profit.protect_min_out" with
    | some (.leaf (.boolean protect)) => !protect
    | _ => false) ||
  match get cfg "profit.min_profit_lamports" with
    | some (.leaf (.integer lamports)) => lamports < 0
    | _ => false

/-- A validated change: the new configuration and the parsed values. -/
structure Change (ρ : Type) where
  config : Table ρ
  values : List (String × Leaf ρ)
  /-- `(key, old, new)` as text, for the log and the review screen. -/
  diff : List (String × String × String)
  /-- The change opens losses the current settings do not allow. -/
  opensLoss : Bool

/-- A change as far as it has been made. -/
structure Applying (ρ : Type) where
  table : Table ρ
  values : List (String × Leaf ρ) := []
  diff : List (String × String × String) := []

section Apply

variable [BEq ρ] (T : Toml ρ) (S : Sections ρ)

def table (cfg : Table ρ) : Except Unread (Table ρ) :=
  if cfg.all (Leaf.fits T.fits) then .ok cfg else .error (.format (T.overflows cfg))

/-- A value as text, strings unquoted. -/
def plainText : Node ρ → String
  | .leaf (.string s) => s
  | v => T.display v

/-- Current value of every threshold, as text. -/
def values (cfg : Table ρ) : List (String × String) :=
  let t := (table T cfg).toOption.getD .nil
  thresholds.map fun th => (th.key, ((get t th.key).map (plainText T)).getD "")

/-- One change: the value that is typed, put into its section. -/
def applyOne (before : List (String × String)) (w : Applying ρ) (change : String × String) :
    Except Unread (Applying ρ) := do
  let (key, text) := change
  let th ← orElse (find key) (key ++ " cannot be changed here")
  let v ← parse th text
  let (sec, name) ← orElse (splitKey key) "bad key"
  match w.table.get sec with
  | some (.table u) =>
    let newText := plainText T (.leaf v)
    .ok
      { table := w.table.insert sec (.table (u.insert name (.leaf v)))
        values := w.values ++ [(key, v)]
        diff :=
          if before.lookup key = some newText then w.diff
          else w.diff ++ [(key, (before.lookup key).getD "", newText)] }
  | _ => .error (.format ("no [" ++ sec ++ "] section"))

/-- `to_string` of an error. -/
def message : ConfigError → String
  | .parse m => "config parse error: " ++ m
  | .invalid m => "invalid config: " ++ m

/-- Apply `changes` (key → operator text) to a copy of `cfg` and validate it. -/
def apply (cfg : Table ρ) (changes : List (String × String)) : Except Unread (Change ρ) := do
  let before := values T cfg
  let t ← table T cfg
  let w ← changes.foldlM (applyOne T before) { table := t }
  let config ← orElse ((config S).readTable w.table) (T.refused w.table)
  (S.validate config).mapError fun e => .format (message e)
  pure
    { config
      values := w.values
      diff := w.diff
      opensLoss := lossPossible config && !lossPossible cfg }

end Apply

/-! ### What a change does -/

/-- Values under dotted keys, as they are put into a table. -/
def edits (vs : List (String × Leaf ρ)) : List ((String × String) × Leaf ρ) :=
  vs.filterMap fun kv => (splitKey kv.1).map fun p => (p, kv.2)

/-- A threshold is a key of one of three sections, and Jupiter's has only one. -/
theorem splitKey_thresholds : ∀ th ∈ thresholds, ∃ p, splitKey th.key = some p ∧
    p.1 ∈ ["profit", "jupiter", "risk"] ∧ (p.1 = "jupiter" ↔ th.key = "jupiter.slippage") := by
  decide +kernel

theorem slippage_edits {vs : List (String × Leaf ρ)} (h : "jupiter.slippage" ∈ vs.map Prod.fst) :
    "jupiter" ∈ (edits vs).map fun e => e.1.1 := by
  obtain ⟨kv, hkv, hkey⟩ := List.mem_map.mp h
  have hsplit : splitKey "jupiter.slippage" = some ("jupiter", "slippage") := by decide +kernel
  refine List.mem_map.mpr ⟨(("jupiter", "slippage"), kv.2), List.mem_filterMap.mpr ⟨kv, hkv, ?_⟩, rfl⟩
  rw [hkey, hsplit]
  rfl

theorem orElse_eq_ok {β : Type} {x : Option β} {m : String} {b : β} : orElse x m = .ok b ↔ x = some b := by
  cases x with
  | none => simp [orElse]
  | some a => simp [orElse]

theorem mapError_eq_ok {β ε ε' : Type} {x : Except ε β} {f : ε → ε'} {b : β} : x.mapError f = .ok b ↔ x = .ok b := by
  cases x with
  | error e => simp [Except.mapError]
  | ok a => simp [Except.mapError]

theorem bind_eq_ok {β γ : Type} {x : Except Unread β} {f : β → Except Unread γ} {c : γ} :
    (x >>= f) = .ok c ↔ ∃ b, x = .ok b ∧ f b = .ok c := by
  cases x with
  | error e => simp [bind, Except.bind]
  | ok a => simp [bind, Except.bind]

section Applied

variable [BEq ρ] {T : Toml ρ} {S : Sections ρ}

theorem applyOne_eq_ok {before : List (String × String)} {w w' : Applying ρ} {change : String × String}
    (h : applyOne T before w change = .ok w') : ∃ th ∈ thresholds, th.key = change.1 ∧ ∃ p v u,
      splitKey change.1 = some p ∧ w.table.get p.1 = some (.table u) ∧ w'.table = w.table.put p.1 p.2 v ∧
        w'.values = w.values ++ [(change.1, v)] := by
  obtain ⟨th, hth, h⟩ := bind_eq_ok.mp h
  obtain ⟨v, -, h⟩ := bind_eq_ok.mp h
  obtain ⟨⟨s, l⟩, hp, h⟩ := bind_eq_ok.mp h
  have hth := orElse_eq_ok.mp hth
  refine ⟨th, List.mem_of_find?_eq_some hth, by simpa using List.find?_some hth, (s, l), v, ?_⟩
  dsimp only at h
  split at h
  · rename_i u hu
    cases h
    exact ⟨u, orElse_eq_ok.mp hp, hu, by rw [put, tableAt_of_get hu], rfl⟩
  · cases h

theorem applyOne_of {w : Applying ρ} {c : String × String} {th : Threshold} {v : Leaf ρ} {p : String × String}
    {u : Table ρ} (before : List (String × String)) (hth : find c.1 = some th) (hv : parse th c.2 = .ok v)
    (hp : splitKey c.1 = some p) (hu : w.table.get p.1 = some (.table u)) :
    ∃ w', applyOne T before w c = .ok w' ∧ w'.table = w.table.put p.1 p.2 v ∧
      w'.values = w.values ++ [(c.1, v)] := by
  obtain ⟨key, text⟩ := c
  obtain ⟨s, l⟩ := p
  dsimp only at hth hv hp hu
  simp [applyOne, orElse, hth, hv, hp, hu, bind, Except.bind, put, tableAt_of_get hu]

theorem applyAll_eq_ok {before : List (String × String)} {changes : List (String × String)} {w w' : Applying ρ}
    (h : changes.foldlM (applyOne T before) w = .ok w') :
    (∀ key ∈ changes.map Prod.fst, ∃ th ∈ thresholds, th.key = key) ∧ ∃ vs, w'.values = w.values ++ vs ∧
      vs.map Prod.fst = changes.map Prod.fst ∧ w'.table = w.table.puts (edits vs) ∧
        ∀ s ∈ (edits vs).map fun e => e.1.1, ∃ u, w.table.get s = some (.table u) := by
  induction changes generalizing w with
  | nil =>
    cases h
    exact ⟨by simp, [], by simp [edits]⟩
  | cons c changes ih =>
    rw [List.foldlM_cons] at h
    obtain ⟨w₁, h₁, h⟩ := bind_eq_ok.mp h
    obtain ⟨th, hmem, hkey, ⟨s, l⟩, v, u, hp, hu, htable, hvalues⟩ := applyOne_eq_ok h₁
    obtain ⟨hkeys, vs, hvs, hmap, ht, hsecs⟩ := ih h
    have hcons : edits ((c.1, v) :: vs) = ((s, l), v) :: edits vs := by simp [edits, hp]
    refine ⟨?_, (c.1, v) :: vs, ?_, by rw [List.map_cons, List.map_cons, hmap], ?_, ?_⟩
    · rw [List.map_cons, List.forall_mem_cons]
      exact ⟨⟨th, hmem, hkey⟩, hkeys⟩
    · rw [hvs, hvalues, List.append_assoc, List.singleton_append]
    · rw [ht, htable, hcons, puts_cons]
    · rw [hcons, List.map_cons, List.forall_mem_cons]
      refine ⟨⟨u, hu⟩, fun s' hs' => ?_⟩
      obtain ⟨u', hu'⟩ := hsecs s' hs'
      rw [htable, get_put] at hu'
      split at hu'
      · rename_i hs
        exact hs ▸ ⟨u, hu⟩
      · exact ⟨u', hu'⟩

/-- **A change that is accepted** is of thresholds, each in a section the configuration has, and what comes of it is
the configuration with the values put in, read and validated. -/
theorem apply_eq_ok {cfg : Table ρ} {changes : List (String × String)} {change : Change ρ}
    (h : apply T S cfg changes = .ok change) :
    (∀ key ∈ changes.map Prod.fst, ∃ th ∈ thresholds, th.key = key) ∧
      change.values.map Prod.fst = changes.map Prod.fst ∧
        (∀ s ∈ (edits change.values).map fun e => e.1.1, ∃ u, cfg.get s = some (.table u)) ∧
          (config S).readTable (cfg.puts (edits change.values)) = some change.config ∧
            S.validate change.config = .ok () := by
  obtain ⟨t, ht, h⟩ := bind_eq_ok.mp h
  obtain ⟨w, hw, h⟩ := bind_eq_ok.mp h
  obtain ⟨c, hc, h⟩ := bind_eq_ok.mp h
  obtain ⟨_, hv, h⟩ := bind_eq_ok.mp h
  cases h
  obtain rfl : t = cfg := by
    rw [table] at ht
    split at ht
    · cases ht
      rfl
    · cases ht
  obtain ⟨hkeys, vs, hvs, hmap, htable, hsecs⟩ := applyAll_eq_ok hw
  rw [List.nil_append] at hvs
  rw [htable] at hc
  dsimp only
  rw [hvs]
  exact ⟨hkeys, hmap, hsecs, orElse_eq_ok.mp hc, mapError_eq_ok.mp hv⟩

end Applied

end Thresholds
end MobiusSearcher
