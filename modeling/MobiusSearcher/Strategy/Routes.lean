/-
# The routes of a configuration, and their turns

From `[[tokens]]` and `[[strategies]]` to what the scanner asks for: the token
registry (`crates/core/src/token.rs`), the checks on the strategies
(`Config::validate`), the cycles of the three strategies
(`crates/strategy/src/strategies.rs`) and `build_strategies`
(`apps/mobius-searcher/src/engine.rs`), over the scheduler of
`Strategy/Scheduler.lean`.

A checked configuration builds. Each of its routes begins and ends at SOL, every
leg goes on from the one before, and of the scheduler's turns each route has
exactly its strategy's share, split evenly over the strategy's routes.

Key definitions: `Registry.get`, `validateStrategies`, `buildStrategies`,
`Plan.Closed`.
Key theorems: `Scheduler.handed_round`, `routes_take_turns`.
-/
import MobiusSearcher.Lib.Rotation
import MobiusSearcher.Router.Core
import MobiusSearcher.Strategy.Scheduler

namespace MobiusSearcher

/-! ### The turns of a run -/

section Turns

variable {Plan : Type*}

namespace Scheduler

variable [DecidableEq Plan]

/-- One entry gives the cycle of a turn. -/
theorem handed_eq_sum {s : Scheduler Plan} (hne : s.entries ≠ []) (p : Plan) (t : ℕ) :
    (if s.handed t = some p then 1 else 0) = ∑ i ∈ Finset.range s.entries.length,
      if Rotation.shows (s.turnOf i) (s.plansOf i) (s.cursorOf i) p t then 1 else 0 := by
  obtain ⟨i, hi⟩ := pick_isSome (entries_after hne t)
  have hmem : i ∈ Finset.range s.entries.length := by
    rw [Finset.mem_range, ← after_length s t]
    exact (pick_spec hi).1
  have hturn : s.turnOf i t := hi
  rw [Finset.sum_eq_single_of_mem i hmem]
  · simp [Rotation.shows, hturn, handed_eq hne hturn]
  · intro j _ hj
    have hother : ¬ s.turnOf j t := fun h => hj (Option.some.inj (h.symm.trans hi))
    simp [Rotation.shows, hother]

omit [DecidableEq Plan] in
theorem count_turnOf (s : Scheduler Plan) (i k m : ℕ) :
    Nat.count (s.turnOf i) (k + m) = Nat.count (s.turnOf i) k + (s.picks k m).count (some i) := by
  induction m with
  | zero => simp [picks]
  | succ m ih =>
    have hpicks : s.picks k (m + 1) = s.picks k m ++ [(s.after (k + m)).pick] := by simp [picks, List.range_succ]
    rw [← Nat.add_assoc, Nat.count_succ, ih, hpicks, List.count_append, List.count_singleton, Nat.add_assoc]
    by_cases hturn : (s.after (k + m)).pick = some i
    · simp [turnOf, hturn]
    · simp [turnOf, hturn]

omit [DecidableEq Plan] in
theorem rounds_turns {strategies : List (Strategy Plan)} (hne : (new strategies).entries ≠ []) (k : ℕ) {i : ℕ}
    (hi : i < (new strategies).entries.length) (n : ℕ) :
    Nat.count ((new strategies).turnOf i) (k + (new strategies).weights.sum * n) =
      Nat.count ((new strategies).turnOf i) k + (new strategies).weights.getD i 0 * n := by
  induction n with
  | zero => rw [Nat.mul_zero, Nat.mul_zero, Nat.add_zero, Nat.add_zero]
  | succ n ih =>
    rw [Nat.mul_succ, ← Nat.add_assoc, count_turnOf, ih, (round_turns hne _).1 i hi]
    ring

/-- **Every cycle has its share of the turns.** Rounds that take each strategy round its cycles a whole number of times
give a cycle, for each place a strategy has it at, the strategy's weight as often as the strategy came round. -/
theorem handed_round (strategies : List (Strategy Plan)) (k : ℕ) {n : ℕ}
    (hn : ∀ e ∈ (new strategies).entries, e.1.plans ≠ [] → e.1.plans.length ∣ n) (p : Plan) :
    (List.range ((new strategies).weights.sum * n)).countP (fun t => (new strategies).handed (k + t) = some p) =
      ((new strategies).entries.map fun e =>
        e.1.plans.count p * (e.1.weight.toNat * (n / e.1.plans.length))).sum := by
  by_cases hne : (new strategies).entries = []
  · simp [hne, weights]
  have hentry : ∀ i ∈ Finset.range (new strategies).entries.length,
      (List.range ((new strategies).weights.sum * n)).countP (fun t =>
        Rotation.shows ((new strategies).turnOf i) ((new strategies).plansOf i) ((new strategies).cursorOf i) p (k + t)) =
      ((new strategies).entries.map fun e =>
        e.1.plans.count p * (e.1.weight.toNat * (n / e.1.plans.length))).getD i 0 := by
    intro i hi
    have hlt := Finset.mem_range.mp hi
    have hplans : (new strategies).plansOf i = (new strategies).entries[i].1.plans := by simp [plansOf, hlt]
    rw [List.getD_eq_getElem?_getD, List.getElem?_map, List.getElem?_eq_getElem hlt, Option.map_some, Option.getD_some]
    by_cases hempty : (new strategies).entries[i].1.plans = []
    · simp [Rotation.shows, hplans, hempty]
    · have hdvd := hn _ (List.getElem_mem hlt) hempty
      rw [Rotation.shows_round (q := (new strategies).entries[i].1.weight.toNat *
        (n / (new strategies).entries[i].1.plans.length)), hplans]
      rw [rounds_turns hne k hlt, hplans, Nat.mul_left_comm, Nat.mul_div_cancel' hdvd]
      simp [weights, hlt]
  have hsum := sum_getD ((new strategies).entries.map fun e =>
    e.1.plans.count p * (e.1.weight.toNat * (n / e.1.plans.length)))
  rw [← hsum, List.length_map, Rotation.countP_range]
  simp only [decide_eq_true_eq, handed_eq_sum hne]
  rw [Finset.sum_comm]
  exact Finset.sum_congr rfl fun i hi => by rw [← Rotation.countP_range, hentry i hi]

end Scheduler

end Turns

/-! ### Tokens -/

structure Token where
  symbol : String
  mint : Address
  deriving DecidableEq, Repr

/-- The tokens by symbol, the last inserted first. -/
structure Registry where
  bySymbol : List Token
  deriving Repr

namespace Registry

def insert (r : Registry) (t : Token) : Registry := ⟨t :: r.bySymbol⟩

/-- The one inserted last of a symbol's. -/
def get (r : Registry) (symbol : String) : Option Token := r.bySymbol.find? (·.symbol = symbol)

/-- The number a base58 text spells. -/
def addr (text : String) : Address :=
  ⟨text.toList.foldl (fun n c =>
    n * 58 + "123456789ABCDEFGHJKLMNPQRSTUVWXYZabcdefghijkmnopqrstuvwxyz".toList.idxOf c) 0⟩

/-- SOL, USDC, USDT, JUP. Config may add more. -/
def defaults : Registry :=
  (((Registry.mk []).insert ⟨"SOL", addr "So11111111111111111111111111111111111111112"⟩
    |>.insert ⟨"USDC", addr "EPjFWdd5AufqSSqeM2qN1xzybapC8G4wEGGkZwyTDt1v"⟩)
    |>.insert ⟨"USDT", addr "Es9vMFrzaCERmJfrF4H2FYD4KCoNkY11McCe8BenwNYB"⟩)
    |>.insert ⟨"JUP", addr "JUPyiwrYJFskUPiHa7hkeR8VUtAeFoSYbKedZNsDvCN"⟩

theorem get_insert (r : Registry) (t : Token) (symbol : String) :
    (r.insert t).get symbol = if t.symbol = symbol then some t else r.get symbol := by
  rw [get, insert, List.find?_cons]
  split <;> simp_all [get]

/-- A symbol is never taken out of the registry. -/
theorem get_insert_isSome {r : Registry} {symbol : String} (h : (r.get symbol).isSome) (t : Token) :
    ((r.insert t).get symbol).isSome := by
  rw [get_insert]
  split
  · rfl
  · exact h

end Registry

/-! ### Cycles -/

namespace Routes

open Router (LegSpec CandidatePlan DexFilter RoutingMode)

inductive StrategyKind
  | roundTrip
  | crossDex
  | triangular
  deriving DecidableEq, Repr

/-- A cycle to evaluate, with its stable identity over time. -/
structure Plan extends CandidatePlan where
  strategy : StrategyKind
  key : String
  label : String
  baseMint : Address
  deriving DecidableEq, Repr

/-- Pairs ("SOL/USDC") liquid enough for `mode=fast`. -/
structure FastPairs where
  pairs : List String
  deriving Repr

def FastPairs.mode (f : FastPairs) (a b : Token) : RoutingMode :=
  if f.pairs.any fun p => p = s!"{a.symbol}/{b.symbol}" || p = s!"{b.symbol}/{a.symbol}" then .fast else .normal

structure RoundTrip where
  base : Token
  quote : Token
  amount : ℕ
  fast : FastPairs
  maxAccounts : Option ℕ

def RoundTrip.plan (s : RoundTrip) : Plan :=
  let mode := s.fast.mode s.base s.quote
  { strategy := .roundTrip
    key := s!"rt:{s.base.symbol}:{s.quote.symbol}:{s.amount}"
    label := s!"{s.base.symbol}→{s.quote.symbol}→{s.base.symbol}"
    baseMint := s.base.mint
    amount := s.amount
    legs := [⟨s.base.mint, s.quote.mint, .any, mode, s.maxAccounts⟩,
      ⟨s.quote.mint, s.base.mint, .any, mode, s.maxAccounts⟩] }

/-- Buy on one DEX, sell on another. -/
structure CrossDex where
  base : Token
  quote : Token
  amount : ℕ
  dexes : List String
  fast : FastPairs
  maxAccounts : Option ℕ

def CrossDex.planFor (s : CrossDex) (a b : String) : Plan :=
  let mode := s.fast.mode s.base s.quote
  { strategy := .crossDex
    key := s!"xd:{s.base.symbol}:{s.quote.symbol}:{a}>{b}:{s.amount}"
    label := s!"{a} → {b}"
    baseMint := s.base.mint
    amount := s.amount
    legs := [⟨s.base.mint, s.quote.mint, .only [a], mode, s.maxAccounts⟩,
      ⟨s.quote.mint, s.base.mint, .only [b], mode, s.maxAccounts⟩] }

/-- Cycle through tokens starting and ending at the base. -/
structure Triangular where
  cycle : List Token
  amount : ℕ
  fast : FastPairs
  maxAccounts : Option ℕ

/-- The symbols of the cycle, closed back to the first. -/
def Triangular.label (cycle : List Token) : String :=
  "→".intercalate (cycle.map (·.symbol) ++ (cycle.head?.map (·.symbol)).toList)

/-- The legs from each token to the next, the last to the first. -/
def Triangular.legs (s : Triangular) (cycle : List Token) : List LegSpec :=
  cycle.zipWith (fun a b => ⟨a.mint, b.mint, .any, s.fast.mode a b, s.maxAccounts⟩) (cycle.rotate 1)

def Triangular.plan (s : Triangular) (cycle : List Token) : Plan :=
  { strategy := .triangular
    key := s!"tri:{Triangular.label cycle}:{s.amount}"
    label := Triangular.label cycle
    baseMint := (cycle.head?.map (·.mint)).getD ⟨0⟩
    amount := s.amount
    legs := s.legs cycle }

/-! ### The configuration -/

structure RoundTripConfig where
  enabled : Bool := true
  base : String := "SOL"
  quote : String := "USDC"
  amountLamports : ℕ := 1000000000
  weight : UInt32 := 1
  maxAccounts : Option ℕ := some 30
  deriving Repr

structure CrossDexConfig where
  enabled : Bool := true
  base : String := "SOL"
  quote : String := "USDC"
  amountLamports : ℕ := 1000000000
  dexes : List String := ["Raydium CLMM", "Whirlpool", "Meteora DLMM", "HumidiFi"]
  weight : UInt32 := 3
  maxAccounts : Option ℕ := some 30
  deriving Repr

structure TriangularConfig where
  enabled : Bool := true
  /-- Token symbols; the cycle closes back to the first (must be SOL). -/
  cycle : List String := ["SOL", "USDC", "JUP"]
  amountLamports : ℕ := 1000000000
  weight : UInt32 := 1
  maxAccounts : Option ℕ := some 20
  deriving Repr

/-- What the scanner's routes are built from. -/
structure Config where
  /-- `[[tokens]]`. -/
  extra : List Token := []
  fastModePairs : List String := ["SOL/USDC", "USDC/SOL"]
  roundTrip : List RoundTripConfig := [{}]
  crossDex : List CrossDexConfig := [{}]
  triangular : List TriangularConfig := [{}]
  deriving Repr

def Config.tokens (c : Config) : Registry := c.extra.foldl Registry.insert Registry.defaults

def needSolBase (base what : String) : Except String Unit :=
  if base ≠ "SOL" then .error s!"{what}: base must be SOL (fees are paid in SOL; PnL is in lamports)" else .ok ()

def needToken (tokens : Registry) (sym what : String) : Except String Unit :=
  if (tokens.get sym).isNone then .error s!"{what}: unknown token `{sym}` (add it under [[tokens]])" else .ok ()

def needAmount (amount : ℕ) (what : String) : Except String Unit :=
  if amount = 0 then .error s!"{what}: amount_lamports must be > 0" else .ok ()

def RoundTripConfig.check (tokens : Registry) (s : RoundTripConfig) (what : String) : Except String Unit := do
  needSolBase s.base what
  needToken tokens s.quote what
  needAmount s.amountLamports what

def CrossDexConfig.check (tokens : Registry) (s : CrossDexConfig) (what : String) : Except String Unit := do
  needSolBase s.base what
  needToken tokens s.quote what
  if s.enabled ∧ s.dexes.length < 2 then .error s!"{what}: needs at least two dexes"
  needAmount s.amountLamports what

def TriangularConfig.check (tokens : Registry) (s : TriangularConfig) (what : String) : Except String Unit := do
  if s.cycle.length < 3 then .error s!"{what}: cycle needs ≥ 3 tokens"
  needSolBase (s.cycle.headD "") what
  s.cycle.forM fun t => needToken tokens t what
  needAmount s.amountLamports what

/-- Each entry of a section, under its name and place. -/
def eachOf {σ : Type*} (check : σ → String → Except String Unit) (name : String) (entries : List σ) :
    Except String Unit :=
  entries.zipIdx.forM fun e => check e.1 s!"strategies.{name}[{e.2}]"

/-- The checks of `validate` on the strategies. -/
def validateStrategies (c : Config) : Except String Unit := do
  eachOf (RoundTripConfig.check c.tokens) "round_trip" c.roundTrip
  eachOf (CrossDexConfig.check c.tokens) "cross_dex" c.crossDex
  eachOf (TriangularConfig.check c.tokens) "triangular" c.triangular

def tok (tokens : Registry) (s : String) : Except String Token :=
  (tokens.get s).elim (.error s!"unknown token {s}") .ok

def RoundTripConfig.build (tokens : Registry) (fast : FastPairs) (s : RoundTripConfig) :
    Except String (Strategy Plan) := do
  let base ← tok tokens s.base
  let quote ← tok tokens s.quote
  return .roundTrip s.weight (RoundTrip.plan ⟨base, quote, s.amountLamports, fast, s.maxAccounts⟩)

def CrossDexConfig.build (tokens : Registry) (fast : FastPairs) (s : CrossDexConfig) :
    Except String (Strategy Plan) := do
  let base ← tok tokens s.base
  let quote ← tok tokens s.quote
  return .crossDex s.weight s.dexes (CrossDex.planFor ⟨base, quote, s.amountLamports, s.dexes, fast, s.maxAccounts⟩)

def TriangularConfig.build (tokens : Registry) (fast : FastPairs) (s : TriangularConfig) :
    Except String (Strategy Plan) := do
  let cycle ← s.cycle.mapM (tok tokens)
  return .triangular s.weight cycle (Triangular.plan ⟨cycle, s.amountLamports, fast, s.maxAccounts⟩)

def buildStrategies (c : Config) : Except String (List (Strategy Plan)) := do
  let fast : FastPairs := ⟨c.fastModePairs⟩
  let rt ← (c.roundTrip.filter (·.enabled)).mapM (RoundTripConfig.build c.tokens fast)
  let xd ← (c.crossDex.filter (·.enabled)).mapM (CrossDexConfig.build c.tokens fast)
  let tri ← (c.triangular.filter (·.enabled)).mapM (TriangularConfig.build c.tokens fast)
  return rt ++ xd ++ tri

/-! ### What a check promises -/

/-- The cycle starts with `base` and ends with it, each leg sells what the one before bought, and a cross-dex cycle
sells on another dex than it buys on. -/
structure Plan.Closed (base : Address) (p : Plan) : Prop where
  baseMint : p.baseMint = base
  amount : 0 < p.amount
  start : p.legs.head?.map (·.input) = some base
  goes_on : p.legs.IsChain fun a b => a.output = b.input
  finish : p.legs.getLast?.map (·.output) = some base
  dexes : p.strategy = .crossDex → ∃ a b, a ≠ b ∧ p.legs.map (·.dexFilter) = [.only [a], .only [b]]

theorem then_ok {β : Type} {x : Except String Unit} {f : Unit → Except String β} {b : β} (h : (x >>= f) = .ok b) :
    x = .ok () ∧ f () = .ok b := by
  cases x with
  | error e => cases h
  | ok u => exact ⟨rfl, h⟩

theorem forM_ok {σ : Type} {f : σ → Except String Unit} : ∀ {l : List σ}, l.forM f = .ok () → ∀ a ∈ l, f a = .ok ()
  | [], _, _, ha => by cases ha
  | b :: l, h, a, ha => by
    obtain ⟨hb, hl⟩ : f b = .ok () ∧ l.forM f = .ok () := then_ok h
    rcases List.mem_cons.mp ha with rfl | ha
    · exact hb
    · exact forM_ok hl a ha

theorem mapM_ok {σ β : Type} {f : σ → Except String β} : ∀ {l : List σ}, (∀ a ∈ l, ∃ b, f a = .ok b) →
    ∃ bs, l.mapM f = .ok bs ∧ List.Forall₂ (fun a b => f a = .ok b) l bs
  | [], _ => ⟨[], rfl, .nil⟩
  | a :: l, h => by
    obtain ⟨b, hb⟩ := h a List.mem_cons_self
    obtain ⟨bs, hbs, hall⟩ := mapM_ok fun c hc => h c (List.mem_cons_of_mem _ hc)
    refine ⟨b :: bs, ?_, .cons hb hall⟩
    rw [List.mapM_cons, hb, hbs]
    rfl

/-- Entries that build, each to what is fine, build to what is fine. -/
theorem mapM_all {σ β : Type} {f : σ → Except String β} {P : β → Prop} {l : List σ}
    (h : ∀ a ∈ l, ∃ b, f a = .ok b ∧ P b) : ∃ bs, l.mapM f = .ok bs ∧ ∀ b ∈ bs, P b := by
  obtain ⟨bs, hbs, hall⟩ := mapM_ok fun a ha => (h a ha).imp fun _ hb => hb.1
  refine ⟨bs, hbs, fun b hb => ?_⟩
  obtain ⟨i, hi, rfl⟩ := List.mem_iff_getElem.mp hb
  have hlt : i < l.length := hall.length_eq ▸ hi
  obtain ⟨b', hb', hP⟩ := h l[i] (List.getElem_mem hlt)
  have heq : bs[i] = b' := Except.ok.inj (((List.forall₂_iff_get.mp hall).2 i hlt hi).symm.trans hb')
  rwa [heq]

theorem eachOf_ok {σ : Type} {check : σ → String → Except String Unit} {name : String} {entries : List σ}
    (h : eachOf check name entries = .ok ()) {s : σ} (hs : s ∈ entries) : ∃ what, check s what = .ok () := by
  obtain ⟨i, hi⟩ := List.mem_iff_getElem?.mp hs
  exact ⟨_, forM_ok h (s, i) (List.mem_zipIdx_iff_getElem?.mpr hi)⟩

theorem needSolBase_ok {base what : String} (h : needSolBase base what = .ok ()) : base = "SOL" := by
  unfold needSolBase at h
  split at h
  · cases h
  · rename_i hbase
    exact not_not.mp hbase

theorem needToken_ok {tokens : Registry} {sym what : String} (h : needToken tokens sym what = .ok ()) :
    ∃ t, tokens.get sym = some t := by
  unfold needToken at h
  split at h
  · cases h
  · rename_i hsome
    rwa [Option.isNone_iff_eq_none, ← ne_eq, Option.ne_none_iff_exists'] at hsome

theorem needAmount_ok {amount : ℕ} {what : String} (h : needAmount amount what = .ok ()) : 0 < amount := by
  unfold needAmount at h
  split at h
  · cases h
  · omega

/-- The symbol SOL always has a token, whatever the configuration adds. -/
theorem tokens_sol (c : Config) : ∃ sol, c.tokens.get "SOL" = some sol := by
  rw [← Option.isSome_iff_exists, Config.tokens]
  have hdefaults : (Registry.defaults.get "SOL").isSome := rfl
  generalize Registry.defaults = r at hdefaults
  induction c.extra generalizing r with
  | nil => exact hdefaults
  | cons t extra ih => exact ih _ (Registry.get_insert_isSome hdefaults t)

theorem tok_ok {tokens : Registry} {s : String} {t : Token} (h : tokens.get s = some t) : tok tokens s = .ok t := by
  rw [tok, h, Option.elim_some]

/-- There and back. -/
theorem closed_pair {p : Plan} {base quote : Address} {first last : DexFilter} {mode : RoutingMode}
    {accounts : Option ℕ} (hlegs : p.legs = [⟨base, quote, first, mode, accounts⟩, ⟨quote, base, last, mode, accounts⟩])
    (hbase : p.baseMint = base) (hamount : 0 < p.amount)
    (hdexes : p.strategy = .crossDex → ∃ a b, a ≠ b ∧ first = .only [a] ∧ last = .only [b]) : p.Closed base where
  baseMint := hbase
  amount := hamount
  start := by rw [hlegs]; rfl
  goes_on := by rw [hlegs]; exact .cons_cons rfl (.singleton _)
  finish := by rw [hlegs]; rfl
  dexes hxd := by
    obtain ⟨a, b, hab, rfl, rfl⟩ := hdexes hxd
    exact ⟨a, b, hab, by rw [hlegs]; rfl⟩

theorem RoundTripConfig.build_closed {tokens : Registry} {sol : Token} (hsol : tokens.get "SOL" = some sol)
    {s : RoundTripConfig} {what : String} (h : s.check tokens what = .ok ()) (fast : FastPairs) :
    ∃ st, s.build tokens fast = .ok st ∧ ∀ p ∈ st.plans, p.Closed sol.mint := by
  obtain ⟨hbase, h⟩ := then_ok h
  obtain ⟨hquote, hamount⟩ := then_ok h
  obtain ⟨quote, hquote⟩ := needToken_ok hquote
  rw [RoundTripConfig.build, needSolBase_ok hbase, tok_ok hsol, tok_ok hquote]
  refine ⟨_, rfl, fun p hp => ?_⟩
  obtain rfl := List.mem_singleton.mp hp
  exact closed_pair rfl rfl (needAmount_ok hamount) (fun hxd => by cases hxd)

theorem CrossDexConfig.build_closed {tokens : Registry} {sol : Token} (hsol : tokens.get "SOL" = some sol)
    {s : CrossDexConfig} {what : String} (h : s.check tokens what = .ok ()) (fast : FastPairs) :
    ∃ st, s.build tokens fast = .ok st ∧ ∀ p ∈ st.plans, p.Closed sol.mint := by
  obtain ⟨hbase, h⟩ := then_ok h
  obtain ⟨hquote, h⟩ := then_ok h
  obtain ⟨quote, hquote⟩ := needToken_ok hquote
  have hamount : needAmount s.amountLamports what = .ok () := by
    split at h
    · cases h
    · exact h
  rw [CrossDexConfig.build, needSolBase_ok hbase, tok_ok hsol, tok_ok hquote]
  refine ⟨_, rfl, fun p hp => ?_⟩
  obtain ⟨⟨a, b⟩, hab, rfl⟩ := List.mem_map.mp hp
  obtain ⟨a', -, hb⟩ := List.mem_flatMap.mp hab
  obtain ⟨b', hb', heq⟩ := List.mem_map.mp hb
  obtain ⟨rfl, rfl⟩ := Prod.mk.inj heq
  exact closed_pair rfl rfl (needAmount_ok hamount)
    fun _ => ⟨_, _, of_decide_eq_true (List.mem_filter.mp hb').2, rfl, rfl⟩

/-- The legs from `a` through `l` to `b`. -/
theorem legs_go {leg : Token → Token → LegSpec} (hin : ∀ a b, (leg a b).input = a.mint)
    (hout : ∀ a b, (leg a b).output = b.mint) (b : Token) : ∀ (l : List Token) (a : Token),
    ((a :: l).zipWith leg (l ++ [b])).head?.map (·.input) = some a.mint ∧
      ((a :: l).zipWith leg (l ++ [b])).IsChain (fun x y => x.output = y.input) ∧
      ((a :: l).zipWith leg (l ++ [b])).getLast?.map (·.output) = some b.mint
  | [], a => by simp [hin, hout]
  | c :: l, a => by
    obtain ⟨hhead, hchain, hlast⟩ := legs_go hin hout b l c
    rw [List.cons_append, List.zipWith_cons_cons]
    refine ⟨by simp [hin], ?_, ?_⟩
    · refine List.isChain_cons.mpr ⟨fun y hy => ?_, hchain⟩
      rw [hout]
      rw [hy, Option.map_some] at hhead
      exact (Option.some.inj hhead).symm
    · rw [List.getLast?_cons_of_ne_nil]
      · exact hlast
      · simp

/-- A cycle of SOL's symbol begins with its token. -/
theorem starts_sol {tokens : Registry} {sol : Token} (hsol : tokens.get "SOL" = some sol) {symbols : List String}
    {cycle : List Token} (h : List.Forall₂ (fun s t => tok tokens s = .ok t) symbols cycle)
    (hhead : symbols.headD "" = "SOL") : ∃ l, cycle = sol :: l := by
  cases h with
  | nil => exact absurd hhead (by decide)
  | cons ht _ =>
    rw [List.headD_cons] at hhead
    rw [hhead, tok_ok hsol] at ht
    exact ⟨_, by rw [Except.ok.inj ht]⟩

theorem TriangularConfig.build_closed {tokens : Registry} {sol : Token} (hsol : tokens.get "SOL" = some sol)
    {s : TriangularConfig} {what : String} (h : s.check tokens what = .ok ()) (fast : FastPairs) :
    ∃ st, s.build tokens fast = .ok st ∧ ∀ p ∈ st.plans, p.Closed sol.mint := by
  have hlong : ¬ s.cycle.length < 3 := fun hshort => by
    rw [TriangularConfig.check, if_pos hshort] at h
    cases h
  rw [TriangularConfig.check, if_neg hlong] at h
  obtain ⟨hbase, h⟩ := then_ok h
  obtain ⟨hall, hamount⟩ := then_ok h
  have htok : ∀ t ∈ s.cycle, ∃ token, tok tokens t = .ok token := fun t ht =>
    (needToken_ok (forM_ok hall t ht)).imp fun _ => tok_ok
  obtain ⟨cycle, hcycle, hforall⟩ := mapM_ok htok
  rw [TriangularConfig.build, hcycle]
  refine ⟨_, rfl, fun p hp => ?_⟩
  have hlen : ¬ cycle.length < 3 := by rwa [← hforall.length_eq]
  rw [Strategy.triangular, if_neg hlen] at hp
  obtain rfl := List.mem_singleton.mp hp
  obtain ⟨l, rfl⟩ := starts_sol hsol hforall (needSolBase_ok hbase)
  have hlegs := @legs_go (fun a b => ⟨a.mint, b.mint, .any, fast.mode a b, s.maxAccounts⟩) (fun _ _ => rfl)
    (fun _ _ => rfl) sol l sol
  have hrotate : (sol :: l).rotate 1 = l ++ [sol] := by rw [List.rotate_cons_succ, List.rotate_zero]
  exact {
    baseMint := rfl
    amount := needAmount_ok hamount
    start := by rw [Triangular.plan, Triangular.legs, hrotate]; exact hlegs.1
    goes_on := by rw [Triangular.plan, Triangular.legs, hrotate]; exact hlegs.2.1
    finish := by rw [Triangular.plan, Triangular.legs, hrotate]; exact hlegs.2.2
    dexes := fun hxd => by cases hxd }

/-- **A checked configuration builds, to closed cycles that each get their share.** Whatever cycles its strategies
have, each starts and ends at SOL and goes on from leg to leg; and of the scheduler's turns, from any one on, each gets
its strategy's weight, split evenly over the strategy's cycles. -/
theorem routes_take_turns (c : Config) (h : validateStrategies c = .ok ()) :
    ∃ strategies sol, buildStrategies c = .ok strategies ∧ c.tokens.get "SOL" = some sol ∧
      (∀ s ∈ strategies, ∀ p ∈ s.plans, p.Closed sol.mint) ∧
      ∀ k n p, (∀ e ∈ (Scheduler.new strategies).entries, e.1.plans ≠ [] → e.1.plans.length ∣ n) →
        (List.range ((Scheduler.new strategies).weights.sum * n)).countP
            (fun t => (Scheduler.new strategies).handed (k + t) = some p) =
          ((Scheduler.new strategies).entries.map fun e =>
            e.1.plans.count p * (e.1.weight.toNat * (n / e.1.plans.length))).sum := by
  obtain ⟨sol, hsol⟩ := tokens_sol c
  obtain ⟨hrt, h⟩ := then_ok h
  obtain ⟨hxd, htri⟩ := then_ok h
  obtain ⟨rt, hrt, hrtc⟩ := mapM_all (f := RoundTripConfig.build c.tokens ⟨c.fastModePairs⟩) fun s hs =>
    (eachOf_ok hrt (List.mem_of_mem_filter hs)).elim fun _ h => RoundTripConfig.build_closed hsol h _
  obtain ⟨xd, hxd, hxdc⟩ := mapM_all (f := CrossDexConfig.build c.tokens ⟨c.fastModePairs⟩) fun s hs =>
    (eachOf_ok hxd (List.mem_of_mem_filter hs)).elim fun _ h => CrossDexConfig.build_closed hsol h _
  obtain ⟨tri, htri, htric⟩ := mapM_all (f := TriangularConfig.build c.tokens ⟨c.fastModePairs⟩) fun s hs =>
    (eachOf_ok htri (List.mem_of_mem_filter hs)).elim fun _ h => TriangularConfig.build_closed hsol h _
  refine ⟨rt ++ xd ++ tri, sol, ?_, hsol, ?_, fun k n p hn => Scheduler.handed_round _ k hn p⟩
  · rw [buildStrategies, hrt, hxd, htri]
    rfl
  · intro s hs
    rcases List.mem_append.mp hs with hs | hs
    · rcases List.mem_append.mp hs with hs | hs
      · exact hrtc s hs
      · exact hxdc s hs
    · exact htric s hs

/-- What the default configuration builds. -/
def built : List (Strategy Plan) := (buildStrategies {}).toOption.getD []

/-- Bought on Raydium's pools, sold on Orca's. -/
def rayOrca : Plan := (((built.flatMap (·.plans))[1]?).getD ⟨⟨0, []⟩, .roundTrip, "", "", ⟨0⟩⟩)

/-- With weights of 1, 3 and 1 and twelve pairs of dexes a pair comes three times in sixty turns. -/
theorem routes_take_turns_default :
    (validateStrategies {} = .ok () ∧ rayOrca.key = "xd:SOL:USDC:Raydium CLMM>Whirlpool:1000000000") ∧
      ∀ k, (List.range 60).countP (fun t => (Scheduler.new built).handed (k + t) = some rayOrca) = 3 := by
  obtain ⟨strategies, sol, hbuild, -, -, hturns⟩ := routes_take_turns {} rfl
  have hbuilt : strategies = built := by rw [built, hbuild]; rfl
  subst hbuilt
  refine ⟨⟨rfl, rfl⟩, fun k => ?_⟩
  have hdvd : ∀ e ∈ (Scheduler.new built).entries, e.1.plans ≠ [] → e.1.plans.length ∣ 12 := by decide
  have hturns := hturns k 12 rayOrca hdvd
  have hsixty : (Scheduler.new built).weights.sum * 12 = 60 := by decide
  have hthree : ((Scheduler.new built).entries.map fun e =>
      e.1.plans.count rayOrca * (e.1.weight.toNat * (12 / e.1.plans.length))).sum = 3 := by decide +kernel
  rw [hsixty] at hturns
  exact hturns.trans hthree

end Routes
end MobiusSearcher
