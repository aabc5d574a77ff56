/-
# The paper account

`apps/mobius-searcher/src/lab/rules.rs`: the account of an experiment on paper
carries out what its rule wants, one closed bar at a time (`Account.fill`,
`step`).

Over every run what was bought is held or was sold once, no fill is of a lot
that is gone, and cash with what the lots cost is the capital with what the
trades made, but for the rounding of each fill (`paper_run`). A sale is not
refused when it costs more than it brings, and cash can then be negative.

Key definitions: `Costs`, `Filled`, `Account.fill`, `step`, `paperRun`, `Account.balance`.
Key theorems: `paper_run`, `sells_valid`, `Leads.balance`.
-/
import MobiusSearcher.Lab.Orders
import MobiusSearcher.Lib.Binary64

namespace MobiusSearcher
namespace Lab

open FloatOps

/-- What a trade costs. The fixed part does not shrink with the trade. -/
structure Costs (F : Type) where
  /-- Lost to the route, basis points of the trade, each side. -/
  routeBps : F
  /-- Network fee, priority fee and tip of one transaction, lamports. -/
  fixedFeeLamports : F

/-- What one order did, for the record. -/
structure Filled (F : Type) where
  buy : Bool
  usd : F
  sol : F
  costUsd : F

/-- A fill, and the account after it. -/
structure Entry (F : Type) where
  ts : ℤ
  filled : Filled F
  after : Account F

/-- One closed bar: the candles up to it, and the prices and the time of the fills. -/
structure Tick (F : Type) where
  bars : List (Bar F)
  ctx : Ctx F
  buyPrice : F
  sellPrice : F
  ts : ℤ

section Paper

variable {F : Type} [FloatOps F]

/-- Cost in USD of trading `usd` at `price` (USD per SOL). -/
def Costs.of (c : Costs F) (usd price : F) : F :=
  usd * c.routeBps / lit 10000 + c.fixedFeeLamports / lit (10 ^ 9) * price

def Account.new (capital : F) : Account F := { Account.empty with cash := capital }

variable (costs : Costs F)

/-- One sale; `none`: the lot is not there, and `remove` panics. -/
def Account.sellOne (a : Account F) (sellPrice : F) (ts : ℤ) (i : ℕ) : Option (Entry F) :=
  match a.lots[i]? with
  | none => none
  | some lot =>
    let gross := lot.sol * sellPrice
    let cost := costs.of gross sellPrice
    some ⟨ts, ⟨false, gross, lot.sol, cost⟩,
      { a with
        lots := a.lots.eraseIdx i
        cash := a.cash + (gross - cost)
        turnover := a.turnover + gross
        trades := a.trades ++ [⟨lot.opened, ts, lot.usd, gross - cost - lot.usd⟩] }⟩

/-- One buy; `none`: the fee alone is more than the order. -/
def Account.buyOne (a : Account F) (buyPrice : F) (ts : ℤ) (usd : F) : Option (Entry F) :=
  let usd := minimum usd a.cash
  let cost := costs.of usd buyPrice
  if le usd cost then none
  else
    let sol := (usd - cost) / buyPrice
    some ⟨ts, ⟨true, usd, sol, cost⟩,
      { a with
        cash := a.cash - usd
        turnover := a.turnover + usd
        lots := a.lots ++ [⟨usd / sol, sol, usd, ts⟩] }⟩

def Account.fillSells (sellPrice : F) (ts : ℤ) : List ℕ → Account F → Option (Account F × List (Entry F))
  | [], a => some (a, [])
  | i :: rest, a =>
    match a.sellOne costs sellPrice ts i with
    | none => none
    | some e => (fillSells sellPrice ts rest e.after).map fun r => (r.1, e :: r.2)

def Account.fillBuys (buyPrice : F) (ts : ℤ) : List (Order F) → Account F → Account F × List (Entry F)
  | [], a => (a, [])
  | .sell _ :: rest, a => fillBuys buyPrice ts rest a
  | .buy usd :: rest, a =>
    match a.buyOne costs buyPrice ts usd with
    | none => fillBuys buyPrice ts rest a
    | some e => ((fillBuys buyPrice ts rest e.after).1, e :: (fillBuys buyPrice ts rest e.after).2)

/-- Carries out orders, sells first, highest index first, so the indices stay
those the rule meant; `none`: a lot to sell is not there. -/
def Account.fill (a : Account F) (orders : List (Order F)) (buyPrice sellPrice : F) (ts : ℤ) (signalClose : F) :
    Option (Account F × List (Entry F)) :=
  (a.fillSells costs sellPrice ts ((sellsOf orders).insertionSort (· ≥ ·))).map fun (b, sold) =>
    let (c, bought) := b.fillBuys costs buyPrice ts orders
    let done := sold ++ bought
    (if done.isEmpty then c else { c with reference := some signalClose }, done)

variable (rule : Rule F) (stops : Stops F) (capital : F)

/-- One closed bar of an experiment: decide on it, fill at the prices given,
mark the account at the bar's close. The fills and the equity. -/
def step (a : Account F) (t : Tick F) : Option (Account F × List (Entry F) × F) :=
  match t.bars.getLast? with
  | none => some (a, [], a.equity (lit 0))
  | some bar =>
    let (wanted, a) := orders rule stops capital a t.bars t.ctx
    (a.fill costs wanted t.buyPrice t.sellPrice t.ts bar.close).map fun (b, done) => (b, done, a.equity bar.close)

/-- The steps of an experiment, and every fill of them. -/
def paperRun : List (Tick F) → Account F → Option (Account F × List (Entry F))
  | [], a => some (a, [])
  | t :: rest, a =>
    match step costs rule stops capital a t with
    | none => none
    | some (b, done, _) => (paperRun rest b).map fun r => (r.1, done ++ r.2)

end Paper

/-! ### Fills -/

section Fills

variable {F : Type} [FloatOps F] {costs : Costs F} {a b : Account F} {e : Entry F}

/-- What one fill does to the account. -/
inductive Fills (costs : Costs F) (a : Account F) : Entry F → Prop
  | sold {i : ℕ} {lot : Lot F} {e : Entry F} : a.lots[i]? = some lot → e.filled.buy = false →
    e.after.cash = a.cash + (e.filled.usd - e.filled.costUsd) →
    e.after.lots = a.lots.eraseIdx i →
    e.after.trades = a.trades ++ [⟨lot.opened, e.ts, lot.usd, e.filled.usd - e.filled.costUsd - lot.usd⟩] →
    Fills costs a e
  | bought {usd : F} {lot : Lot F} {e : Entry F} : e.filled.buy = true → e.filled.usd = minimum usd a.cash →
    e.after.cash = a.cash - e.filled.usd →
    lot.usd = e.filled.usd → lot.opened = e.ts →
    e.after.lots = a.lots ++ [lot] →
    e.after.trades = a.trades →
    Fills costs a e

theorem sellOne_fills {sellPrice : F} {ts : ℤ} {i : ℕ} (h : a.sellOne costs sellPrice ts i = some e) :
    Fills costs a e ∧ e.after.lots.length = a.lots.length - 1 := by
  unfold Account.sellOne at h
  split at h
  · exact nomatch h
  · rename_i lot hl
    obtain rfl := Option.some.inj h
    have hi : i < a.lots.length := (List.getElem?_eq_some_iff.mp hl).1
    exact ⟨.sold hl rfl rfl rfl rfl, List.length_eraseIdx_of_lt hi⟩

theorem sellOne_isSome {sellPrice : F} {ts : ℤ} {i : ℕ} (h : i < a.lots.length) :
    ∃ e, a.sellOne costs sellPrice ts i = some e := by
  unfold Account.sellOne
  rw [List.getElem?_eq_getElem h]
  exact ⟨_, rfl⟩

theorem buyOne_fills {buyPrice usd : F} {ts : ℤ} (h : a.buyOne costs buyPrice ts usd = some e) : Fills costs a e := by
  unfold Account.buyOne at h
  simp only at h
  split at h
  · exact nomatch h
  · obtain rfl := Option.some.inj h
    exact .bought rfl rfl rfl rfl rfl rfl rfl

/-- The fills one after the other, from `a` to `b`; between them the account
changes in nothing that is money. -/
def Leads (costs : Costs F) : Account F → List (Entry F) → Account F → Prop
  | a, [], b => SameMoney a b
  | a, e :: es, b => ∃ a', SameMoney a a' ∧ Fills costs a' e ∧ Leads costs e.after es b

theorem Leads.append {es fs : List (Entry F)} {c : Account F} (h : Leads costs a es b) (h' : Leads costs b fs c) :
    Leads costs a (es ++ fs) c := by
  induction es generalizing a with
  | nil =>
    cases fs with
    | nil => exact SameMoney.trans h h'
    | cons f fs =>
      obtain ⟨b', hs, hf, hc⟩ := h'
      exact ⟨b', SameMoney.trans h hs, hf, hc⟩
  | cons e es ih =>
    obtain ⟨a', hs, hf, hc⟩ := h
    exact ⟨a', hs, hf, ih hc⟩

theorem Leads.cons_same {es : List (Entry F)} (hs : SameMoney a b) {c : Account F} (h : Leads costs b es c) :
    Leads costs a es c := @Leads.append _ _ _ a b [] es c hs h

theorem Leads.snoc_same {es : List (Entry F)} {c : Account F} (h : Leads costs a es b) (hs : SameMoney b c) :
    Leads costs a es c := by
  have := @Leads.append _ _ _ a b es [] c h hs
  rwa [List.append_nil] at this

/-- From the highest lot down, each is there. -/
theorem fillSells_leads (sellPrice : F) (ts : ℤ) : ∀ (is : List ℕ) (a : Account F), is.Pairwise (· > ·) →
    (∀ i ∈ is, i < a.lots.length) →
    ∃ b es, a.fillSells costs sellPrice ts is = some (b, es) ∧ Leads costs a es b
  | [], a, _, _ => ⟨a, [], rfl, .refl a⟩
  | i :: is, a, hp, hlt => by
    obtain ⟨hgt, hp⟩ := List.pairwise_cons.mp hp
    obtain ⟨e, he⟩ := @sellOne_isSome _ _ costs a sellPrice ts i (hlt i List.mem_cons_self)
    obtain ⟨hf, hlen⟩ := sellOne_fills he
    have hrest : ∀ j ∈ is, j < e.after.lots.length := by
      intro j hj
      have h1 := hgt j hj
      have h2 := hlt i List.mem_cons_self
      omega
    obtain ⟨b, es, hb, hc⟩ := fillSells_leads sellPrice ts is e.after hp hrest
    refine ⟨b, e :: es, ?_, a, .refl a, hf, hc⟩
    rw [Account.fillSells, he]
    show (Account.fillSells costs sellPrice ts is e.after).map _ = _
    rw [hb]
    rfl

theorem fillBuys_leads (buyPrice : F) (ts : ℤ) : ∀ (os : List (Order F)) (a : Account F),
    Leads costs a (a.fillBuys costs buyPrice ts os).2 (a.fillBuys costs buyPrice ts os).1
  | [], a => .refl a
  | .sell _ :: os, a => fillBuys_leads buyPrice ts os a
  | .buy usd :: os, a => by
    unfold Account.fillBuys
    cases he : a.buyOne costs buyPrice ts usd with
    | none => exact fillBuys_leads buyPrice ts os a
    | some e => exact ⟨a, .refl a, buyOne_fills he, fillBuys_leads buyPrice ts os e.after⟩

/-- What is to be sold, sorted: each lot once, and each is held. -/
theorem sorted_sells {is : List ℕ} {n : ℕ} (h : is.Sublist (List.range n)) :
    (is.insertionSort (· ≥ ·)).Pairwise (· > ·) ∧ ∀ i ∈ is.insertionSort (· ≥ ·), i < n := by
  have hperm := List.perm_insertionSort (· ≥ ·) is
  have hnd : (is.insertionSort (· ≥ ·)).Nodup := hperm.nodup_iff.mpr (h.nodup List.nodup_range)
  have hs : (is.insertionSort (· ≥ ·)).Pairwise (· ≥ ·) := List.pairwise_insertionSort _ _
  refine ⟨(hs.and hnd).imp fun ⟨h1, h2⟩ => lt_of_le_of_ne h1 h2.symm, fun i hi => ?_⟩
  exact List.mem_range.mp (h.subset (hperm.subset hi))

theorem fill_leads {os : List (Order F)} (h : (sellsOf os).Sublist (List.range a.lots.length)) (buyPrice sellPrice : F)
    (ts : ℤ) (close : F) :
    ∃ b es, a.fill costs os buyPrice sellPrice ts close = some (b, es) ∧ Leads costs a es b := by
  obtain ⟨hp, hlt⟩ := sorted_sells h
  obtain ⟨b, es, hb, hc⟩ := @fillSells_leads _ _ costs sellPrice ts _ a hp hlt
  have hbuys := @fillBuys_leads _ _ costs buyPrice ts os b
  have heq : a.fill costs os buyPrice sellPrice ts close =
      some (if (es ++ (b.fillBuys costs buyPrice ts os).2).isEmpty then (b.fillBuys costs buyPrice ts os).1
        else { (b.fillBuys costs buyPrice ts os).1 with reference := some close },
        es ++ (b.fillBuys costs buyPrice ts os).2) := by
    unfold Account.fill
    rw [hb]
    rfl
  refine ⟨_, _, heq, Leads.append hc (hbuys.snoc_same ?_)⟩
  split
  · exact .refl _
  · exact ⟨rfl, rfl, rfl⟩

theorem step_leads (rule : Rule F) (stops : Stops F) (capital : F) (a : Account F) (t : Tick F) :
    ∃ b es equity, step costs rule stops capital a t = some (b, es, equity) ∧ Leads costs a es b := by
  unfold step
  cases t.bars.getLast? with
  | none => exact ⟨a, [], _, rfl, .refl a⟩
  | some bar =>
    obtain ⟨hsame, hsells⟩ := orders_spec rule stops capital a t.bars t.ctx
    generalize orders rule stops capital a t.bars t.ctx = both at hsame hsells
    obtain ⟨os, a'⟩ := both
    rw [← hsame.lots] at hsells
    obtain ⟨b, es, hb, hc⟩ := @fill_leads _ _ costs _ _ hsells t.buyPrice t.sellPrice t.ts bar.close
    refine ⟨b, es, a'.equity bar.close, ?_, hc.cons_same hsame⟩
    show (a'.fill costs os t.buyPrice t.sellPrice t.ts bar.close).map _ = _
    rw [hb]
    rfl

/-- No fill is of a lot that is gone. -/
theorem run_leads (rule : Rule F) (stops : Stops F) (capital : F) : ∀ (ts : List (Tick F)) (a : Account F),
    ∃ b es, paperRun costs rule stops capital ts a = some (b, es) ∧ Leads costs a es b
  | [], a => ⟨a, [], rfl, .refl a⟩
  | t :: ts, a => by
    obtain ⟨b, es, equity, hb, hc⟩ := @step_leads _ _ costs rule stops capital a t
    obtain ⟨c, fs, hr, hc'⟩ := run_leads rule stops capital ts b
    refine ⟨c, es ++ fs, ?_, hc.append hc'⟩
    unfold paperRun
    rw [hb]
    show (paperRun costs rule stops capital ts b).map _ = _
    rw [hr]
    rfl

/-- When a lot was bought, and for how much. -/
def Lot.key (l : Lot F) : ℤ × F := (l.opened, l.usd)

def Trade.key (t : Trade F) : ℤ × F := (t.opened, t.usd)

/-- The lots an account holds or has sold. -/
def Account.keys (a : Account F) : List (ℤ × F) := a.lots.map Lot.key ++ a.trades.map Trade.key

/-- What was bought by these fills. -/
def boughtKeys (es : List (Entry F)) : List (ℤ × F) :=
  (es.filter fun e => e.filled.buy).map fun e => (e.ts, e.filled.usd)

theorem Fills.keys (h : Fills costs a e) : e.after.keys.Perm (a.keys ++ boughtKeys [e]) := by
  cases h with
  | @sold i lot _ hl hb _ hlots htrades =>
    obtain ⟨hi, hlot⟩ := List.getElem?_eq_some_iff.mp hl
    have hperm : (lot :: a.lots.eraseIdx i).Perm a.lots := by
      rw [← hlot]
      exact List.getElem_cons_eraseIdx_perm hi
    have hkeys : e.after.keys = (a.lots.eraseIdx i).map Lot.key ++ (a.trades.map Trade.key ++ [lot.key]) := by
      rw [Account.keys, hlots, htrades, List.map_append]
      rfl
    have hnone : boughtKeys [e] = [] := by simp [boughtKeys, hb]
    rw [hkeys, hnone, List.append_nil, ← List.append_assoc]
    refine (List.perm_append_singleton _ _).trans ?_
    exact (hperm.map Lot.key).append_right _
  | @bought usd lot _ hb _ _ husd hopened hlots htrades =>
    have hkey : boughtKeys [e] = [lot.key] := by simp [boughtKeys, hb, Lot.key, husd, hopened]
    rw [hkey, Account.keys, hlots, htrades, List.map_append, Account.keys, List.append_assoc, List.append_assoc]
    exact List.Perm.append_left _ List.perm_append_comm

omit [FloatOps F] in
theorem keys_same (h : SameMoney a b) : b.keys = a.keys := by
  rw [Account.keys, h.lots, h.trades]
  rfl

/-- Every lot bought is held, or was sold once. -/
theorem Leads.keys {es : List (Entry F)} (h : Leads costs a es b) : b.keys.Perm (a.keys ++ boughtKeys es) := by
  induction es generalizing a with
  | nil =>
    have hs : SameMoney a b := h
    simp [keys_same hs, boughtKeys]
  | cons e es ih =>
    obtain ⟨a', hs, hf, hc⟩ := h
    have hsplit : boughtKeys (e :: es) = boughtKeys [e] ++ boughtKeys es := by
      rw [boughtKeys, ← List.singleton_append, List.filter_append, List.map_append]
      rfl
    rw [hsplit, ← List.append_assoc, ← keys_same hs]
    exact (ih hc).trans (hf.keys.append_right _)

end Fills

/-! ### The ledger -/

/-- Cash and what the lots cost, less what the trades made. -/
def Account.balance (a : Account Binary64) : ℚ :=
  a.cash.val + (a.lots.map fun l => l.usd.val).sum - (a.trades.map fun t => t.net.val).sum

/-- The size of what the trades made. -/
def Account.netSize (a : Account Binary64) : ℚ := (a.trades.map fun t => |t.net.val|).sum

/-- The size of the cash after each fill. -/
def cashSize (es : List (Entry Binary64)) : ℚ := (es.map fun e => |e.after.cash.val|).sum

section Ledger

variable {costs : Costs Binary64} {a b : Account Binary64} {e : Entry Binary64}

theorem sum_eraseIdx {α : Type} (f : α → ℚ) : ∀ {l : List α} {i : ℕ} {x : α}, l[i]? = some x →
    ((l.eraseIdx i).map f).sum = (l.map f).sum - f x := by
  intro l i x h
  obtain ⟨hi, hx⟩ := List.getElem?_eq_some_iff.mp h
  have hperm := (List.getElem_cons_eraseIdx_perm hi).map f
  have hsum := hperm.sum_eq
  rw [hx, List.map_cons, List.sum_cons] at hsum
  linarith

/-- One fill moves the balance by the rounding of the cash, and of what a trade made. -/
theorem Fills.balance (h : Fills costs a e) (hc : e.after.cash.IsFinite) (hn : ∀ t ∈ e.after.trades, t.net.IsFinite) :
    a.cash.IsFinite ∧ (∀ t ∈ a.trades, t.net.IsFinite) ∧
      |e.after.balance - a.balance| ≤ f64.unit * (|e.after.cash.val| + (e.after.netSize - a.netSize)) := by
  cases h with
  | @sold i lot _ hl _ hcash hlots htrades =>
    rw [Binary64.IsFinite, hcash] at hc
    obtain ⟨hfin, -, herr⟩ := Binary64.add_error hc
    have hnet : (e.filled.usd - e.filled.costUsd - lot.usd).IsFinite := by
      refine hn ⟨lot.opened, e.ts, lot.usd, e.filled.usd - e.filled.costUsd - lot.usd⟩ ?_
      rw [htrades]
      exact List.mem_append_right _ List.mem_cons_self
    obtain ⟨-, -, herr'⟩ := Binary64.sub_error hnet
    refine ⟨hfin, fun t ht => hn t (by rw [htrades]; exact List.mem_append_left _ ht), ?_⟩
    have hbal : e.after.balance - a.balance =
        ((a.cash + (e.filled.usd - e.filled.costUsd)).val - (a.cash.val + (e.filled.usd - e.filled.costUsd).val)) -
        ((e.filled.usd - e.filled.costUsd - lot.usd).val - ((e.filled.usd - e.filled.costUsd).val - lot.usd.val)) := by
      rw [Account.balance, Account.balance, hcash, hlots, htrades, sum_eraseIdx _ hl, List.map_append, List.sum_append]
      simp only [List.map_cons, List.map_nil, List.sum_cons, List.sum_nil]
      ring
    have hsize : e.after.netSize - a.netSize = |(e.filled.usd - e.filled.costUsd - lot.usd).val| := by
      rw [Account.netSize, Account.netSize, htrades, List.map_append, List.sum_append]
      simp
    rw [hbal, hsize, mul_add, hcash]
    exact (abs_sub _ _).trans (add_le_add herr herr')
  | @bought usd lot _ _ _ hcash husd _ hlots htrades =>
    rw [Binary64.IsFinite, hcash] at hc
    obtain ⟨hfin, -, herr⟩ := Binary64.sub_error hc
    refine ⟨hfin, fun t ht => hn t (by rw [htrades]; exact ht), ?_⟩
    have hbal : e.after.balance - a.balance = (a.cash - e.filled.usd).val - (a.cash.val - e.filled.usd.val) := by
      rw [Account.balance, Account.balance, hcash, hlots, htrades, List.map_append, List.sum_append]
      simp only [List.map_cons, List.map_nil, List.sum_cons, List.sum_nil, husd]
      ring
    have hsize : e.after.netSize - a.netSize = 0 := by
      rw [Account.netSize, Account.netSize, htrades]
      ring
    rw [hbal, hsize, hcash, add_zero]
    exact herr

theorem balance_same (h : SameMoney a b) : b.balance = a.balance ∧ b.netSize = a.netSize := by
  rw [Account.balance, Account.netSize, h.cash, h.lots, h.trades]
  exact ⟨rfl, rfl⟩

/-- A chain of fills moves the balance by the rounding of each. -/
theorem Leads.balance {es : List (Entry Binary64)} (h : Leads costs a es b) (hc : b.cash.IsFinite)
    (hn : ∀ t ∈ b.trades, t.net.IsFinite) :
    a.cash.IsFinite ∧ (∀ t ∈ a.trades, t.net.IsFinite) ∧
      |b.balance - a.balance| ≤ f64.unit * (cashSize es + (b.netSize - a.netSize)) := by
  induction es generalizing a with
  | nil =>
    have hs : SameMoney a b := h
    obtain ⟨hb, hsize⟩ := balance_same hs
    refine ⟨hs.cash ▸ hc, hs.trades ▸ hn, ?_⟩
    rw [hb, hsize, cashSize]
    simp
  | cons e es ih =>
    obtain ⟨a', hs, hf, hrest⟩ := h
    obtain ⟨hc', hn', herr⟩ := ih hrest
    obtain ⟨hc₀, hn₀, herr₀⟩ := hf.balance hc' hn'
    obtain ⟨hb, hsize⟩ := balance_same hs
    refine ⟨hs.cash ▸ hc₀, hs.trades ▸ hn₀, ?_⟩
    rw [hb, hsize] at herr₀
    have hsum : cashSize (e :: es) = |e.after.cash.val| + cashSize es := by simp [cashSize]
    calc |b.balance - a.balance| ≤ |b.balance - e.after.balance| + |e.after.balance - a.balance| := abs_sub_le _ _ _
      _ ≤ f64.unit * (cashSize es + (b.netSize - e.after.netSize)) +
          f64.unit * (|e.after.cash.val| + (e.after.netSize - a.netSize)) := add_le_add herr herr₀
      _ = f64.unit * (cashSize (e :: es) + (b.netSize - a.netSize)) := by
        rw [hsum]
        ring

/-- A buy is of cash that is there; and a sale adds cash unless it costs more than it brings. -/
theorem Fills.cash (h : Fills costs a e) (ha : a.cash.NonNeg)
    (hs : e.filled.buy = false → le e.filled.costUsd e.filled.usd = true) : e.after.cash.NonNeg := by
  cases h with
  | sold _ hb hcash =>
    rw [hcash]
    exact ha.add (Binary64.nonNeg_sub (hs hb))
  | bought _ husd hcash =>
    rw [hcash, husd]
    rcases Binary64.minimum_le _ a.cash with hnan | hle
    · rw [hnan]
      exact Binary64.nonNeg_nan
    · exact Binary64.nonNeg_sub hle

theorem Leads.cash {es : List (Entry Binary64)} (h : Leads costs a es b) (ha : a.cash.NonNeg)
    (hs : ∀ e ∈ es, e.filled.buy = false → le e.filled.costUsd e.filled.usd = true) :
    b.cash.NonNeg ∧ ∀ e ∈ es, e.after.cash.NonNeg := by
  induction es generalizing a with
  | nil =>
    have hsame : SameMoney a b := h
    exact ⟨hsame.cash ▸ ha, fun _ he => nomatch he⟩
  | cons e es ih =>
    obtain ⟨a', hsame, hf, hrest⟩ := h
    have he := hf.cash (hsame.cash ▸ ha) (hs e List.mem_cons_self)
    obtain ⟨hb, hes⟩ := ih hrest he fun e' he' => hs e' (List.mem_cons_of_mem _ he')
    refine ⟨hb, fun e' he' => ?_⟩
    rcases List.mem_cons.mp he' with rfl | hmem
    · exact he
    · exact hes e' hmem

/-- **The paper account.** Whatever the rule, the stops, the costs, the candles
and the prices: a rule's orders name lots that are held, each once, and no fill
is of a lot that is gone; what was bought is held or was sold once; cash is
never below zero, as long as no sale costs more than it brings; and cash with
what the lots cost is the capital with what the trades made, but for the
rounding of the cash after each fill and of what each trade made. -/
theorem paper_run (rule : Rule Binary64) (stops : Stops Binary64) (costs : Costs Binary64) (capital : Binary64)
    (ticks : List (Tick Binary64)) :
    (∀ a bars ctx, let sells := sellsOf (orders rule stops capital a bars ctx).1
      sells.Nodup ∧ ∀ i ∈ sells, i < a.lots.length) ∧
    ∃ a es, paperRun costs rule stops capital ticks (Account.new capital) = some (a, es) ∧
      a.keys.Perm (boughtKeys es) ∧
      (capital.NonNeg → (∀ e ∈ es, e.filled.buy = false → le e.filled.costUsd e.filled.usd = true) →
        a.cash.NonNeg ∧ ∀ e ∈ es, e.after.cash.NonNeg) ∧
      (a.cash.IsFinite → (∀ t ∈ a.trades, t.net.IsFinite) →
        |(a.cash.val + (a.lots.map fun l => l.usd.val).sum) - (capital.val + (a.trades.map fun t => t.net.val).sum)|
          ≤ f64.unit * (cashSize es + a.netSize)) := by
  refine ⟨fun a bars ctx => ?_, ?_⟩
  · have h := sells_valid rule stops capital a bars ctx
    exact ⟨h.nodup List.nodup_range, fun i hi => List.mem_range.mp (h.subset hi)⟩
  obtain ⟨a, es, hrun, hchain⟩ := @run_leads _ _ costs rule stops capital ticks (Account.new capital)
  refine ⟨a, es, hrun, hchain.keys, fun hc hs => hchain.cash hc hs, fun hc hn => ?_⟩
  obtain ⟨-, -, herr⟩ := hchain.balance hc hn
  have hsize : (Account.new capital).netSize = 0 := rfl
  have hbal : (Account.new capital).balance = capital.val := by simp [Account.balance, Account.new, Account.empty]
  rw [hsize, hbal, sub_zero] at herr
  have heq : a.cash.val + (a.lots.map fun l => l.usd.val).sum - (capital.val + (a.trades.map fun t => t.net.val).sum) =
      a.balance - capital.val := by
    rw [Account.balance]
    ring
  rw [heq]
  exact herr

end Ledger

/-! ### Runs -/

/-- As measured on mainnet. -/
def measured : Costs Binary64 := ⟨lit (115 / 100), lit 6366⟩

def barAt (price : ℚ) : Bar Binary64 := ⟨0, lit price, lit price, lit price, lit price, lit 1⟩

/-- Bars that closed at these prices, the orders filled at the last. -/
def tickAt (prices : List ℚ) (last : ℚ) : Tick Binary64 :=
  ⟨(prices ++ [last]).map barAt, ⟨none, [], 1⟩, lit last, lit last, 1⟩

/-- Two parts of 20 USD: one is bought at 99 and sold at 101. -/
def gridRun : Option (Account Binary64 × List (Entry Binary64)) :=
  paperRun measured (.grid (lit (1 / 100)) 2) ⟨none, none⟩ (lit 20) [tickAt [] 100, tickAt [] 99, tickAt [] 101]
    (Account.new (lit 20))

/-- A tenth of a cent, bought at 99 and sold at 100. -/
def reversalRun : Option (Account Binary64 × List (Entry Binary64)) :=
  paperRun measured .signReversal ⟨none, none⟩ (lit (1 / 1000)) [tickAt [100] 99, tickAt [99] 100]
    (Account.new (lit (1 / 1000)))

/-- In the one the two sums differ by 2^-49; in the other the sale costs more
than it brings, and cash is negative. -/
theorem paper_not_exact :
    (gridRun.map fun r =>
      (r.1.cash.val + (r.1.lots.map fun l => l.usd.val).sum) - (20 + (r.1.trades.map fun t => t.net.val).sum)) =
        some (-1 / 2 ^ 49) ∧
    (reversalRun.map fun r => lt r.1.cash (lit 0)) = some true := by
  decide +kernel

end Lab
end MobiusSearcher
