/-
# The levels a rule shows

`apps/mobius-searcher/src/lab/rules.rs`, `Rule::levels`: the prices at which a
rule of one price acts next, computed apart from what it decides.

A grid acts at its levels exactly. A dip rule decides on the deviations of the
close from the average of its window and shows the prices they stand for. It
acts under its buy and above its sell, as long as the close is no nearer to the
level than rounding (`slack`), and under its stop exactly. Where the window has
no deviation it never buys, and it sells if its exit is below the average
(`levels_acted_on`).

Key definitions: `Rule.levels`, `slack`, `GridActs`, `DipActs`.
Key theorems: `levels_acted_on`, `score_level`.
-/
import MobiusSearcher.Lab.Rules
import MobiusSearcher.Lib.Binary64

namespace MobiusSearcher
namespace Lab

open FloatOps

section Levels

variable {F : Type} [FloatOps F] [FloatTotal F]

/-- The average close of the last `window` bars. -/
def dipMean (window : ℕ) (bars : List (Bar F)) : F :=
  ((bars.drop (bars.length - window)).foldl (fun s b => s + b.close) (lit 0)) / lit window

/-- Their deviation from it. -/
def dipSd (window : ℕ) (bars : List (Bar F)) : F :=
  let mean := dipMean window bars
  sqrt (((bars.drop (bars.length - window)).foldl (fun s b => s + (b.close - mean) * (b.close - mean)) (lit 0)) /
    lit window)

/-- The least in the total order; the first of equals. -/
def minTotal : List F → Option F
  | [] => none
  | x :: xs => some (xs.foldl (fun least y => if FloatTotal.totalLt y least then y else least) x)

/-- The prices this rule acts at next, as far as it has such prices: the close
under which it buys, the close above which it sells, and the close under which
it sells at a loss. -/
def Rule.levels (rule : Rule F) (bars : List (Bar F)) (acct : Account F) : Option F × Option F × Option F :=
  match rule with
  | .dip window k exitZ stop =>
    if window ≤ bars.length then
      let mean := dipMean window bars
      let sd := dipSd window bars
      let stopAt := match acct.lots.head?, stop with
        | some lot, some s => some (lot.price * (lit 1 - s))
        | _, _ => none
      (some (mean - k * sd), some (mean + exitZ * sd), stopAt)
    else (none, none, none)
  | .grid step lots =>
    let buy := if acct.lots.length < lots then acct.reference.map fun r => r * (lit 1 - step) else none
    (buy, minTotal (acct.lots.map fun l => l.price * (lit 1 + step)), none)
  | _ => (none, none, none)

end Levels

theorem zScore_eq {F : Type} [FloatOps F] (window : ℕ) (bars : List (Bar F)) (close : F) :
    Rule.zScore window bars close =
      if lt (lit 0) (dipSd window bars) then (close - dipMean window bars) / dipSd window bars else lit 0 := rfl

/-- What a rule orders: a buy, a sale. -/
def Buys {F : Type} (os : List (Order F)) : Prop := ∃ usd, .buy usd ∈ os

def Sells {F : Type} (os : List (Order F)) : Prop := ∃ i, .sell i ∈ os

/-! ### The score of a close, and its level -/

/-- The rounding between the score of a close and the price it stands for. -/
def slack (level close mean sd score : ℚ) : ℚ :=
  f64.unit * (|level| + |score * sd| + 3 * |close - mean|) + f64.least * (1 + sd)

section Score

variable {level close mean sd score p : ℚ}

/-- A score over another, rounded, is a close over the level of that one, but
for the slack; `p` is the level's distance from the average, rounded. -/
theorem score_level (hs : 0 < sd) (hscore : f64.Mem score) (hp : p = f64.round (score * sd))
    (hl : |level - (mean + p)| ≤ f64.unit * |level|) {d : ℚ} (hd : |d - (close - mean)| ≤ f64.unit * |close - mean|) :
    (f64.round (d / sd) < score → close < level + slack level close mean sd score) ∧
    (score ≤ f64.round (d / sd) → level - slack level close mean sd score ≤ close) ∧
    (score < f64.round (d / sd) → level - slack level close mean sd score < close) ∧
    (f64.round (d / sd) ≤ score → close ≤ level + slack level close mean sd score) := by
  have hu : (0 : ℚ) < f64.unit := Format.unit_pos
  have hu1 : f64.unit ≤ 1 := by rw [f64_unit]; norm_num
  have hη : (0 : ℚ) < f64.least := Format.least_pos
  have hperr : |p - score * sd| ≤ f64.unit * |score * sd| + f64.least := hp ▸ Format.round_error _
  have hquot : d / sd * sd = d := div_mul_cancel₀ d hs.ne'
  -- the rounded quotient is off by a share of it, in prices by a share of `d`
  have hzerr : |f64.round (d / sd) * sd - d| ≤ f64.unit * |d| + f64.least * sd := by
    have h := mul_le_mul_of_nonneg_right (Format.round_error (f := f64) (d / sd)) hs.le
    calc |f64.round (d / sd) * sd - d| = |f64.round (d / sd) - d / sd| * sd := by
          rw [← abs_of_pos hs, ← abs_mul, abs_of_pos hs, sub_mul, hquot]
      _ ≤ (f64.unit * |d / sd| + f64.least) * sd := h
      _ = f64.unit * (|d / sd| * sd) + f64.least * sd := by ring
      _ = f64.unit * |d| + f64.least * sd := by rw [← abs_of_pos hs, ← abs_mul, abs_of_pos hs, hquot]
  have hdle : |d| ≤ 2 * |close - mean| := by
    have h1 : |d| ≤ |d - (close - mean)| + |close - mean| := by
      have := abs_add_le (d - (close - mean)) (close - mean)
      rwa [sub_add_cancel] at this
    have h2 : f64.unit * |close - mean| ≤ 1 * |close - mean| := mul_le_mul_of_nonneg_right hu1 (abs_nonneg _)
    linarith
  have hud : f64.unit * |d| ≤ 2 * (f64.unit * |close - mean|) := by
    have := mul_le_mul_of_nonneg_left hdle hu.le
    linarith
  have hηsd : 0 < f64.least * sd := mul_pos hη hs
  have hcm : 0 ≤ f64.unit * |close - mean| := mul_nonneg hu.le (abs_nonneg _)
  have hslack : slack level close mean sd score = f64.unit * |level| + f64.unit * |score * sd| +
      3 * (f64.unit * |close - mean|) + f64.least + f64.least * sd := by
    unfold slack
    ring
  rw [hslack]
  obtain ⟨hl1, hl2⟩ := abs_le.mp hl
  obtain ⟨hd1, hd2⟩ := abs_le.mp hd
  obtain ⟨hp1, hp2⟩ := abs_le.mp hperr
  obtain ⟨hz1, hz2⟩ := abs_le.mp hzerr
  refine ⟨fun h => ?_, fun h => ?_, fun h => ?_, fun h => ?_⟩
  · have hlt := mul_lt_mul_of_pos_right (Format.lt_of_round_lt hscore h) hs
    rw [hquot] at hlt
    linarith
  · have hle := mul_le_mul_of_nonneg_right h hs.le
    linarith
  · have hlt := mul_lt_mul_of_pos_right (Format.lt_of_lt_round hscore h) hs
    rw [hquot] at hlt
    linarith
  · have hle := mul_le_mul_of_nonneg_right h hs.le
    linarith

end Score

/-! ### A grid -/

section Grid

theorem minTotal_le_aux (p : Binary64) : ∀ (xs : List Binary64) (x : Binary64),
    le (xs.foldl (fun least y => if FloatTotal.totalLt y least then y else least) x) p = true ↔
      ∃ y ∈ x :: xs, le y p = true
  | [], x => by simp
  | y :: xs, x => by
    rw [List.foldl_cons, minTotal_le_aux p xs]
    have hstep : le (if FloatTotal.totalLt y x then y else x) p = true ↔ le x p = true ∨ le y p = true := by
      by_cases h : FloatTotal.totalLt y x = true
      · rw [if_pos h]
        exact ⟨.inr, fun h' => h'.elim (Binary64.le_of_totalLt (Binary64.totalLt_asymm h)) id⟩
      · rw [if_neg h]
        exact ⟨.inl, fun h' => h'.elim id (Binary64.le_of_totalLt (Bool.not_eq_true _ ▸ h))⟩
    simp only [List.mem_cons, exists_eq_or_imp, hstep, or_assoc]

/-- The least of some prices is at most `p` when one of them is. -/
theorem minTotal_le {xs : List Binary64} {p : Binary64} :
    (∃ m, minTotal xs = some m ∧ le m p = true) ↔ ∃ y ∈ xs, le y p = true := by
  cases xs with
  | nil => simp [minTotal]
  | cons x xs =>
    rw [← minTotal_le_aux p xs x]
    simp [minTotal]

variable {history : ℕ} {step : Binary64} {lots : ℕ} {bars : List (Bar Binary64)} {last : Bar Binary64}
  {acct : Account Binary64} {capital : Binary64} {mayBuy : Bool}

/-- What a grid orders at a close: the sale of each lot at or over its own
price, and a buy when there is none of these, the close is at or under its
level, and there is cash for a part. -/
structure GridActs (history : ℕ) (step : Binary64) (lots : ℕ) (bars : List (Bar Binary64)) (close : Binary64)
    (acct : Account Binary64) (capital : Binary64) (mayBuy : Bool) : Prop where
  sells : Sells ((Rule.grid step lots).decide history bars acct capital mayBuy) ↔
    ∃ s, ((Rule.grid step lots).levels bars acct).2.1 = some s ∧ le s close = true
  lot : ∀ i, .sell i ∈ (Rule.grid step lots).decide history bars acct capital mayBuy ↔
    ∃ l, acct.lots[i]? = some l ∧ le (l.price * (lit 1 + step)) close = true
  buys : Buys ((Rule.grid step lots).decide history bars acct capital mayBuy) ↔
    ¬ Sells ((Rule.grid step lots).decide history bars acct capital mayBuy) ∧
      (∃ b, ((Rule.grid step lots).levels bars acct).1 = some b ∧ le close b = true) ∧
      mayBuy = true ∧ le (capital / lit lots * lit (999 / 1000)) acct.cash = true

/-- The sales a grid orders at a close. -/
def gridSells (step close : Binary64) (acct : Account Binary64) : List (Order Binary64) :=
  (acct.lots.zipIdx.filter fun l => le (l.1.price * (lit 1 + step)) close).map fun l => .sell l.2

theorem grid_decide (hlast : bars.getLast? = some last) :
    (Rule.grid step lots).decide history bars acct capital mayBuy =
      if gridSells step last.close acct ≠ [] then gridSells step last.close acct
      else if mayBuy && (acct.reference.any fun r => le last.close (r * (lit 1 - step))) &&
          decide (acct.lots.length < lots) && le (capital / lit lots * lit (999 / 1000)) acct.cash then
        [.buy (minimum (capital / lit lots) acct.cash)]
      else [] := by
  have hlen : ¬ bars.length < (Rule.grid step lots : Rule Binary64).warmup history := by
    have hne : bars ≠ [] := by
      rintro rfl
      exact nomatch hlast
    have := List.length_pos_iff.mpr hne
    show ¬ bars.length < 1
    omega
  unfold Rule.decide
  rw [hlast]
  show (if bars.length < _ then _ else _) = _
  rw [if_neg hlen]
  rfl

theorem mem_gridSells {close : Binary64} {i : ℕ} : Order.sell i ∈ gridSells step close acct ↔
    ∃ l, acct.lots[i]? = some l ∧ le (l.price * (lit 1 + step)) close = true := by
  simp only [gridSells, List.mem_map, List.mem_filter, Order.sell.injEq, Prod.exists, List.mem_zipIdx_iff_getElem?]
  constructor
  · rintro ⟨l, j, ⟨hl, hle⟩, rfl⟩
    exact ⟨l, hl, hle⟩
  · rintro ⟨l, hl, hle⟩
    exact ⟨l, i, ⟨hl, hle⟩, rfl⟩

theorem buy_notMem_gridSells {close usd : Binary64} : .buy usd ∉ gridSells step close acct := by
  intro h
  obtain ⟨l, -, hl⟩ := List.mem_map.mp h
  exact nomatch hl

/-- The buy level is there when a lot more may be held, and the close is at or
under it when it is so far under the last trade. -/
theorem grid_buy_level {close : Binary64} :
    (∃ b, ((Rule.grid step lots).levels bars acct).1 = some b ∧ le close b = true) ↔
      acct.lots.length < lots ∧ (acct.reference.any fun r => le close (r * (lit 1 - step))) = true := by
  show (∃ b, (if acct.lots.length < lots then acct.reference.map _ else none) = some b ∧ _) ↔ _
  by_cases hlots : acct.lots.length < lots
  · rw [if_pos hlots]
    cases acct.reference with
    | none => simp
    | some r => simp [hlots]
  · rw [if_neg hlots]
    simp [hlots]

theorem grid_acts (hlast : bars.getLast? = some last) :
    GridActs history step lots bars last.close acct capital mayBuy := by
  have hdec := @grid_decide history step lots bars last acct capital mayBuy hlast
  -- a sale is ordered exactly when a lot is at or over its price
  have hlot : ∀ i, .sell i ∈ (Rule.grid step lots).decide history bars acct capital mayBuy ↔
      ∃ l, acct.lots[i]? = some l ∧ le (l.price * (lit 1 + step)) last.close = true := by
    intro i
    rw [hdec, ← mem_gridSells]
    split
    · exact Iff.rfl
    · rename_i hno
      rw [not_not.mp hno]
      split <;> simp
  have hsells : Sells ((Rule.grid step lots).decide history bars acct capital mayBuy) ↔
      ∃ l ∈ acct.lots, le (l.price * (lit 1 + step)) last.close = true := by
    constructor
    · rintro ⟨i, hi⟩
      obtain ⟨l, hl, hle⟩ := (hlot i).mp hi
      exact ⟨l, List.mem_of_getElem? hl, hle⟩
    · rintro ⟨l, hl, hle⟩
      obtain ⟨i, hi⟩ := List.mem_iff_getElem?.mp hl
      exact ⟨i, (hlot i).mpr ⟨l, hi, hle⟩⟩
  refine ⟨?_, hlot, ?_⟩
  · rw [hsells]
    show _ ↔ ∃ s, minTotal (acct.lots.map fun l => l.price * (lit 1 + step)) = some s ∧ le s last.close = true
    rw [minTotal_le]
    simp
  · rw [grid_buy_level, hdec]
    by_cases hno : gridSells step last.close acct = []
    · rw [if_neg (not_not.mpr hno)]
      have hns : ∀ c : Bool, ¬ Sells (if c then [Order.buy (minimum (capital / lit lots) acct.cash)] else []) := by
        rintro c ⟨i, hi⟩
        cases c <;> simp at hi
      simp only [hns, not_false_eq_true, true_and]
      split
      · rename_i hc
        simp only [Bool.and_eq_true, decide_eq_true_eq] at hc
        exact ⟨fun _ => ⟨⟨hc.1.2, hc.1.1.2⟩, hc.1.1.1, hc.2⟩, fun _ => ⟨_, List.mem_cons_self⟩⟩
      · rename_i hc
        refine ⟨fun ⟨_, h⟩ => (nomatch h), fun ⟨⟨h1, h2⟩, h3, h4⟩ => absurd ?_ hc⟩
        rw [h2, h3, h4, decide_eq_true h1]
        rfl
    · rw [if_pos hno]
      obtain ⟨o, os, hos⟩ := List.exists_cons_of_ne_nil hno
      constructor
      · rintro ⟨usd, h⟩
        exact absurd h buy_notMem_gridSells
      · rintro ⟨h, -⟩
        refine absurd ?_ h
        cases o with
        | sell i => exact ⟨i, hos ▸ List.mem_cons_self⟩
        | buy usd => exact absurd (hos ▸ List.mem_cons_self) (@buy_notMem_gridSells step acct last.close usd)

end Grid

/-! ### A dip -/

section Dip

variable {history window : ℕ} {k exitZ : Binary64} {stop : Option Binary64} {bars : List (Bar Binary64)}
  {last : Bar Binary64} {acct : Account Binary64} {capital : Binary64} {mayBuy : Bool}

/-- The last close is one of the window, and where the deviation is finite so are it and its distance from the average. -/
theorem dipSd_finite (hlast : bars.getLast? = some last) (hw : 0 < window) (hlen : window ≤ bars.length)
    (h : (dipSd window bars).IsFinite) : (last.close - dipMean window bars).IsFinite := by
  have hmem : last ∈ bars.drop (bars.length - window) := by
    obtain ⟨init, rfl⟩ := List.getLast?_eq_some_iff.mp hlast
    rw [List.length_append, List.length_singleton] at hlen ⊢
    rw [List.drop_append_of_le_length (by omega)]
    exact List.mem_append_right _ List.mem_cons_self
  obtain ⟨q, hq, -⟩ := Binary64.value_div (Binary64.value_sqrt h)
  obtain ⟨-, hall⟩ := Binary64.foldl_finite _ _ _ (Binary64.isFinite_of hq)
  obtain ⟨a, b, ha, -⟩ := Binary64.value_mul (hall last hmem)
  exact Binary64.isFinite_of ha

/-- What the score of the last close says of a level: `t` scores from the average. -/
theorem dip_score (hlast : bars.getLast? = some last) (hw : 0 < window) (hlen : window ≤ bars.length)
    (hsd : lt (lit 0) (dipSd window bars) = true) {t level : Binary64} {s : ℚ} (ht : t.value = some s)
    (hl : |level.val - ((dipMean window bars).val + f64.round (s * (dipSd window bars).val))| ≤ f64.unit * |level.val|)
    (hfin : (dipSd window bars).IsFinite) :
    let z := Rule.zScore window bars last.close
    let ε := slack level.val last.close.val (dipMean window bars).val (dipSd window bars).val s
    (last.close.val < level.val - ε → lt z t = true) ∧ (level.val + ε < last.close.val → lt z t = false) ∧
    (level.val + ε < last.close.val → lt t z = true) ∧ (last.close.val < level.val - ε → lt t z = false) := by
  have hd := dipSd_finite hlast hw hlen hfin
  have hpos : 0 < (dipSd window bars).val := by
    rw [Binary64.lt_value Binary64.value_zero hfin] at hsd
    exact of_decide_eq_true hsd
  obtain ⟨p, q, hp, hq, hdv⟩ := Binary64.value_sub hd
  obtain ⟨neg, hz⟩ := Binary64.div_eq hd hfin hpos.ne'
  have hzs : Rule.zScore window bars last.close =
      .ofRat neg ((last.close - dipMean window bars).val / (dipSd window bars).val) := by
    rw [zScore_eq, if_pos hsd, hz]
  have hderr : |(last.close - dipMean window bars).val - (last.close.val - (dipMean window bars).val)| ≤
      f64.unit * |last.close.val - (dipMean window bars).val| := by
    rw [Binary64.val_eq hp, Binary64.val_eq hq, hdv]
    have := (Format.round_error_grid ((Binary64.value_mem hp).onGrid.add (Binary64.value_mem hq).onGrid.neg)).1
    rwa [← sub_eq_add_neg] at this
  obtain ⟨h1, h2, h3, h4⟩ := score_level hpos (Binary64.value_mem ht) rfl hl hderr
  simp only
  rw [hzs, Binary64.ofRat_lt ht, Binary64.lt_ofRat ht]
  refine ⟨fun h => decide_eq_true ?_, fun h => decide_eq_false ?_, fun h => decide_eq_true ?_, fun h => decide_eq_false ?_⟩
  · by_contra hn
    linarith [h2 (not_lt.mp hn)]
  · intro hn
    linarith [h1 hn]
  · by_contra hn
    linarith [h4 (not_lt.mp hn)]
  · intro hn
    linarith [h3 hn]

/-- What a dip rule orders at the close of the last bar, in the levels it shows.
Its stop is exact; under its buy and above its sell it acts when the close is no
nearer to the level than rounding; where the window has no deviation the score
counts as zero. -/
structure DipActs (history window : ℕ) (k exitZ : Binary64) (stop : Option Binary64) (bars : List (Bar Binary64))
    (close : Binary64) (acct : Account Binary64) (capital : Binary64) (mayBuy : Bool) : Prop where
  buysUnder : acct.lots = [] → lt (lit 0) (dipSd window bars) = true →
    ∀ level, ((Rule.dip window k exitZ stop).levels bars acct).1 = some level → level.IsFinite →
      let ε := slack level.val close.val (dipMean window bars).val (dipSd window bars).val k.val
      (close.val < level.val - ε → (Rule.dip window k exitZ stop).decide history bars acct capital mayBuy =
        if mayBuy && lt (lit 0) acct.cash then [.buy acct.cash] else []) ∧
      (level.val + ε < close.val → (Rule.dip window k exitZ stop).decide history bars acct capital mayBuy = [])
  flat : acct.lots = [] → lt (lit 0) (dipSd window bars) = false →
    (Rule.dip window k exitZ stop).decide history bars acct capital mayBuy = []
  stops : acct.lots ≠ [] → (((Rule.dip window k exitZ stop).levels bars acct).2.2.any fun s => lt close s) = true →
    (Rule.dip window k exitZ stop).decide history bars acct capital mayBuy =
      (List.range acct.lots.length).map .sell
  sellsAbove : acct.lots ≠ [] → (((Rule.dip window k exitZ stop).levels bars acct).2.2.any fun s => lt close s) = false →
    lt (lit 0) (dipSd window bars) = true →
    ∀ level, ((Rule.dip window k exitZ stop).levels bars acct).2.1 = some level → level.IsFinite →
      let ε := slack level.val close.val (dipMean window bars).val (dipSd window bars).val exitZ.val
      (level.val + ε < close.val → (Rule.dip window k exitZ stop).decide history bars acct capital mayBuy =
        (List.range acct.lots.length).map .sell) ∧
      (close.val < level.val - ε → (Rule.dip window k exitZ stop).decide history bars acct capital mayBuy = [])
  sellsFlat : acct.lots ≠ [] → (((Rule.dip window k exitZ stop).levels bars acct).2.2.any fun s => lt close s) = false →
    lt (lit 0) (dipSd window bars) = false →
    (Rule.dip window k exitZ stop).decide history bars acct capital mayBuy =
      if lt exitZ (lit 0) then (List.range acct.lots.length).map .sell else []

theorem dip_decide (hlast : bars.getLast? = some last) (hlen : window ≤ bars.length) :
    (Rule.dip window k exitZ stop).decide history bars acct capital mayBuy =
      match acct.lots.head? with
      | none => Rule.allIn acct mayBuy (lt (Rule.zScore window bars last.close) (lit 0 - k))
      | some lot => Rule.allIn acct mayBuy !(lt exitZ (Rule.zScore window bars last.close) ||
          stop.any fun s => lt last.close (lot.price * (lit 1 - s))) := by
  unfold Rule.decide
  rw [hlast]
  show (if bars.length < window then _ else _) = _
  rw [if_neg (by omega)]
  cases acct.lots.head? <;> rfl

theorem dip_levels (hlen : window ≤ bars.length) : (Rule.dip window k exitZ stop).levels bars acct =
    (some (dipMean window bars - k * dipSd window bars), some (dipMean window bars + exitZ * dipSd window bars),
      match acct.lots.head?, stop with
      | some lot, some s => some (lot.price * (lit 1 - s))
      | _, _ => none) := by
  show (if window ≤ bars.length then _ else _) = _
  rw [if_pos hlen]
  cases acct.lots.head? <;> cases stop <;> rfl

theorem neg_value {q : ℚ} (hk : k.value = some q) : (lit 0 - k).value = some (-q) := by
  obtain ⟨neg, hneg⟩ := Binary64.sub_eq Binary64.value_zero hk
  have hmem := (Binary64.value_mem hk).neg
  have hb := Binary64.value_lt hk
  rw [hneg, Binary64.value_ofRat, zero_sub, Format.round_eq_self hmem, if_pos (by rwa [abs_neg])]

/-- Zero is not under a score that is less than zero. -/
theorem zero_not_under (hk : le k (lit 0) = false) : lt (lit 0) (lit 0 - k) = false := by
  obtain ⟨z, hz, hz0⟩ := Binary64.value_eq_some.mp Binary64.value_zero
  cases k with
  | nan =>
    rw [hz]
    rfl
  | inf s =>
    rw [hz] at hk ⊢
    have hs : s = false := hk
    subst hs
    rfl
  | fin w =>
    rw [Binary64.le_value (a := w.val) rfl Binary64.value_zero] at hk
    have hpos := not_le.mp (of_decide_eq_false hk)
    rw [Binary64.lt_value Binary64.value_zero (@neg_value (.fin w) w.val rfl)]
    exact decide_eq_false (by linarith)

theorem slack_neg (level close mean sd score : ℚ) : slack level close mean sd (-score) = slack level close mean sd score := by
  unfold slack
  rw [neg_mul, abs_neg]

theorem dip_acts (hk : le k (lit 0) = false) (hlast : bars.getLast? = some last) (hw : 0 < window)
    (hlen : window ≤ bars.length) : DipActs history window k exitZ stop bars last.close acct capital mayBuy := by
  have hdec := @dip_decide history window k exitZ stop bars last acct capital mayBuy hlast hlen
  have hlev := @dip_levels window k exitZ stop bars acct hlen
  -- holding nothing: the score alone; holding something: the stop and the score
  have hnone : acct.lots = [] → (Rule.dip window k exitZ stop).decide history bars acct capital mayBuy =
      if lt (Rule.zScore window bars last.close) (lit 0 - k) then
        (if mayBuy && lt (lit 0) acct.cash then [.buy acct.cash] else []) else [] := by
    intro hl
    rw [hdec, hl]
    unfold Rule.allIn
    rw [hl]
    cases lt (Rule.zScore window bars last.close) (lit 0 - k) <;> rfl
  have hsome : acct.lots ≠ [] → (Rule.dip window k exitZ stop).decide history bars acct capital mayBuy =
      if lt exitZ (Rule.zScore window bars last.close) ||
          ((Rule.dip window k exitZ stop).levels bars acct).2.2.any fun s => lt last.close s then
        (List.range acct.lots.length).map .sell else [] := by
    intro hl
    obtain ⟨lot, rest, hlots⟩ := List.exists_cons_of_ne_nil hl
    have hempty : acct.lots.isEmpty = false := by rw [hlots]; rfl
    have hstop : (((Rule.dip window k exitZ stop).levels bars acct).2.2.any fun s => lt last.close s) =
        stop.any fun s => lt last.close (lot.price * (lit 1 - s)) := by
      rw [hlev, hlots]
      cases stop <;> rfl
    rw [hdec, hstop, hlots]
    show Rule.allIn acct mayBuy _ = _
    unfold Rule.allIn
    rw [hempty, ← hlots]
    generalize (lt exitZ _ || _) = out
    cases out <;> rfl
  refine ⟨fun hl hsd level hlevel hfin => ?_, fun hl hsd => ?_, fun hl hs => ?_, fun hl hs hsd level hlevel hfin => ?_,
    fun hl hs hsd => ?_⟩
  · rw [hlev] at hlevel
    obtain rfl := Option.some.inj hlevel
    obtain ⟨m, p, hm, hp, hr⟩ := Binary64.value_sub hfin
    obtain ⟨κ, σ, hκ, hσ, rfl⟩ := Binary64.value_mul hp
    have hround : f64.round (-κ * σ) = -f64.round (κ * σ) := by rw [neg_mul, Format.round_neg]
    have herr := (Binary64.sub_error hfin).2.2
    rw [Binary64.val_eq hm, Binary64.val_eq hp] at herr
    have hscore := @dip_score _ _ _ hlast hw hlen hsd _ (dipMean window bars - k * dipSd window bars) _ (neg_value hκ)
      (by rwa [Binary64.val_eq hσ, hround, ← sub_eq_add_neg, Binary64.val_eq hm]) (Binary64.isFinite_of hσ)
    simp only [slack_neg] at hscore
    rw [Binary64.val_eq hκ]
    exact ⟨fun h => by rw [hnone hl, if_pos (hscore.1 h)], fun h => by rw [hnone hl, hscore.2.1 h]; rfl⟩
  · have hz : Rule.zScore window bars last.close = lit 0 := by
      rw [zScore_eq, hsd]
      rfl
    rw [hnone hl, hz, zero_not_under hk]
    rfl
  · rw [hsome hl, hs, Bool.or_true]
    rfl
  · rw [hlev] at hlevel
    obtain rfl := Option.some.inj hlevel
    obtain ⟨m, p, hm, hp, hr⟩ := Binary64.value_add hfin
    obtain ⟨κ, σ, hκ, hσ, rfl⟩ := Binary64.value_mul hp
    have herr := (Binary64.add_error hfin).2.2
    rw [Binary64.val_eq hm, Binary64.val_eq hp] at herr
    have hscore := @dip_score _ _ _ hlast hw hlen hsd _ (dipMean window bars + exitZ * dipSd window bars) _ hκ
      (by rwa [Binary64.val_eq hσ, Binary64.val_eq hm]) (Binary64.isFinite_of hσ)
    simp only at hscore
    rw [Binary64.val_eq hκ]
    refine ⟨fun h => ?_, fun h => ?_⟩
    · rw [hsome hl, hscore.2.2.1 h]
      rfl
    · rw [hsome hl, hscore.2.2.2 h, hs]
      rfl
  · have hz : Rule.zScore window bars last.close = lit 0 := by
      rw [zScore_eq, hsd]
      rfl
    rw [hsome hl, hz, hs, Bool.or_false]

end Dip

/-- **A rule of one price acts at the levels it shows**: a grid exactly, a dip
rule under and above them, but for rounding and where there is no deviation. -/
theorem levels_acted_on (history : ℕ) (rule : Rule Binary64) (hcheck : rule.check = .ok ()) (bars : List (Bar Binary64))
    (last : Bar Binary64) (hlast : bars.getLast? = some last) (acct : Account Binary64) (capital : Binary64)
    (mayBuy : Bool) :
    match rule with
    | .grid step lots => GridActs history step lots bars last.close acct capital mayBuy
    | .dip window k exitZ stop =>
      if window ≤ bars.length then DipActs history window k exitZ stop bars last.close acct capital mayBuy
      else rule.levels bars acct = (none, none, none) ∧ rule.decide history bars acct capital mayBuy = []
    | _ => rule.levels bars acct = (none, none, none) := by
  cases rule with
  | grid step lots => exact grid_acts hlast
  | dip window k exitZ stop =>
    have hc : ¬ (window < 2 ∨ le k (lit 0) ∨ stop.any fun s => le s (lit 0)) := by
      intro h
      have herr : (Rule.dip window k exitZ stop).check = .error _ := if_pos h
      rw [herr] at hcheck
      exact nomatch hcheck
    simp only [not_or, Bool.not_eq_true] at hc
    by_cases hlen : window ≤ bars.length
    · simp only [if_pos hlen]
      exact dip_acts hc.2.1 hlast (by omega) hlen
    · simp only [if_neg hlen]
      refine ⟨if_neg hlen, ?_⟩
      unfold Rule.decide
      rw [hlast]
      exact if_pos (by show bars.length < window; omega)
  | _ => rfl

/-! ### Two bars -/

def barOf (close : ℚ) : Bar Binary64 := ⟨0, lit close, lit close, lit close, lit close, lit 1⟩

/-- A dip of one deviation of two bars. -/
def dipOfTwo : Rule Binary64 := .dip 2 (lit 1) (lit 0) none

def cashOf (usd : ℚ) : Account Binary64 := { Account.empty with cash := lit usd }

/-- Two bars that closed at 100 have no deviation: the close is at the buy level and nothing is bought. Nor is
anything while a lot is held, however far the close is under the level. -/
theorem levels_not_enough :
    ((dipOfTwo.levels [barOf 100, barOf 100] (cashOf 10)).1.map fun b => le (lit 100) b) = some true ∧
    (dipOfTwo.decide 1 [barOf 100, barOf 100] (cashOf 10) (lit 10) true).length = 0 ∧
    (((Rule.dip 2 (lit (1 / 2)) (lit 0) none : Rule Binary64).levels [barOf 100, barOf 98]
      ((cashOf 10).bought (lit 5) (lit (1 / 20)) 0 (lit 100))).1.map fun b => lt (lit 98) b) = some true ∧
    (((Rule.dip 2 (lit (1 / 2)) (lit 0) none : Rule Binary64).decide 1 [barOf 100, barOf 98]
      ((cashOf 10).bought (lit 5) (lit (1 / 20)) 0 (lit 100)) (lit 10) true).length) = 0 := by
  decide +kernel

/-- A dip of half a deviation, with 10 USD: bars that closed at 100 and 98. -/
theorem levels_acted_on_dip :
    let rule : Rule Binary64 := .dip 2 (lit (1 / 2)) (lit 0) none
    rule.check = .ok () ∧ DipActs 1 2 (lit (1 / 2)) (lit 0) none [barOf 100, barOf 98] (lit 98) (cashOf 10) (lit 10) true := by
  have hc : (Rule.dip 2 (lit (1 / 2)) (lit 0) none : Rule Binary64).check = .ok () := by decide +kernel
  refine ⟨hc, ?_⟩
  exact levels_acted_on 1 _ hc [barOf 100, barOf 98] (barOf 98) rfl (cashOf 10) (lit 10) true

end Lab
end MobiusSearcher
