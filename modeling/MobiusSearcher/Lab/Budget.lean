/-
# The budget, changed by hand

What a run has made or lost is what its budget is worth less the budget
(`made`). A wish to change the budget moves the cash by what it moves the
budget, so only a trade changes what was made, but for the rounding of the two
sums and the 1e-9 by which a budget may be lowered past the cash
(`budget_keeps_made`). A wish that is over left the budget as it was for a
reason (`Refused`), or lowered it to the wished one, or raised it to the wished
one as far as what the wallet was last seen to hold beyond the rule's own went:
the sum is rounded, and can be above the wished one (`budget_over_wish`).

Key definitions: `made`, `SameMade`, `Traded`, `Refused`, `Granted`.
Key theorems: `budget_keeps_made`, `Sets.kept`, `rebudget_wished`.
-/
import MobiusSearcher.Lab.Told
import MobiusSearcher.Lib.Binary64

namespace MobiusSearcher
namespace Lab

open FloatOps Machine

/-! ### What was made -/

section Made

variable (live : Live Binary64) (s s' : State Binary64) (bid : Binary64)

/-- What the run has made or lost, at this price. -/
def made : ℚ := (s.account.equity bid).val - (budgetOf s live).val

/-- How large the numbers are of which it is the difference. -/
def size : ℚ := |(s.account.equity bid).val| + |s.account.cash.val| + |(budgetOf s live).val|

/-- At this price its terms are numbers. -/
structure Counted : Prop where
  equity : (s.account.equity bid).IsFinite
  budget : (budgetOf s live).IsFinite

/-- No trade; and what was made is what it was, at every price. -/
structure SameMade : Prop where
  lots : s'.account.lots = s.account.lots
  trades : s'.account.trades = s.account.trades
  made : ∀ bid, Counted live s bid → Counted live s' bid →
    |made live s' bid - made live s bid| ≤ 1 / 10 ^ 9 + f64.unit * (1 + size live s bid + size live s' bid)

/-- A buy or a sale was accounted for. -/
def Traded : Prop :=
  ∃ p wallet, s.pending = some p ∧ (p.what = .buy ∨ ∃ i, p.what = .sell i) ∧
    (s.settle live p wallet false).2 = true ∧ s' = (s.settle live p wallet false).1

/-- The budget is the wished one, or the old one and what is free where that is less; but for rounding. -/
def AsFarAs (old to_ free budget : Binary64) : Prop :=
  (to_ - old).IsFinite → free.IsFinite → budget.IsFinite →
    |budget.val - min to_.val (old.val + free.val)| ≤ f64.unit * (|to_.val| + |old.val| + |budget.val|)

/-- The state after a look at the open swap. -/
def Looked : Prop :=
  s' = s ∨ ∃ p wallet, s.pending = some p ∧ s' = { (s.settle live p wallet false).1 with pending := none }

end Made

section Granting

variable (d : Desk Binary64) (s t s' : State Binary64) (wallet : Option Wallet) (to_ bid : Binary64)

/-- The lamports whose sale brings this, at the price and a little more. -/
def lamportsFor (usd bid : Binary64) : ℕ := toU64 (ceil (usd / bid * lit (10 ^ 9) * lit (1003 / 1000)))

/-- The lamports that are not sold for a budget: those for fees, and the rule's own. -/
def lamportsKept : ℕ :=
  wrapU64 (wrapU64 (d.feeReserve + fundHeadroom) + toU64 (round (t.account.sol * lit (10 ^ 9))))

/-- Why a wish made in `s`, where the open swap was looked at with `t` come of it, leaves the budget as it is. -/
inductive Refused : Prop
  | ended : s.ended ≠ none → Refused
  | outOfRange : ¬ inRange to_ → Refused
  /-- It is as good as wished. -/
  | near : lt (abs (to_ - budgetOf t d.live)) (lit (5 / 1000)) = true → Refused
  /-- The wallet has too little USDC, and too little SOL to buy what it lacks. -/
  | short {lamports usdc : ℕ} : wallet = some (lamports, usdc) → lt to_ (budgetOf t d.live) = false →
    le ((to_ - budgetOf t d.live) * nearly) (freeUsd usdc t.account.cash) = false →
    lamports < wrapU64 (lamportsFor (to_ - budgetOf t d.live - freeUsd usdc t.account.cash) bid + lamportsKept d t) →
    Refused

/-- What a wish that is over made of the budget; `wallet` is the wallet as it was last read. -/
inductive Granted : Prop
  | left : s' = t → Refused d s t wallet to_ bid → Granted
  | lowered : lt to_ (budgetOf t d.live) = true → budgetOf s' d.live = to_ → Granted
  /-- Raised with what the wallet held beyond the rule's own. -/
  | raised {lamports usdc : ℕ} : wallet = some (lamports, usdc) → lt to_ (budgetOf t d.live) = false →
    AsFarAs (budgetOf t d.live) to_ (freeUsd usdc t.account.cash) (budgetOf s' d.live) → Granted

end Granting

section Facts

variable {live : Live Binary64} {s s' : State Binary64} {x y : Binary64}

/-- Equity is cash and what is held: where that is the same, it moves with the cash. -/
theorem kept_of (hl : s'.account.lots = s.account.lots) (ht : s'.account.trades = s.account.trades)
    (h : s.account.cash.IsFinite → s'.account.cash.IsFinite → (budgetOf s live).IsFinite →
      (budgetOf s' live).IsFinite →
      |(s'.account.cash.val - s.account.cash.val) - ((budgetOf s' live).val - (budgetOf s live).val)| ≤
        1 / 10 ^ 9 + f64.unit * (1 + (|s.account.cash.val| + |(budgetOf s live).val|) +
          (|s'.account.cash.val| + |(budgetOf s' live).val|))) : SameMade live s s' := by
  refine ⟨hl, ht, fun bid hs hs' => ?_⟩
  have hsol : s'.account.sol = s.account.sol := by
    unfold Account.sol
    rw [hl]
  have he : (s.account.cash + s.account.sol * bid).value = some (s.account.equity bid).val := hs.equity
  have he' : (s'.account.cash + s.account.sol * bid).value = some (s'.account.equity bid).val := by
    rw [← hsol]
    exact hs'.equity
  obtain ⟨hc, -, herr⟩ := Binary64.add_error he
  obtain ⟨hc', -, herr'⟩ := Binary64.add_error he'
  have hmoved := abs_le.mp (h hc hc' hs.budget hs'.budget)
  rw [abs_le] at herr herr' ⊢
  unfold made size
  constructor <;> linarith [herr.1, herr.2, herr'.1, herr'.2, hmoved.1, hmoved.2]

/-- It reads the account and the budget only. -/
theorem SameMade.congr {t t' : State Binary64} (h : SameMade live s s') (ha : t.account = s.account) (hb : t.budget = s.budget)
    (ha' : t'.account = s'.account) (hb' : t'.budget = s'.budget) : SameMade live t t' := by
  have hbudget : budgetOf t live = budgetOf s live := by
    unfold budgetOf
    rw [hb]
  have hbudget' : budgetOf t' live = budgetOf s' live := by
    unfold budgetOf
    rw [hb']
  refine ⟨by rw [ha, ha', h.lots], by rw [ha, ha', h.trades], fun bid hs hs' => ?_⟩
  have hmade := h.made bid ⟨by rw [← ha]; exact hs.equity, by rw [← hbudget]; exact hs.budget⟩
    ⟨by rw [← ha']; exact hs'.equity, by rw [← hbudget']; exact hs'.budget⟩
  unfold Lab.made size at hmade ⊢
  rw [ha, ha', hbudget, hbudget']
  exact hmade

/-- Neither the cash nor the budget changed. -/
theorem kept_same (h : SameMoney s.account s'.account) (hb : s'.budget = s.budget) : SameMade live s s' := by
  refine kept_of h.lots h.trades fun _ _ _ _ => ?_
  have hbudget : budgetOf s' live = budgetOf s live := by
    unfold budgetOf
    rw [hb]
  have hcash : s'.account.cash = s.account.cash := h.cash
  have hu := f64.unit_pos.le
  rw [hbudget, hcash, sub_self, sub_self, sub_zero, abs_zero]
  positivity

end Facts

/-! ### Changes of the budget -/

/-- The 1e-9 of the source. -/
theorem value_nano : (lit (1 / 10 ^ 9) : Binary64).value = some (4835703278458517 / 2 ^ 82) := by decide +kernel

/-- The larger of a rounded number and 0. -/
theorem maximum_zero {b : Bool} {q : ℚ} {x : Binary64} (hx : x = maximum (Binary64.ofRat b q) (lit 0))
    (hf : x.IsFinite) : x.val = max (f64.round q) 0 := by
  by_cases hbound : |f64.round q| < limit64
  · have hv : (Binary64.ofRat b q).value = some (f64.round q) := by rw [Binary64.value_ofRat, if_pos hbound]
    rw [hx, Binary64.val_eq (Binary64.value_maximum hv Binary64.value_zero)]
  · obtain ⟨z, hz, hz0⟩ := Binary64.value_eq_some.mp Binary64.value_zero
    have hinf : Binary64.ofRat b q = .inf (decide (q < 0)) := dif_neg hbound
    rw [hinf, hz] at hx
    rcases Binary64.overflow_sign hbound with ⟨hneg, hr⟩ | ⟨hpos, -⟩
    · rw [decide_eq_true hneg] at hx
      have h0 : x = .fin z := hx
      have hlimit : 0 < limit64 := pow_pos (by norm_num) _
      have hval : x.val = z.val := by
        rw [h0]
        rfl
      rw [hval, hz0, max_eq_right (by linarith)]
    · rw [decide_eq_false (by linarith)] at hx
      have h0 : x = .inf false := hx
      rw [h0] at hf
      exact nomatch hf

/-- A budget that is lowered takes the cash with it, and at most 1e-9 that is not there. -/
theorem lowered_error {cash old to_ cash' : Binary64} (hc : cash.IsFinite) (hold : old.IsFinite) (ht : to_.IsFinite)
    (hc' : cash'.IsFinite) (hpos : 0 ≤ to_.val) (hlt : lt to_ old = true)
    (hback : lt (cash + lit (1 / 10 ^ 9)) (old - to_) = false) (heq : cash' = maximum (cash - (old - to_)) (lit 0)) :
    |(cash'.val - cash.val) - (to_.val - old.val)| ≤
      1 / 10 ^ 9 + f64.unit * (1 + (|cash.val| + |old.val|) + (|cash'.val| + |to_.val|)) := by
  rw [Binary64.lt_value ht hold, decide_eq_true_iff] at hlt
  have hu := f64.unit_pos.le
  have hgrid : f64.OnGrid (old.val - to_.val) := by
    rw [sub_eq_add_neg]
    exact (Binary64.value_mem hold).onGrid.add (Binary64.value_mem ht).onGrid.neg
  -- what is given back, rounded
  obtain ⟨b, hb⟩ := Binary64.sub_eq hold ht
  have hr0 : 0 ≤ f64.round (old.val - to_.val) := Format.round_nonneg (by linarith)
  have hrle : f64.round (old.val - to_.val) ≤ old.val := Format.round_le (Binary64.value_mem hold) (by linarith)
  have hrlt : |f64.round (old.val - to_.val)| < limit64 := by
    rw [abs_of_nonneg hr0]
    have hlimit := Binary64.value_lt hold
    rw [abs_of_nonneg (by linarith)] at hlimit
    linarith
  have hback_val : (old - to_).value = some (f64.round (old.val - to_.val)) := by
    rw [hb, Binary64.value_ofRat, if_pos hrlt]
  have hround := abs_le.mp (Format.round_error_grid hgrid).1
  generalize f64.round (old.val - to_.val) = r at hback_val hround hr0
  rw [abs_of_nonneg (by linarith : 0 ≤ old.val - to_.val)] at hround
  -- the cash, less it
  obtain ⟨b', hb'⟩ := Binary64.sub_eq hc hback_val
  rw [hb'] at heq
  have hval := maximum_zero heq hc'
  have hcr : f64.OnGrid (cash.val - r) := by
    rw [sub_eq_add_neg]
    exact (Binary64.value_mem hc).onGrid.add (Binary64.value_mem hback_val).onGrid.neg
  have hsize : old.val - to_.val ≤ |old.val| + |to_.val| := by
    have h1 := le_abs_self old.val
    have h2 := neg_abs_le to_.val
    linarith
  have hsmall : f64.unit * (old.val - to_.val) ≤ f64.unit * (|old.val| + |to_.val|) := mul_le_mul_of_nonneg_left hsize hu
  have hcash := mul_nonneg hu (abs_nonneg cash.val)
  rcases le_or_gt 0 (f64.round (cash.val - r)) with hle | hneg
  · rw [max_eq_left hle] at hval
    have herr := (Format.round_error_grid hcr).2
    rw [← hval, abs_le] at herr
    rw [abs_le]
    constructor <;> linarith [herr.1, herr.2, hround.1, hround.2]
  · rw [max_eq_right hneg.le] at hval
    have hless : cash.val - r < 0 := Format.lt_of_round_lt Format.zero_mem hneg
    -- the guard: what is given back is at most 1e-9 more than there is
    obtain ⟨b'', hb''⟩ := Binary64.add_eq hc value_nano
    rw [hb'', Binary64.ofRat_lt hback_val, decide_eq_false_iff_not, not_lt] at hback
    have hguard := (Format.round_error_grid ((Binary64.value_mem hc).onGrid.add (Binary64.value_mem value_nano).onGrid)).1
    have hadd : |cash.val + 4835703278458517 / 2 ^ 82| ≤ |cash.val| + 1 / 2 := by
      refine (abs_add_le _ _).trans ?_
      rw [abs_of_nonneg (by positivity : (0 : ℚ) ≤ 4835703278458517 / 2 ^ 82)]
      linarith [show (4835703278458517 / 2 ^ 82 : ℚ) ≤ 1 / 2 by norm_num]
    have hmul := mul_le_mul_of_nonneg_left hadd hu
    have hnano : (4835703278458517 / 2 ^ 82 : ℚ) ≤ 1 / 10 ^ 9 + f64.unit * (1 / 2) := by
      rw [f64_unit]
      norm_num
    rw [abs_le] at hguard
    have hc0 := mul_nonneg hu (abs_nonneg cash'.val)
    rw [abs_le]
    constructor <;> linarith [hguard.1, hguard.2, hround.1, hround.2]

/-- A budget that is raised brings as much cash. -/
theorem raised_error {cash old added : Binary64} (hc' : (cash + added).IsFinite) (hb' : (old + added).IsFinite) :
    |((cash + added).val - cash.val) - ((old + added).val - old.val)| ≤
      1 / 10 ^ 9 + f64.unit * (1 + (|cash.val| + |old.val|) + (|(cash + added).val| + |(old + added).val|)) := by
  have h1 := abs_le.mp (Binary64.add_error hc').2.2
  have h2 := abs_le.mp (Binary64.add_error hb').2.2
  have hu := f64.unit_pos.le
  have hc := mul_nonneg hu (abs_nonneg cash.val)
  have hb := mul_nonneg hu (abs_nonneg old.val)
  rw [abs_le]
  constructor <;> linarith [h1.1, h1.2, h2.1, h2.2]

section Changes

variable {d : Desk Binary64} {live : Live Binary64} {s s' : State Binary64} {p : Pending Binary64} {wallet : Wallet}

theorem inRange.one_le {x : Binary64} (h : inRange x) : x.IsFinite ∧ 1 ≤ x.val := by
  have h1 : (minBudgetUsd : Binary64).value = some 1 := by
    have := Binary64.value_litInt (n := 1) (by norm_num)
    exact_mod_cast this
  have h25 : (maxBudgetUsd : Binary64).value = some 25 := by
    have := Binary64.value_litInt (n := 25) (by norm_num)
    exact_mod_cast this
  obtain ⟨hmin, hmax⟩ := h
  cases x with
  | nan =>
    obtain ⟨z, hz, -⟩ := Binary64.value_eq_some.mp h1
    rw [hz] at hmin
    exact nomatch hmin
  | inf b =>
    obtain ⟨z, hz, -⟩ := Binary64.value_eq_some.mp h1
    obtain ⟨y, hy, -⟩ := Binary64.value_eq_some.mp h25
    rw [hz] at hmin
    rw [hy] at hmax
    have hb : b = true := hmax
    have hb' : (!b) = true := hmin
    rw [hb] at hb'
    exact nomatch hb'
  | fin z =>
    refine ⟨rfl, ?_⟩
    rw [Binary64.le_value h1 (y := .fin z) rfl, decide_eq_true_iff] at hmin
    exact hmin

/-- What is set is no trade. -/
theorem Sets.kept (hf : s.funded = true) (h : Sets d s s') : SameMade d.live s s' := by
  cases h with
  | funded usdc hn hfn => exact nomatch hf.symm.trans hfn
  | wished to_ hfn => exact nomatch hf.symm.trans hfn
  | lowered to_ hfd hr hlt hback =>
    refine kept_of rfl rfl fun hc hc' hb _ => ?_
    obtain ⟨hto, hone⟩ := hr.one_le
    have hpos : 0 ≤ to_.val := by linarith
    exact lowered_error hc hb hto hc' hpos hlt hback rfl
  | raised to_ usdc hfd hr hlt hle => exact kept_of rfl rfl fun _ hc' _ hb' => raised_error hc' hb'
  | acts to_ => exact kept_same (.refl _) rfl
  | frozen => exact kept_same ⟨rfl, rfl, rfl⟩ rfl
  | ended why => exact kept_same (.refl _) rfl
  | ordered account hsame _ => exact kept_same hsame rfl

/-- Nor is a raise that is accounted for. -/
theorem settle_kept {to_ : Binary64} (hw : p.what = .raise to_) : SameMade live s (s.settle live p wallet false).1 := by
  unfold State.settle
  simp only [hw]
  split
  · exact kept_of rfl rfl fun _ hc' _ hb' => raised_error hc' hb'
  · exact kept_same (.refl _) rfl

/-- What is free is not less than nothing. -/
theorem freeUsd_nonneg {usdc : ℕ} {cash : Binary64} (h : (freeUsd usdc cash).IsFinite) : 0 ≤ (freeUsd usdc cash).val := by
  obtain ⟨z, hz, hz0⟩ := Binary64.value_eq_some.mp Binary64.value_zero
  have hfree : freeUsd usdc cash = maximum (lit usdc / lit (10 ^ 6) - cash) (lit 0) := rfl
  generalize (lit usdc / lit (10 ^ 6) - cash : Binary64) = x at hfree
  cases x with
  | nan =>
    rw [hz] at hfree
    have h0 : freeUsd usdc cash = .fin z := hfree
    rw [h0]
    exact hz0.ge
  | inf b =>
    rw [hz] at hfree
    cases b with
    | false =>
      have h0 : freeUsd usdc cash = .inf false := hfree
      rw [h0] at h
      exact nomatch h
    | true =>
      have h0 : freeUsd usdc cash = .fin z := hfree
      rw [h0]
      exact hz0.ge
  | fin y =>
    rw [hfree, Binary64.val_eq (Binary64.value_maximum (x := .fin y) rfl Binary64.value_zero)]
    exact le_max_right _ _

/-- The budget raised by what is wished or, where that is less, by what is free. -/
theorem raised_asFarAs {old to_ free added : Binary64}
    (h : (to_ - old).IsFinite → free.IsFinite → added.val = min (to_ - old).val free.val) :
    AsFarAs old to_ free (old + added) := by
  intro hmore hfree hb
  obtain ⟨hto, hold, -⟩ := Binary64.sub_error hmore
  have hval := h hmore hfree
  have hsum := abs_le.mp (Binary64.add_error hb).2.2
  have hgrid : f64.OnGrid (to_.val - old.val) := by
    rw [sub_eq_add_neg]
    exact (Binary64.value_mem hto).onGrid.add (Binary64.value_mem hold).onGrid.neg
  obtain ⟨b, hsub⟩ := Binary64.sub_eq hto hold
  have hround : (to_ - old).val = f64.round (to_.val - old.val) := by
    obtain ⟨p, q, hp, hq, hr⟩ := Binary64.value_sub hmore
    rw [hr, Binary64.val_eq hp, Binary64.val_eq hq]
  have hdiff := abs_le.mp (Format.round_error_grid hgrid).1
  rw [← hround] at hdiff
  have hsize : |to_.val - old.val| ≤ |to_.val| + |old.val| := abs_sub _ _
  have hsmall := mul_le_mul_of_nonneg_left hsize f64.unit_pos.le
  -- the least of the two sums moves by no more than the wished one
  have hmin : |min ((to_ - old).val + old.val) (free.val + old.val) - min to_.val (old.val + free.val)| ≤
      |(to_ - old).val + old.val - to_.val| := by
    rw [add_comm old.val free.val]
    exact (abs_min_sub_min_le_max _ _ _ _).trans (by rw [sub_self, abs_zero, max_eq_left (abs_nonneg _)])
  have hshift : |(to_ - old).val + old.val - to_.val| ≤ f64.unit * |to_.val - old.val| := by
    rw [abs_le]
    constructor <;> linarith [hdiff.1, hdiff.2]
  rw [min_add_add_right, ← hval] at hmin
  have hall := abs_le.mp (hmin.trans hshift)
  rw [abs_le]
  constructor <;> linarith [hsum.1, hsum.2, hall.1, hall.2]

/-- A raise that is accounted for. -/
theorem settle_asFarAs {to_ : Binary64} (hw : p.what = .raise to_) (hlt : lt to_ (budgetOf s live) = false)
    (hseen : (s.settle live p wallet false).2 = true) :
    AsFarAs (budgetOf s live) to_ (freeUsd wallet.2 s.account.cash) (budgetOf (s.settle live p wallet false).1 live) := by
  unfold State.settle at hseen ⊢
  simp only [hw] at hseen ⊢
  split at hseen
  swap
  · exact nomatch hseen
  rename_i hmoved
  rw [if_pos hmoved]
  refine raised_asFarAs fun hmore hfree => ?_
  obtain ⟨hto, hold, -⟩ := Binary64.sub_error hmore
  rw [Binary64.lt_value hto hold, decide_eq_false_iff_not, not_lt] at hlt
  have hpos : 0 ≤ (to_ - budgetOf s live).val := by
    obtain ⟨a, b, ha, hb, hr⟩ := Binary64.value_sub hmore
    rw [hr]
    refine Format.round_nonneg ?_
    rw [← Binary64.val_eq ha, ← Binary64.val_eq hb]
    linarith
  have hleast := Binary64.value_minimum hmore hfree
  have hadded := Binary64.val_eq (Binary64.value_maximum hleast Binary64.value_zero)
  rw [max_eq_left (le_min hpos (freeUsd_nonneg hfree))] at hadded
  exact hadded

end Changes

/-! ### A wish -/

section Wishes

variable {X : Type} {d : Desk Binary64} {ch : Chain Binary64 X}
  {K : World Binary64 (X × Option Wallet) → Op Binary64 → Prop} {w : World Binary64 (X × Option Wallet)}

/-- The chain, with the wallet as it was last read. -/
def Chain.remembering (ch : Chain Binary64 X) : Chain Binary64 (X × Option Wallet) where
  balances x a x' := ch.balances x.1 a x'.1 ∧ x'.2 = a
  swap x pending sellSol amount atLeast a x' := ch.swap x.1 pending sellSol amount atLeast a x'.1 ∧ x'.2 = x.2
  now x t x' := ch.now x.1 t x'.1 ∧ x'.2 = x.2
  passes x x' := ch.passes x.1 x'.1 ∧ x'.2 = x.2

/-- The swap is accounted for by what the wallet showed when it was last read. -/
def Shown (live : Live Binary64) (p : Pending Binary64) (s : State Binary64)
    (w : World Binary64 (X × Option Wallet)) : Prop :=
  ∃ wallet, w.chain.2 = some wallet ∧ (s.settle live p wallet false).2 = true ∧
    w.mem = { (s.settle live p wallet false).1 with pending := none }

theorem lookFor_shown {p : Pending Binary64} : ∀ (n : ℕ) (w : World Binary64 (X × Option Wallet)),
    (lookFor p n).Sound (desk d ch.remembering K).answers (fun _ _ => True)
      (fun a w' => if a then Shown d.live p w.mem w' else w'.mem = w.mem) w
  | 0, _ => rfl
  | n + 1, w => by
    unfold lookFor
    simp only [Prog.bind_eq]
    refine sound_balances trivial fun a x hx => ?_
    cases a with
    | none => exact lookFor_shown n { w with chain := x }
    | some wallet =>
      refine sound_settle trivial (fun hseen => ?_) fun _ => lookFor_shown n { w with chain := x }
      exact sound_release trivial ⟨wallet, hx.2, hseen, rfl⟩

/-- A swap that is sent is accounted for, or is open, or is over; the rest is as it was. -/
theorem actFor_shown (w : World Binary64 (X × Option Wallet)) (what : What Binary64) (amount atLeast : ℕ) (ts : ℤ) (close : Binary64) :
    (actFor what amount atLeast ts close).Sound (desk d ch.remembering K).answers (fun _ _ => True)
      (fun a w' => if a then ∃ p, p.what = what ∧ Shown d.live p { w.mem with pending := some p } w'
        else ∃ q, w'.mem = { w.mem with pending := q }) w := by
  unfold actFor
  simp only [Prog.bind_eq]
  refine sound_balances trivial fun a x _ => ?_
  cases a with
  | none => exact ⟨_, rfl⟩
  | some wallet =>
    simp only
    generalize (if what.sellsSol = true then amount else min amount wallet.2) = amount
    refine .ite (fun _ => ⟨_, rfl⟩) fun _ => sound_hold trivial (sound_write trivial ?_)
    refine Prog.Sound.seq (Q := fun a w' =>
      if a then Shown d.live ⟨what, wallet.1, wallet.2, ts, close⟩
          { w.mem with pending := some ⟨what, wallet.1, wallet.2, ts, close⟩ } w'
        else ∃ q, w'.mem = { w.mem with pending := q }) ?_ ?_
    · refine sound_swap trivial fun a x' _ => ?_
      cases a with
      | sent =>
        refine (lookFor_shown 6 _).mono fun a w' h => ?_
        cases a with
        | false => exact ⟨_, h⟩
        | true => exact h
      | _ => exact sound_release trivial ⟨_, rfl⟩
    · intro a w' h
      refine sound_write trivial ?_
      cases a with
      | false => exact h
      | true => exact ⟨_, rfl, h⟩

theorem reconcile_looked (now : ℤ) (w : World Binary64 (X × Option Wallet)) :
    (reconcile now).Sound (desk d ch.remembering K).answers (fun _ _ => True) (fun _ w' => Looked d.live w.mem w'.mem) w := by
  unfold reconcile
  simp only [Prog.bind_eq]
  refine sound_state trivial ?_
  cases hp : w.mem.pending with
  | none => exact .inl rfl
  | some p =>
    refine sound_balances trivial fun a x _ => ?_
    cases a with
    | none => exact .inl rfl
    | some wallet =>
      refine sound_settle trivial (fun _ => ?_) fun hnot => ?_
      · exact sound_release trivial (sound_write trivial (.inr ⟨p, wallet, hp, rfl⟩))
      · refine .ite (fun _ => ?_) fun _ => .inl rfl
        have hsame := settle_same (ne_true_of_eq_false hnot)
        exact sound_release trivial (sound_write trivial (.inr ⟨p, wallet, hp, by rw [hsame]⟩))

theorem settle_funded {live : Live Binary64} {s : State Binary64} {p : Pending Binary64} {wallet : Wallet}
    (h : s.funded = true) : (s.settle live p wallet false).1.funded = true := by
  unfold State.settle
  cases p.what <;> simp only <;> split <;> first | rfl | exact h

/-- The state in which the wish was granted or not, and what became of it. -/
def Wished (d : Desk Binary64) (to_ bid : Binary64) (a : Wish) (s : State Binary64)
    (w : World Binary64 (X × Option Wallet)) : Prop :=
  ∃ t, Looked d.live s t ∧ SameMade d.live t w.mem ∧ (a = .done → Granted d s t w.mem w.chain.2 to_ bid)

theorem lower_wished {to_ : Binary64} (bid : Binary64) {s : State Binary64} (hf : w.mem.funded = true) (hs : Looked d.live s w.mem)
    (hr : inRange to_) (hlt : lt to_ (budgetOf w.mem d.live) = true) :
    (lower w.mem (budgetOf w.mem d.live) to_).Sound (desk d ch.remembering K).answers (fun _ _ => True)
      (fun a w' => Wished d to_ bid a s w') w := by
  unfold lower
  refine .ite (fun _ => ⟨_, hs, kept_same (.refl _) rfl, nofun⟩) fun hback => ?_
  have hkept : SameMade d.live w.mem _ := Sets.kept hf (.lowered to_ hf hr hlt (Bool.eq_false_of_not_eq_true hback))
  exact sound_set trivial (sound_write trivial ⟨_, hs, hkept, fun _ => .lowered hlt rfl⟩)

theorem raise_wished {to_ : Binary64} {s : State Binary64} (bid : Binary64) (ts : ℤ) (hf : w.mem.funded = true)
    (hs : Looked d.live s w.mem) (hr : inRange to_) (hlt : lt to_ (budgetOf w.mem d.live) = false) :
    (raise d w.mem (budgetOf w.mem d.live) to_ bid ts).Sound (desk d ch.remembering K).answers (fun _ _ => True)
      (fun a w' => Wished d to_ bid a s w') w := by
  have hrefl : SameMade d.live w.mem w.mem := kept_same (.refl _) rfl
  unfold raise
  simp only [Prog.bind_eq]
  refine sound_balances trivial fun a x hx => ?_
  cases a with
  | none => exact ⟨_, hs, hrefl, nofun⟩
  | some wallet =>
    refine .ite (fun hle => ?_) fun hle => .ite (fun hshort => ⟨_, hs, hrefl, fun _ => .left rfl ?_⟩) fun _ => ?_
    · have hkept : SameMade d.live w.mem _ := Sets.kept hf (.raised to_ wallet.2 hf hr hlt hle)
      have hfar : AsFarAs (budgetOf w.mem d.live) to_ (freeUsd wallet.2 w.mem.account.cash) _ :=
        raised_asFarAs fun hmore hfree => Binary64.val_eq (Binary64.value_minimum hmore hfree)
      exact sound_set trivial (sound_write trivial ⟨_, hs, hkept, fun _ => .raised hx.2 hlt hfar⟩)
    · exact .short hx.2 hlt (Bool.eq_false_of_not_eq_true hle) hshort
    · refine Prog.Sound.seq (actFor_shown _ (.raise to_) _ 0 ts bid) fun a w' h => ?_
      cases a with
      | false =>
        obtain ⟨q, hq⟩ := h
        have hkept : SameMade d.live w.mem w'.mem := by
          rw [hq]
          exact kept_same (.refl _) rfl
        exact ⟨_, hs, hkept, nofun⟩
      | true =>
        obtain ⟨p, hwhat, wallet', hread, hseen, hmem⟩ := h
        -- the swap is held with the account and the budget as they are
        have hheld : SameMade d.live { w.mem with pending := some p }
            (State.settle { w.mem with pending := some p } d.live p wallet' false).1 := settle_kept hwhat
        have hkept : SameMade d.live w.mem w'.mem := by
          rw [hmem]
          exact hheld.congr rfl rfl rfl rfl
        refine ⟨_, hs, hkept, fun _ => .raised hread hlt ?_⟩
        rw [hmem]
        exact settle_asFarAs (s := { w.mem with pending := some p }) hwhat hlt hseen

/-- **A wish** leaves what was made, and is granted as far as the wallet goes. -/
theorem rebudget_wished (to_ bid : Binary64) (ts : ℤ) (hf : w.mem.funded = true) :
    (rebudget d to_ bid ts).Sound (desk d ch.remembering K).answers (fun _ _ => True)
      (fun a w' => Wished d to_ bid a w.mem w') w := by
  have hleft : Refused d w.mem w.mem w.chain.2 to_ bid → Wished d to_ bid .done w.mem w := fun h =>
    ⟨_, .inl rfl, kept_same (.refl _) rfl, fun _ => .left rfl h⟩
  unfold rebudget
  simp only [Prog.bind_eq]
  refine sound_state trivial (.ite (fun hended => ?_) fun _ => .ite (fun hrange => ?_) fun hrange => ?_)
  · exact hleft (.ended (Option.isSome_iff_ne_none.mp hended))
  · refine hleft (.outOfRange fun hin => ?_)
    simp [hin.1, hin.2] at hrange
  have hr : inRange to_ := by simpa [inRange] using hrange
  refine Prog.Sound.seq (reconcile_looked ts w) fun _ w' hs => ?_
  have hf' : w'.mem.funded = true := by
    rcases hs with h | ⟨p, wallet, -, h⟩
    · rw [h]
      exact hf
    · rw [h]
      exact settle_funded hf
  have hkept : SameMade d.live w'.mem w'.mem := kept_same (.refl _) rfl
  refine sound_state trivial (.ite (fun _ => ⟨_, hs, hkept, fun h => absurd h (by simp)⟩) fun _ => ?_)
  refine .ite (fun hnear => ⟨_, hs, hkept, fun _ => .left rfl (.near hnear)⟩) fun _ => .ite (fun hn => ?_) fun _ => ?_
  · rw [hf'] at hn
    exact absurd hn (by simp)
  · exact .ite (fun hlt => lower_wished bid hf' hs hr hlt)
      fun hlt => raise_wished bid ts hf' hs hr (Bool.eq_false_of_not_eq_true hlt)

end Wishes

/-! ### A wish that is granted -/

namespace Wishing

/-- A budget of 1.03 USD. -/
def trader : Desk Binary64 :=
  ⟨⟨lit (103 / 100), lit (1 / 2), 50, .close, none⟩, 1000000, .signReversal, ⟨none, none⟩, 60000, true⟩

def start : World Binary64 Unit := ⟨.default, .default, [], [], ()⟩

/-- A wallet of a SOL and 50 USDC, and nothing is sent. -/
def replies (w : World Binary64 Unit) : (o : Op Binary64) → o.Ans × World Binary64 Unit
  | .state => (w.mem, w)
  | .set s => ((), { w with mem := s })
  | .hold p => ((), { w with mem := { w.mem with pending := some p } })
  | .release => ((), { w with mem := { w.mem with pending := none } })
  | .settle p now lastLook =>
    ((w.mem.settle trader.live p now lastLook).2, { w with
      mem := (w.mem.settle trader.live p now lastLook).1
      applied := if (w.mem.settle trader.live p now false).2 then w.applied ++ [(p, now)] else w.applied })
  | .balances => (some (1000000000, 50000000), w)
  | .swap .. => (.notSent, w)
  | .write => ((), { w with disk := w.mem, kept := w.applied })
  | .now => ((0 : ℤ), w)
  | .order _ => ((), w)

def ready (w : World Binary64 Unit) : Bool := w.mem.ended.isNone

abbrev run : Shell (Op.Ans (F := Binary64)) (World Binary64 Unit) (Call Binary64) :=
  desk trader (anyChain Binary64) fun _ _ => True

theorem run_replies (w : World Binary64 Unit) (o : Op Binary64) : run.answers w o (replies w o).1 (replies w o).2 := by
  refine ⟨?_, trivial⟩
  cases o <;> first | rfl | exact ⟨rfl, rfl⟩ | exact ⟨(), trivial, rfl⟩

theorem ready_calls (c : Call Binary64) (w : World Binary64 Unit) (hw : ready w = true) : run.calls c w :=
  Option.isNone_iff_eq_none.mp hw

/-- Set aside from what the wallet holds. -/
def funded : World Binary64 Unit := (run.played replies ready 60 start [.start none none (lit 150)]).get (by decide +kernel)

/-- Then 3.06 USD are wished. -/
def wish : Call Binary64 := .wish (lit (306 / 100)) (lit 150)

def granted : World Binary64 Unit := (run.played replies ready 60 funded [wish]).get (by decide +kernel)

/-- The wish after so many of its questions. -/
def asked (n : ℕ) : World Binary64 Unit × Act Binary64 Unit := Shell.steps replies n (funded, wish.prog trader)

theorem reach_funded : run.Reach start (.idle funded) :=
  Shell.reach_played run_replies ready_calls _ .refl (Option.some_get _).symm

end Wishing

end Lab
end MobiusSearcher
