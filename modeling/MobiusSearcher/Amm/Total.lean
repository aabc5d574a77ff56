/-
# Where the pool code fails

Every operation on a pool's accounts gives a value or none, or fails, and the
inputs it fails on are known. Naming the accounts and decoding fail where a
32-bit tick, array start or bin id would leave its type (`DependenciesFail`,
`DecodeFails`). A swap between ticks fails with a fee over one million
(`Clmm.Overcharges`), and where the outputs do not fit their sum, which takes a
price past the last tick's: up to there less than 64 bits of one token are paid
for one of the other (`Clmm.Earning`). A swap through bins fails with a base fee
past 128 bits (`Dlmm.FeeOverflows`), at a bin whose emptying input is past them
with the fee on top (`Dlmm.BinOverflows`), and where the clock is out of reach
of the last swap's time.

Key definitions: `Clmm.SwapFails`, `Dlmm.SwapFails`, `Pool.SwapFails`, `Total`.
Key theorems: `Clmm.swap_fails_iff`, `Dlmm.swap_fails_iff`, `total_iff`.
-/
import MobiusSearcher.Amm.Bounds

namespace MobiusSearcher
namespace Amm

open Checked

theorem ite_not_fails {α : Type} {c : Prop} [Decidable c] {x y : Checked α} (hx : ¬x.Fails) (hy : ¬y.Fails) :
    ¬(if c then x else y).Fails := by
  split
  · exact hx
  · exact hy

theorem pure_not_fails {α : Type} (a : α) : ¬(pure a : Checked α).Fails := not_fails_ok a

theorem mulDiv_not_fails {a b d : ℕ} (ha : a < 2 ^ 128) (hb : b < 2 ^ 128) (hd : d < 2 ^ 128) :
    ¬(mulDiv a b d).Fails := by
  rw [mulDiv_eq ha hb hd]
  exact ite_not_fails not_fails_none fit_not_fails

theorem mulDivUp_not_fails {a b d : ℕ} (ha : a < 2 ^ 128) (hb : b < 2 ^ 128) (hd : d < 2 ^ 128) :
    ¬(mulDivUp a b d).Fails := by
  rw [mulDivUp_eq ha hb hd]
  exact ite_not_fails not_fails_none fit_not_fails

/-! ### A step between ticks -/

theorem amountA_not_fails {x y l : ℕ} (hx : x < 2 ^ 128) (hy : y < 2 ^ 128) (hl : l < 2 ^ 128) (up : Bool) :
    ¬(amountA x y l up).Fails := by
  rw [amountA_eq hx hy hl]
  exact ite_not_fails not_fails_none fit_not_fails

theorem amountB_not_fails {x y l : ℕ} (hx : x < 2 ^ 128) (hy : y < 2 ^ 128) (hl : l < 2 ^ 128) (up : Bool) :
    ¬(amountB x y l up).Fails := by
  rw [amountB_eq hx hy hl]
  exact ite_not_fails not_fails_none fit_not_fails

theorem stepInput_cases {x l goal : ℕ} (hx : x < 2 ^ 128) (hl : l < 2 ^ 128) (hg : goal < 2 ^ 128) (aToB : Bool) :
    ¬(stepInput x l aToB goal).Fails ∧ ∀ v, stepInput x l aToB goal = .ok v → v < 2 ^ 128 := by
  unfold stepInput
  cases aToB
  · rw [if_neg (by decide)]
    refine ⟨amountB_not_fails hx hg hl _, fun v hv => ?_⟩
    rw [amountB_eq hx hg hl] at hv
    split at hv
    · exact absurd hv none_ne_ok
    · obtain ⟨hlt, rfl⟩ := fit_eq_ok.mp hv
      exact hlt
  · rw [if_pos rfl]
    refine ⟨amountA_not_fails hg hx hl _, fun v hv => ?_⟩
    rw [amountA_eq hg hx hl] at hv
    split at hv
    · exact absurd hv none_ne_ok
    · obtain ⟨hlt, rfl⟩ := fit_eq_ok.mp hv
      exact hlt

theorem stepOutput_not_fails {x l next : ℕ} (hx : x < 2 ^ 128) (hl : l < 2 ^ 128) (hn : next < 2 ^ 128) (aToB : Bool) :
    ¬(stepOutput x l aToB next).Fails := by
  unfold stepOutput
  exact ite_not_fails (amountB_not_fails hn hx hl _) (amountA_not_fails hx hn hl _)

theorem priceAfter_cases {x l a : ℕ} (hx : x < 2 ^ 128) (hl : l < 2 ^ 128) (ha : a < 2 ^ 128) (aToB : Bool) :
    ¬(priceAfter x l a aToB).Fails ∧ ∀ y, priceAfter x l a aToB = .ok y → y < 2 ^ 128 := by
  by_cases ha0 : a = 0
  · unfold priceAfter
    rw [if_pos ha0]
    refine ⟨not_fails_ok x, fun y hy => ?_⟩
    rw [← Except.ok.inj hy]
    exact hx
  rw [priceAfter_eq hx hl ha ha0]
  refine ⟨ite_not_fails (ite_not_fails not_fails_none fit_not_fails) (ite_not_fails not_fails_none fit_not_fails), ?_⟩
  intro y hy
  split at hy
  · split at hy
    · exact absurd hy none_ne_ok
    · obtain ⟨hlt, rfl⟩ := fit_eq_ok.mp hy
      exact hlt
  · split at hy
    · exact absurd hy none_ne_ok
    · obtain ⟨hlt, rfl⟩ := fit_eq_ok.mp hy
      exact hlt

/-- A step fails exactly where the input to its target is known and the fee is over one million. -/
theorem step_fails {aToB : Bool} {x target l remaining feePpm : ℕ} (hx : x < 2 ^ 128) (ht : target < 2 ^ 128)
    (hl : l < 2 ^ 128) (hr : remaining < 2 ^ 128) : (step x target l remaining feePpm aToB).Fails ↔
      ppm < feePpm ∧ ∃ input, stepInput x l aToB target = .ok input := by
  have hppm : ppm < 2 ^ 128 := by norm_num [ppm]
  unfold step
  rw [fails_bind_of (stepInput_cases hx hl ht aToB).1]
  constructor
  · rintro ⟨input, hinput, h⟩
    refine ⟨?_, input, hinput⟩
    by_contra hfee
    rw [not_lt] at hfee
    rw [sub_ok hfee, ok_bind, fails_bind_of (mulDiv_not_fails hr (by omega) hppm)] at h
    obtain ⟨left, hleft, h⟩ := h
    have hleft_lt : left < 2 ^ 128 := by
      rw [mulDiv_eq hr (by omega) hppm] at hleft
      split at hleft
      · exact absurd hleft none_ne_ok
      · obtain ⟨hlt, rfl⟩ := fit_eq_ok.mp hleft
        exact hlt
    obtain ⟨hafter, hafter_lt⟩ := priceAfter_cases hx hl hleft_lt aToB
    rw [fails_bind_of (ite_not_fails (pure_not_fails target) hafter)] at h
    obtain ⟨next, hnext, h⟩ := h
    have hnext_lt : next < 2 ^ 128 := by
      split at hnext
      · obtain rfl := Except.ok.inj hnext
        exact ht
      · exact hafter_lt next hnext
    have hinput_lt := (stepInput_cases hx hl ht aToB).2 input hinput
    obtain ⟨hspent, hspent_lt⟩ := stepInput_cases hx hl hnext_lt aToB
    simp only at h
    rw [fails_bind_of (ite_not_fails (pure_not_fails input) hspent)] at h
    obtain ⟨amountIn, hamount, h⟩ := h
    have hamount_lt : amountIn < 2 ^ 128 := by
      split at hamount
      · obtain rfl := Except.ok.inj hamount
        exact hinput_lt
      · exact hspent_lt amountIn hamount
    rw [fails_bind_of (stepOutput_not_fails hx hl hnext_lt aToB)] at h
    obtain ⟨amountOut, -, h⟩ := h
    rw [fails_bind_of (ite_not_fails (mulDivUp_not_fails hamount_lt (by omega) (by omega)) checkedSub_not_fails)] at h
    obtain ⟨fee, -, h⟩ := h
    exact not_fails_ok _ h
  · rintro ⟨hfee, input, hinput⟩
    refine ⟨input, hinput, fails_bind.mpr (.inl ?_)⟩
    rw [sub_fails]
    omega

namespace Clmm

variable {p : Clmm} {aToB : Bool} {w w' : Walk}

/-- The fee is over one million, and the input to the first target is known. -/
def Overcharges (p : Clmm) (aToB : Bool) : Prop :=
  ppm < p.feePpm ∧ ∃ target input, sqrtPriceAtTick (p.targetTick aToB p.tick) = .ok target ∧
    stepInput p.sqrtPrice p.liquidity aToB target = .ok input

/-- The output of the stretch ahead does not fit the sum. -/
def SumOverflows (p : Clmm) (aToB : Bool) (w : Walk) : Prop :=
  ∃ target s, sqrtPriceAtTick (p.targetTick aToB w.tick) = .ok target ∧
    step w.sqrtPrice target w.liquidity w.remaining p.feePpm aToB = .ok s ∧ 2 ^ 128 ≤ w.out + s.amountOut

/-- The loop's variables in a swap of `x`: the fees are of what was spent, and no more ticks were
crossed than there are. -/
structure Within (p : Clmm) (aToB : Bool) (x : ℕ) (w : Walk) : Prop where
  ranged : Ranged w
  fees : w.fees + w.remaining ≤ x
  crossed : w.crossed + ahead aToB w ≤ ahead aToB (p.start x)

theorem within_start (p : Clmm) (aToB : Bool) {x : ℕ} (hx : x < 2 ^ 64) : Within p aToB x (p.start x) where
  ranged := ranged_start p hx
  fees := (Nat.zero_add x).le
  crossed := (Nat.zero_add _).le

theorem Within.turn {x : ℕ} (h : Within p aToB x w) (hleft : w.remaining ≠ 0)
    (hturn : p.turn aToB w = .ok (w', false)) : Within p aToB x w' := by
  have hless := ahead_lt hleft hturn
  obtain ⟨target, s, -, -, hspent, -, -, hfees, -, hend⟩ := turn_eq_ok hturn
  have hbefore := h.fees
  have hcount := h.crossed
  refine ⟨h.ranged.turn hturn, by omega, ?_⟩
  rcases hend with ⟨hbroke, -⟩ | ⟨-, -, -, ⟨-, -, -, hcrossed⟩ | ⟨t, -, -, hcrossed, -⟩⟩
  · exact absurd hbroke (by decide)
  · omega
  · omega

theorem cross_not_fails {next : Option Tick} (h : w.crossed + 1 < 2 ^ 32) : ¬(cross aToB next w).Fails := by
  unfold cross
  cases next with
  | none =>
    simp only
    exact ite_not_fails not_fails_none (not_fails_ok w)
  | some t =>
    simp only
    rw [fails_bind_of (ite_not_fails checkedNeg_not_fails (pure_not_fails _))]
    rintro ⟨net, -, h'⟩
    rw [fails_bind_of checkedAddSigned_not_fails] at h'
    obtain ⟨l, -, h'⟩ := h'
    rw [add_ok h, ok_bind] at h'
    exact not_fails_ok _ h'

/-- A turn fails exactly where the fee is over one million and the input to the target is known,
or the output does not fit. -/
theorem turn_fails {x : ℕ} (h : Within p aToB x w) (hx : x < 2 ^ 64) (hleft : w.remaining ≠ 0)
    (hticks : ahead aToB (p.start x) < 2 ^ 32) : (p.turn aToB w).Fails ↔
      (ppm < p.feePpm ∧ ∃ target input, sqrtPriceAtTick (p.targetTick aToB w.tick) = .ok target ∧
        stepInput w.sqrtPrice w.liquidity aToB target = .ok input) ∨ SumOverflows p aToB w := by
  have hfees := h.fees
  have hcrossed := h.crossed
  have hone : 1 ≤ ahead aToB w := by
    unfold ahead
    rw [if_neg hleft]
    exact Nat.le_add_left 1 _
  have hx₁ := h.ranged.sqrtPrice_lt
  have hl := h.ranged.liquidity_lt
  have hr := h.ranged.remaining_lt
  have hrest : ∀ {target s}, sqrtPriceAtTick (p.targetTick aToB w.tick) = .ok target →
      step w.sqrtPrice target w.liquidity w.remaining p.feePpm aToB = .ok s → w.out + s.amountOut < 2 ^ 128 →
      ¬(p.turn aToB w).Fails := by
    intro target s hok hs hout hf
    obtain ⟨ht0, ht⟩ := targetTick_pos hok
    obtain ⟨hmin, hmax⟩ := (sqrtPriceAtTick_eq_ok.mp hok).1
    have hspent := (step_ok hx₁ ht ht0 hl hr hs).spent_le
    have hsub : Checked.checkedSub w.remaining (s.amountIn + s.fee) = .ok (w.remaining - (s.amountIn + s.fee)) :=
      if_pos hspent
    unfold Clmm.turn at hf
    simp only at hf
    rw [hok, ok_bind, hs, ok_bind, add_ok (by omega), ok_bind, hsub, ok_bind, add_ok hout, ok_bind, add_ok (by omega),
      ok_bind] at hf
    split at hf
    · exact not_fails_ok _ hf
    · rw [fails_bind_of (cross_not_fails (by show w.crossed + 1 < 2 ^ 32; omega))] at hf
      obtain ⟨crossed, -, hf⟩ := hf
      have htick : ¬(if aToB then Checked.int 32 (p.targetTick aToB w.tick - 1)
          else pure (p.targetTick aToB w.tick)).Fails := by
        unfold minTick maxTick at *
        rw [int_ok (w := 32) (by omega) (by omega)]
        exact ite_not_fails (not_fails_ok _) (pure_not_fails _)
      rw [fails_bind_of htick] at hf
      obtain ⟨tick, -, hf⟩ := hf
      exact not_fails_ok _ hf
  constructor
  · intro hf
    have hf' := hf
    unfold Clmm.turn at hf
    simp only at hf
    rw [fails_bind_of (sqrtPriceAtTick_not_fails _)] at hf
    obtain ⟨target, hok, hf⟩ := hf
    obtain ⟨ht0, ht⟩ := targetTick_pos hok
    rw [fails_bind, step_fails hx₁ ht hl hr] at hf
    rcases hf with ⟨hfee, input, hinput⟩ | ⟨s, hs, -⟩
    · exact .inl ⟨hfee, target, input, hok, hinput⟩
    · refine .inr ⟨target, s, hok, hs, ?_⟩
      by_contra hout
      exact hrest hok hs (not_le.mp hout) hf'
  · rintro (⟨hfee, target, input, hok, hinput⟩ | ⟨target, s, hok, hs, hout⟩)
    · unfold Clmm.turn
      simp only
      rw [hok, ok_bind, fails_bind, step_fails hx₁ (targetTick_pos hok).2 hl hr]
      exact .inl ⟨hfee, input, hinput⟩
    · obtain ⟨ht0, ht⟩ := targetTick_pos hok
      have hspent := (step_ok hx₁ ht ht0 hl hr hs).spent_le
      have hsub : Checked.checkedSub w.remaining (s.amountIn + s.fee) = .ok (w.remaining - (s.amountIn + s.fee)) :=
        if_pos hspent
      unfold Clmm.turn
      simp only
      rw [hok, ok_bind, hs, ok_bind, add_ok (by omega), ok_bind, hsub, ok_bind, fails_bind, add_fails]
      exact .inl (by omega)

/-- A turn that is taken has a fee of at most one million. -/
theorem turn_fee_le {broke : Bool} (h : Ranged w) (hturn : p.turn aToB w = .ok (w', broke)) : p.feePpm ≤ ppm := by
  obtain ⟨target, s, -, -, hstepped, -⟩ := turn_stepped h hturn
  exact hstepped.fee_le

/-! ### What a swap gives -/

theorem priceAt_ends : 2 ^ 32 ≤ priceAt minTick ∧ priceAt maxTick ≤ 2 ^ 96 := by decide +kernel

theorem target_bounds {t : ℤ} {y : ℕ} (h : sqrtPriceAtTick t = .ok y) : 2 ^ 32 ≤ y ∧ y ≤ 2 ^ 96 := by
  obtain ⟨⟨hlow, hhigh⟩, rfl⟩ := sqrtPriceAtTick_eq_ok.mp h
  obtain ⟨hmin, hmax⟩ := priceAt_ends
  exact ⟨hmin.trans (priceAt_le (le_refl _) hlow hhigh), (priceAt_le hlow hhigh (le_refl _)).trans hmax⟩

/-- A root price on the side where one token buys less than 64 bits of the other. -/
def Fair (aToB : Bool) (x : ℕ) : Prop := if aToB then x ≤ 2 ^ 96 else 2 ^ 32 ≤ x

theorem fair_of_ahead {x y : ℕ} (h : Fair aToB x) (hahead : Curve.Ahead aToB x y) : Fair aToB y := by
  unfold Fair Curve.Ahead at *
  cases aToB
  · exact Nat.le_trans h hahead
  · exact Nat.le_trans hahead h

theorem fair_target {t : ℤ} {y : ℕ} (h : sqrtPriceAtTick t = .ok y) : Fair aToB y := by
  unfold Fair
  cases aToB
  · exact (target_bounds h).1
  · exact (target_bounds h).2

/-- Between such prices a step gives less than 64 bits for one. -/
theorem amountOut_le {x target l remaining feePpm : ℕ} {s : Step} (h : Stepped aToB x target l remaining feePpm s)
    (hx : Fair aToB x) (hy : Fair aToB s.sqrtPrice) : s.amountOut ≤ s.amountIn * 2 ^ 64 := by
  have hin := h.exactIn_le
  have hout := h.le_exactOut
  have hl : (0 : ℚ) ≤ l := Nat.cast_nonneg l
  have hrx := root_pos h.pos
  have hry := root_pos h.next_pos
  have hprod : root x * root s.sqrtPrice = x * s.sqrtPrice / 2 ^ 128 := by
    unfold root
    ring
  have hgain : exactOut aToB l x s.sqrtPrice ≤ exactIn aToB l x s.sqrtPrice * 2 ^ 64 := by
    unfold exactOut exactIn
    unfold Fair at hx hy
    cases aToB
    · simp only [Bool.false_eq_true, if_false] at hx hy
      rw [Bool.not_false, Curve.moved_true hl hrx hry, Curve.moved_false hl, div_le_iff₀ (mul_pos hrx hry), mul_assoc]
      refine le_mul_of_one_le_right (mul_nonneg hl (abs_nonneg _)) ?_
      have hle : (2 ^ 32 * 2 ^ 32 : ℚ) ≤ x * s.sqrtPrice := by exact_mod_cast Nat.mul_le_mul hx hy
      rw [hprod]
      linarith
    · simp only [if_true] at hx hy
      rw [Bool.not_true, Curve.moved_true hl hrx hry, Curve.moved_false hl, div_mul_eq_mul_div,
        le_div_iff₀ (mul_pos hrx hry)]
      refine mul_le_mul_of_nonneg_left ?_ (mul_nonneg hl (abs_nonneg _))
      have hle : (x * s.sqrtPrice : ℚ) ≤ 2 ^ 96 * 2 ^ 96 := by exact_mod_cast Nat.mul_le_mul hx hy
      rw [hprod]
      linarith
  have hle : (s.amountOut : ℚ) ≤ s.amountIn * 2 ^ 64 :=
    (hout.trans hgain).trans (mul_le_mul_of_nonneg_right hin (by norm_num))
  exact_mod_cast hle

/-- The price is such a one, and less than 64 bits came out for each that was spent. -/
structure Earning (aToB : Bool) (x : ℕ) (w : Walk) : Prop where
  ranged : Ranged w
  fair : Fair aToB w.sqrtPrice
  out : w.out + w.remaining * 2 ^ 64 ≤ x * 2 ^ 64

/-- A step ends at such a price again, and its output fits. -/
theorem Earning.step {x target : ℕ} {s : Step} (h : Earning aToB x w)
    (hok : sqrtPriceAtTick (p.targetTick aToB w.tick) = .ok target)
    (hs : Stepped aToB w.sqrtPrice target w.liquidity w.remaining p.feePpm s) :
    Fair aToB s.sqrtPrice ∧ w.out + s.amountOut + (w.remaining - (s.amountIn + s.fee)) * 2 ^ 64 ≤ x * 2 ^ 64 := by
  have hfair : Fair aToB s.sqrtPrice := by
    cases hs.stepEnd with
    | reached price =>
      rw [price]
      exact fair_target hok
    | short _ _ _ onward => exact fair_of_ahead h.fair onward
  have hgain := amountOut_le hs h.fair hfair
  have hspent := hs.spent_le
  have hbefore := h.out
  exact ⟨hfair, by omega⟩

theorem Earning.turn {x : ℕ} {broke : Bool} (h : Earning aToB x w) (hturn : p.turn aToB w = .ok (w', broke)) :
    Earning aToB x w' := by
  obtain ⟨target, s, hok, hs, hspent, hprice, hout, -⟩ := turn_eq_ok hturn
  obtain ⟨ht0, ht⟩ := targetTick_pos hok
  have hstepped := step_ok h.ranged.sqrtPrice_lt ht ht0 h.ranged.liquidity_lt h.ranged.remaining_lt hs
  obtain ⟨hfair, hsum⟩ := h.step hok hstepped
  refine ⟨h.ranged.turn hturn, ?_, ?_⟩
  · rw [hprice]
    exact hfair
  · rw [hout, ← Nat.sub_eq_of_eq_add' hspent.symm]
    exact hsum

/-- From such a price on the outputs of a swap always fit. -/
theorem Earning.fits {x : ℕ} (h : Earning aToB x w) (hx : x < 2 ^ 64) : ¬SumOverflows p aToB w := by
  rintro ⟨target, s, hok, hs, hout⟩
  obtain ⟨ht0, ht⟩ := targetTick_pos hok
  have hstepped := step_ok h.ranged.sqrtPrice_lt ht ht0 h.ranged.liquidity_lt h.ranged.remaining_lt hs
  obtain ⟨-, hsum⟩ := h.step hok hstepped
  omega

theorem accepted_fair (h : Accepted p) (hprice : aToB = true → p.sqrtPrice ≤ 2 ^ 96) : Fair aToB p.sqrtPrice := by
  obtain ⟨t, ht, -⟩ := h.near
  have hin := tickAtSqrtPrice_iff.mp ht
  unfold Fair
  cases aToB
  · exact priceAt_ends.1.trans ((priceAt_le (le_refl _) hin.low hin.high).trans hin.price)
  · exact hprice rfl

/-- The ticks of an accepted pool can be counted. -/
theorem accepted_ahead_lt {x : ℕ} (h : Accepted p) : ahead aToB (p.start x) < 2 ^ 32 := by
  obtain ⟨t, ht, hnear⟩ := h.near
  have hin := tickAtSqrtPrice_iff.mp ht
  have hlow := hin.low
  have hhigh := hin.high
  unfold minTick maxTick at *
  unfold ahead
  split
  · norm_num
  · show (if aToB then p.tick - minTick + 1 else maxTick - p.tick).toNat + 1 < 2 ^ 32
    unfold minTick maxTick
    cases aToB
    · simp only [Bool.false_eq_true, if_false]
      omega
    · simp only [if_true]
      omega

/-- When a swap between ticks fails: the fee is over one million, or token A is sold at a price past
the last tick's and the outputs do not fit their sum. -/
def SwapFails (p : Clmm) (aToB : Bool) (x : ℕ) : Prop :=
  (x ≠ 0 ∧ Overcharges p aToB) ∨ (aToB = true ∧ 2 ^ 96 < p.sqrtPrice ∧
    ∃ w, (p.loop aToB).Reaches (p.start x) w ∧ w.remaining ≠ 0 ∧ SumOverflows p aToB w)

/-- **A swap between ticks fails exactly if the fee is over one million, or its outputs are too large to add up.** -/
theorem swap_fails_iff {x : ℕ} (hacc : Accepted p) (hx : x < 2 ^ 64) : (p.swap aToB x).Fails ↔ SwapFails p aToB x := by
  have hwalk : (p.swap aToB x).Fails ↔ (p.walk aToB (p.start x)).Fails := by
    unfold swap
    rw [fails_bind]
    refine ⟨fun h => h.resolve_right ?_, .inl⟩
    rintro ⟨w, -, h⟩
    rw [fails_bind_of fit_not_fails] at h
    obtain ⟨out, -, h⟩ := h
    rw [fails_bind_of fit_not_fails] at h
    obtain ⟨fee, -, h⟩ := h
    exact not_fails_ok _ h
  have hturn : ∀ {w}, (p.loop aToB).Reaches (p.start x) w → w.remaining ≠ 0 → ((p.turn aToB w).Fails ↔ _) :=
    fun hreach hleft => turn_fails
      (hreach.inv (fun hv hdone ht => hv.turn (of_decide_eq_false hdone) ht) (within_start p aToB hx)) hx hleft
      (accepted_ahead_lt hacc)
  unfold walk at hwalk
  unfold SwapFails
  rw [hwalk, Loop.run_fails_iff]
  constructor
  · rintro ⟨w, hreach, hdone, hf⟩
    have hleft : w.remaining ≠ 0 := of_decide_eq_false hdone
    rcases (hturn hreach hleft).mp hf with ⟨hfee, target, input, hok, hinput⟩ | hsum
    · cases hreach with
      | here => exact .inl ⟨hleft, hfee, target, input, hok, hinput⟩
      | turn hbefore hd ht =>
        have hranged := hbefore.inv (fun hv _ ht => hv.turn ht) (ranged_start p hx)
        exact absurd (turn_fee_le hranged ht) (not_le.mpr hfee)
    · by_cases hprice : aToB = true → p.sqrtPrice ≤ 2 ^ 96
      · have hstart : Earning aToB x (p.start x) := ⟨ranged_start p hx, accepted_fair hacc hprice, (Nat.zero_add _).le⟩
        exact absurd hsum ((hreach.inv (fun hv _ ht => hv.turn ht) hstart).fits hx)
      · rw [Classical.not_imp, not_le] at hprice
        exact .inr ⟨hprice.1, hprice.2, w, hreach, hleft, hsum⟩
  · rintro (⟨hne, hcharge⟩ | ⟨-, -, w, hreach, hleft, hsum⟩)
    · exact ⟨p.start x, .here, decide_eq_false hne, (hturn .here hne).mpr (.inl hcharge)⟩
    · exact ⟨w, hreach, decide_eq_false hleft, (hturn hreach hleft).mpr (.inr hsum)⟩

end Clmm

/-! ### Bins -/

namespace Dlmm

variable {p : Dlmm} {xToY : Bool} {refs : ℤ × ℕ} {w w' : Walk}

/-- The fields are in their types' ranges, the active bin is at hand, and no bin is next to the end of its type. -/
structure Ranged (p : Dlmm) : Prop where
  binStep_lt : p.binStep < 2 ^ 16
  baseFactor_lt : p.baseFactor < 2 ^ 16
  variableFeeControl_lt : p.variableFeeControl < 2 ^ 32
  maxVolatility_lt : p.maxVolatilityAccumulator < 2 ^ 32
  reduction_lt : p.reductionFactor < 2 ^ 16
  accumulator_lt : p.volatilityAccumulator < 2 ^ 32
  reference_lt : p.volatilityReference < 2 ^ 32
  indexReference : -2 ^ 31 ≤ p.indexReference ∧ p.indexReference < 2 ^ 31
  bins : Placed p.bins
  active : (p.bins.lookup p.activeId).isSome

theorem decode_ranged {pool : Bytes} {arrays : List Bytes} (h : decode pool arrays = .ok p) : Ranged p := by
  unfold decode at h
  obtain ⟨bins, hbins, h⟩ := bind_eq_ok.mp h
  obtain ⟨activeId, -, h⟩ := bind_eq_ok.mp h
  obtain ⟨binStep, -, h⟩ := bind_eq_ok.mp h
  obtain ⟨baseFactor, -, h⟩ := bind_eq_ok.mp h
  obtain ⟨baseFeePower, -, h⟩ := bind_eq_ok.mp h
  obtain ⟨variableFeeControl, -, h⟩ := bind_eq_ok.mp h
  obtain ⟨maxVolatility, -, h⟩ := bind_eq_ok.mp h
  obtain ⟨protocolShare, -, h⟩ := bind_eq_ok.mp h
  obtain ⟨filterPeriod, -, h⟩ := bind_eq_ok.mp h
  obtain ⟨decayPeriod, -, h⟩ := bind_eq_ok.mp h
  obtain ⟨reduction, -, h⟩ := bind_eq_ok.mp h
  obtain ⟨accumulator, -, h⟩ := bind_eq_ok.mp h
  obtain ⟨reference, -, h⟩ := bind_eq_ok.mp h
  obtain ⟨indexReference, hindex, h⟩ := bind_eq_ok.mp h
  obtain ⟨lastUpdate, -, h⟩ := bind_eq_ok.mp h
  obtain ⟨hactive, rfl⟩ := (of_if_eq_ok fun _ => none_ne_ok).mp h
  have hplaced : Placed bins := binArrays_cases.2 (fun id b hb => absurd hb (by simp)) bins hbins
  have h16 : (256 : ℕ) ^ 2 = 2 ^ 16 := by norm_num
  have h32 : (256 : ℕ) ^ 4 = 2 ^ 32 := by norm_num
  exact ⟨binStep.2.trans_eq h16, baseFactor.2.trans_eq h16, variableFeeControl.2.trans_eq h32,
    maxVolatility.2.trans_eq h32, reduction.2.trans_eq h16, accumulator.2.trans_eq h32, reference.2.trans_eq h32,
    intAt_range (by decide) hindex, hplaced, hactive⟩

/-! ### The fee rate -/

/-- The base fee is past 128 bits, or the power of ten in it is. -/
def FeeOverflows (p : Dlmm) : Prop :=
  2 ^ 128 ≤ 10 ^ p.baseFeePower ∨ 2 ^ 128 ≤ p.baseFactor * p.binStep * 10 * 10 ^ p.baseFeePower

/-- A base fee of 128 bits leaves room for the variable one. -/
theorem base_room {m n : ℕ} (hm : m < 2 ^ 32) (h : m * 10 * 10 ^ n < 2 ^ 128) : m * 10 * 10 ^ n + 2 ^ 92 ≤ 2 ^ 128 := by
  by_cases hn : n ≤ 27
  · have hpow : 10 ^ n ≤ 10 ^ 27 := Nat.pow_le_pow_right (by norm_num) hn
    have hle : m * 10 * 10 ^ n ≤ 2 ^ 32 * 10 * 10 ^ 27 :=
      Nat.mul_le_mul (Nat.mul_le_mul_right 10 hm.le) hpow
    omega
  · obtain ⟨k, rfl⟩ := Nat.exists_eq_add_of_le (not_le.mp hn)
    have hsplit : m * 10 * 10 ^ (27 + 1 + k) = m * 10 ^ k * 10 ^ 29 := by ring
    rw [hsplit] at h ⊢
    omega

/-- The rate of any bin is there exactly where the base fee is. -/
theorem feeRate_fails (h : Ranged p) {id index : ℤ} {volatility : ℕ} (hid : -2 ^ 31 < id ∧ id < 2 ^ 31 - 1)
    (hindex : -2 ^ 31 ≤ index ∧ index < 2 ^ 31) (hvolatility : volatility < 2 ^ 32) :
    (p.feeRate id index volatility).Fails ↔ FeeOverflows p := by
  have hstep := h.binStep_lt
  have hfactor := h.baseFactor_lt
  have hprod : p.baseFactor * p.binStep < 2 ^ 32 := by
    have hlt := Nat.mul_lt_mul'' hfactor hstep
    omega
  have hvariable : ∃ v, v < 2 ^ 92 ∧ (if p.variableFeeControl = 0 then pure 0 else do
      let v ← Checked.mul 128 (min (volatility + (index - id).natAbs * 10000) p.maxVolatilityAccumulator) p.binStep
      let v ← Checked.pow 128 v 2
      let v ← Checked.mul 128 v p.variableFeeControl
      pure (v ⌈/⌉ 100000000000) : Checked ℕ) = .ok v := by
    split
    · exact ⟨0, by norm_num, rfl⟩
    have hmax : min (volatility + (index - id).natAbs * 10000) p.maxVolatilityAccumulator < 2 ^ 32 :=
      (min_le_right ..).trans_lt h.maxVolatility_lt
    generalize min (volatility + (index - id).natAbs * 10000) p.maxVolatilityAccumulator = a at hmax ⊢
    have ha : a * p.binStep < 2 ^ 48 := by
      have hlt := Nat.mul_lt_mul'' hmax hstep
      omega
    have hsquare : (a * p.binStep) ^ 2 < 2 ^ 96 := by
      have hlt := Nat.mul_lt_mul'' ha ha
      rw [pow_two]
      omega
    have hfull : (a * p.binStep) ^ 2 * p.variableFeeControl < 2 ^ 128 := by
      have hlt := Nat.mul_lt_mul'' hsquare h.variableFeeControl_lt
      omega
    have hpow : Checked.pow 128 (a * p.binStep) 2 = .ok ((a * p.binStep) ^ 2) := if_pos (by omega)
    rw [mul_ok (by omega), ok_bind, hpow, ok_bind, mul_ok hfull, ok_bind]
    refine ⟨_, ?_, rfl⟩
    rw [ceilDiv_eq (by norm_num)]
    generalize (a * p.binStep) ^ 2 * p.variableFeeControl = v at hfull ⊢
    split
    · omega
    · omega
  obtain ⟨v, hv, hok⟩ := hvariable
  unfold feeRate FeeOverflows
  rw [mul_ok (by omega), ok_bind, add_ok (by omega), ok_bind]
  simp only
  rw [mul_ok (by omega), ok_bind, mul_ok (by omega), ok_bind, fails_bind, pow_fails, not_lt]
  refine or_congr_right' fun hpow => ?_
  rw [not_le] at hpow
  constructor
  · rintro ⟨power, hpower, hf⟩
    obtain ⟨-, rfl⟩ := pow_eq_ok.mp hpower
    by_contra hfits
    rw [not_le] at hfits
    have hroom := base_room hprod hfits
    rw [mul_ok hfits, ok_bind, hok, ok_bind, add_ok (by omega), ok_bind] at hf
    exact pure_not_fails _ hf
  · intro hover
    refine ⟨_, if_pos hpow, fails_bind.mpr (.inl ?_)⟩
    rw [mul_fails, not_lt]
    exact hover

theorem references_ok (h : Ranged p) {now : ℤ} (hclock : -2 ^ 63 ≤ now - p.lastUpdate ∧ now - p.lastUpdate < 2 ^ 63) :
    ∃ refs, p.references now = .ok refs := by
  have hkept : p.volatilityAccumulator * p.reductionFactor < 2 ^ 64 := by
    have hlt := Nat.mul_lt_mul'' h.accumulator_lt h.reduction_lt
    omega
  unfold references
  rw [int_ok (w := 64) hclock.1 hclock.2, ok_bind]
  split
  · exact ⟨_, rfl⟩
  · split
    · rw [mul_ok hkept]
      exact ⟨_, rfl⟩
    · exact ⟨_, rfl⟩

theorem references_fails (h : Ranged p) {now : ℤ} : (p.references now).Fails ↔
    ¬(-2 ^ 63 ≤ now - p.lastUpdate ∧ now - p.lastUpdate < 2 ^ 63) := by
  refine ⟨fun hf hclock => ?_, fun hclock => fails_bind.mpr (.inl (int_fails.mpr hclock))⟩
  obtain ⟨refs, hrefs⟩ := references_ok h hclock
  rw [hrefs] at hf
  exact not_fails_ok refs hf

/-- The references of a swap are in their types' ranges. -/
theorem references_ranged (h : Ranged p) {now : ℤ} (hrefs : p.references now = .ok refs) :
    (-2 ^ 31 ≤ refs.1 ∧ refs.1 < 2 ^ 31) ∧ refs.2 < 2 ^ 32 := by
  unfold references at hrefs
  obtain ⟨elapsed, -, hrefs⟩ := bind_eq_ok.mp hrefs
  split at hrefs
  · obtain rfl := Except.ok.inj hrefs
    exact ⟨h.indexReference, h.reference_lt⟩
  · obtain ⟨kept, hkept, hrefs⟩ := bind_eq_ok.mp hrefs
    obtain rfl := Except.ok.inj hrefs
    obtain ⟨b, hb⟩ := Option.isSome_iff_exists.mp h.active
    obtain ⟨hlow, hhigh⟩ := h.bins _ b hb
    refine ⟨by omega, ?_⟩
    split at hkept
    · obtain ⟨k, -, hkept⟩ := bind_eq_ok.mp hkept
      obtain rfl := Except.ok.inj hkept
      exact Nat.mod_lt _ (by norm_num)
    · obtain rfl := Except.ok.inj hkept
      norm_num

/-! ### A bin -/

/-- Its emptying input and the fee on top of it are each known, and their sum is past 128 bits. -/
def SumOverflows (xToY : Bool) (bin : Bin) (rate : ℕ) : Prop :=
  ∃ empties onTop, emptyingInput xToY bin = .ok empties ∧
    mulDivUp empties rate (feePrecision - rate) = .ok onTop ∧ 2 ^ 128 ≤ empties + onTop

theorem take_fails {bin : Bin} {rate : ℕ} (hrate : rate ≤ maxFeeRate) (hleft : w.left < 2 ^ 64) (hout : w.out < 2 ^ 127)
    (hfees : w.fees < 2 ^ 64) : (take xToY bin rate w).Fails ↔ SumOverflows xToY bin rate := by
  unfold maxFeeRate at hrate
  have hprecision : feePrecision = 1000000000 := rfl
  have hempty : ¬(emptyingInput xToY bin).Fails := by
    rw [emptyingInput_eq]
    exact ite_not_fails not_fails_none fit_not_fails
  have hempty_lt : ∀ e, emptyingInput xToY bin = .ok e → e < 2 ^ 128 := by
    intro e he
    rw [emptyingInput_eq] at he
    split at he
    · exact absurd he none_ne_ok
    · obtain ⟨hlt, rfl⟩ := fit_eq_ok.mp he
      exact hlt
  have havailable := available_lt xToY bin
  unfold take SumOverflows
  rw [fails_bind_of hempty]
  refine exists_congr fun empties => ?_
  constructor
  · rintro ⟨hempties, h⟩
    have hlt := hempty_lt empties hempties
    rw [sub_ok (by omega), ok_bind, fails_bind_of (mulDivUp_not_fails hlt (by omega) (by omega))] at h
    obtain ⟨onTop, honTop, h⟩ := h
    refine ⟨onTop, hempties, honTop, ?_⟩
    by_contra hfits
    rw [not_le] at hfits
    rw [add_ok hfits, ok_bind] at h
    split at h
    · rename_i hcovers
      rw [sub_ok hcovers, ok_bind, add_ok (by omega), ok_bind, add_ok (by omega), ok_bind, sub_ok (by omega),
        ok_bind] at h
      exact pure_not_fails _ h
    · have hfee_le : w.left * rate ⌈/⌉ feePrecision ≤ w.left := by
        rw [ceilDiv_le_iff_le_mul (by omega), Nat.mul_comm]
        exact Nat.mul_le_mul_right _ (by omega)
      have hfee : mulDivUp w.left rate feePrecision = .ok (w.left * rate ⌈/⌉ feePrecision) := by
        rw [mulDivUp_eq (by omega) (by omega) (by omega), if_neg (by omega)]
        exact if_pos (by omega)
      have hprice : ¬(atPrice xToY bin (w.left - w.left * rate ⌈/⌉ feePrecision)).Fails := by
        rw [atPrice_eq xToY bin (by omega)]
        exact ite_not_fails not_fails_none fit_not_fails
      generalize w.left * rate ⌈/⌉ feePrecision = fee at hfee_le hfee hprice
      rw [hfee, ok_bind, sub_ok hfee_le, ok_bind, fails_bind_of hprice] at h
      obtain ⟨got, -, h⟩ := h
      rw [add_ok (by omega), ok_bind, add_ok (by omega), ok_bind] at h
      exact pure_not_fails _ h
  · rintro ⟨onTop, hempties, honTop, hover⟩
    refine ⟨hempties, ?_⟩
    rw [sub_ok (by omega), ok_bind, honTop, ok_bind, fails_bind, add_fails]
    exact .inl (by omega)

/-- The swap is at a bin that holds something, of such a sum. -/
def BinOverflows (p : Dlmm) (xToY : Bool) (refs : ℤ × ℕ) (w : Walk) : Prop :=
  ∃ bin rate, p.bins.lookup w.id = some bin ∧ p.feeRate w.id refs.1 refs.2 = .ok rate ∧
    0 < available xToY bin ∧ SumOverflows xToY bin rate

theorem feeRate_capped {id index : ℤ} {volatility rate : ℕ} (h : p.feeRate id index volatility = .ok rate) :
    rate ≤ maxFeeRate := by
  unfold feeRate at h
  iterate 7
    obtain ⟨_, _, h⟩ := bind_eq_ok.mp h
  obtain ⟨total, _, h⟩ := bind_eq_ok.mp h
  obtain rfl := Except.ok.inj h
  exact min_le_right ..

theorem turn_fails (h : Ranged p) (hrefs : (-2 ^ 31 ≤ refs.1 ∧ refs.1 < 2 ^ 31) ∧ refs.2 < 2 ^ 32)
    (hleft : w.left < 2 ^ 64) (hout : w.out < 2 ^ 127) (hfees : w.fees < 2 ^ 64) : (p.turn xToY refs w).Fails ↔
      ((p.bins.lookup w.id).isSome ∧ FeeOverflows p) ∨ BinOverflows p xToY refs w := by
  unfold turn BinOverflows
  rw [fails_bind_of ofOption_not_fails]
  cases hbin : p.bins.lookup w.id with
  | none =>
    refine ⟨?_, ?_⟩
    · rintro ⟨b, hb, -⟩
      exact absurd hb none_ne_ok
    · rintro (⟨h, -⟩ | ⟨b, _, hb, -⟩)
      · exact absurd h (by decide)
      · exact absurd hb (by simp)
  | some bin =>
    have hid := h.bins _ bin hbin
    have hfee := @feeRate_fails p h w.id refs.1 refs.2 hid hrefs.1 hrefs.2
    have hmove : ∀ {v : Walk}, v.id = w.id → ¬(if 0 < v.left then do
        let id ← Checked.int 32 (if xToY then v.id - 1 else v.id + 1)
        pure ({ v with id }, false)
      else pure (v, false) : Checked (Walk × Bool)).Fails := by
      intro v hv
      refine ite_not_fails ?_ (pure_not_fails _)
      rw [hv]
      cases xToY
      · rw [if_neg (by decide), int_ok (w := 32) (by omega) (by omega)]
        exact pure_not_fails _
      · rw [if_pos rfl, int_ok (w := 32) (by omega) (by omega)]
        exact pure_not_fails _
    constructor
    · rintro ⟨b, hb, hf⟩
      obtain rfl := Except.ok.inj hb
      rw [fails_bind, hfee] at hf
      rcases hf with hf | ⟨rate, hrate, hf⟩
      · exact .inl ⟨rfl, hf⟩
      · rw [fails_bind] at hf
        refine .inr ⟨bin, rate, rfl, hrate, ?_⟩
        rcases hf with hf | ⟨v, hv, hf⟩
        · by_cases hpos : 0 < available xToY bin
          · rw [if_pos hpos] at hf
            exact ⟨hpos, (take_fails (feeRate_capped hrate) hleft hout hfees).mp hf⟩
          · rw [if_neg hpos] at hf
            exact absurd hf (pure_not_fails w)
        · exact absurd hf (hmove (taken_id hv))
    · rintro (⟨-, hf⟩ | ⟨b, rate, hb, hrate, hpos, hsum⟩)
      · exact ⟨bin, rfl, fails_bind.mpr (.inl (hfee.mpr hf))⟩
      · obtain rfl := Option.some.inj hb
        refine ⟨bin, rfl, ?_⟩
        rw [hrate, ok_bind, fails_bind, if_pos hpos]
        exact .inl ((take_fails (feeRate_capped hrate) hleft hout hfees).mpr hsum)

/-! ### A swap -/

/-- The bins hold less than 127 bits of a token. -/
theorem held_lt (h : Ranged p) : p.held xToY < 2 ^ 127 := by
  have hcard : p.bins.entries.length ≤ 2 ^ 32 := by
    have hkeys : p.bins.keys.toFinset ⊆ Finset.Ico (-2 ^ 31 : ℤ) (2 ^ 31) := by
      intro k hk
      have hmem : k ∈ p.bins := AList.mem_keys.mpr (List.mem_toFinset.mp hk)
      obtain ⟨b, hb⟩ := Option.isSome_iff_exists.mp (AList.lookup_isSome.mpr hmem)
      obtain ⟨hlow, hhigh⟩ := h.bins k b hb
      rw [Finset.mem_Ico]
      omega
    have hcount := Finset.card_le_card hkeys
    rw [List.toFinset_card_of_nodup p.bins.keys_nodup, Int.card_Ico] at hcount
    have hlength : p.bins.keys.length = p.bins.entries.length := List.length_map _
    rw [← hlength]
    exact hcount
  have hsum : ∀ l : List (Sigma fun _ : ℤ => Bin), (l.map fun e => available xToY e.2).sum ≤ l.length * 2 ^ 64 := by
    intro l
    induction l with
    | nil => exact Nat.zero_le _
    | cons e l ih =>
      have hlt := available_lt xToY e.2
      rw [List.map_cons, List.sum_cons, List.length_cons]
      omega
  have hle := hsum p.bins.entries
  unfold held
  omega

/-- When a swap through bins fails. -/
def SwapFails (p : Dlmm) (xToY : Bool) (x : ℕ) (now : ℤ) : Prop :=
  ¬(-2 ^ 63 ≤ now - p.lastUpdate ∧ now - p.lastUpdate < 2 ^ 63) ∨ (x ≠ 0 ∧ FeeOverflows p) ∨
    ∃ refs w, p.references now = .ok refs ∧ (p.loop xToY refs).Reaches (p.start x) w ∧ w.left ≠ 0 ∧
      BinOverflows p xToY refs w

/-- **A swap through bins fails exactly if it cannot tell the time, the base fee or the input of a bin it comes to.** -/
theorem swap_fails_iff (h : Ranged p) {x : ℕ} {now : ℤ} (hx : x < 2 ^ 64) :
    (p.swap xToY x now).Fails ↔ SwapFails p xToY x now := by
  unfold swap SwapFails
  rw [fails_bind, references_fails h]
  refine or_congr_right' fun hclock => ?_
  have hturn : ∀ {refs w}, p.references now = .ok refs → (p.loop xToY refs).Reaches (p.start x) w →
      ((p.turn xToY refs w).Fails ↔
        ((p.bins.lookup w.id).isSome ∧ FeeOverflows p) ∨ BinOverflows p xToY refs w) := by
    intro refs w hrefs hreach
    have hrec : Recorded p xToY x w :=
      hreach.inv (fun hv hdone ht => hv.turn (of_decide_eq_false hdone) ht) (recorded_start p xToY hx)
    have hfees : w.fees ≤ x := by
      rw [← hrec.fees, ← hrec.input]
      refine le_add_right (List.sum_le_sum fun v _ => ?_)
      exact Nat.le_add_left _ _
    exact turn_fails h (references_ranged h hrefs) hrec.left_lt (hrec.out_le.trans_lt (held_lt h)) (by omega)
  constructor
  · rintro ⟨refs, hrefs, hf⟩
    rw [fails_bind] at hf
    rcases hf with hf | ⟨w, -, hf⟩
    · obtain ⟨w, hreach, hdone, hf⟩ := Loop.run_fails_iff.mp hf
      rcases (hturn hrefs hreach).mp hf with ⟨-, hfee⟩ | hbin
      · refine .inl ⟨?_, hfee⟩
        rintro rfl
        have hstart : w.left = 0 := by
          have hrec : Recorded p xToY 0 w :=
            hreach.inv (fun hv hdone ht => hv.turn (of_decide_eq_false hdone) ht) (recorded_start p xToY hx)
          have hinput := hrec.input
          omega
        exact of_decide_eq_false hdone hstart
      · exact .inr ⟨refs, w, hrefs, hreach, of_decide_eq_false hdone, hbin⟩
    · rw [fails_bind_of fit_not_fails] at hf
      obtain ⟨out, -, hf⟩ := hf
      rw [fails_bind_of fit_not_fails] at hf
      obtain ⟨fee, -, hf⟩ := hf
      exact absurd hf (pure_not_fails _)
  · rintro (⟨hne, hfee⟩ | ⟨refs, w, hrefs, hreach, hleft, hbin⟩)
    · obtain ⟨refs, hrefs⟩ := references_ok h (not_not.mp hclock)
      refine ⟨refs, hrefs, fails_bind.mpr (.inl (Loop.run_fails_iff.mpr ⟨p.start x, .here, decide_eq_false hne, ?_⟩))⟩
      exact (hturn hrefs .here).mpr (.inl ⟨h.active, hfee⟩)
    · refine ⟨refs, hrefs, fails_bind.mpr (.inl (Loop.run_fails_iff.mpr ⟨w, hreach, decide_eq_false hleft, ?_⟩))⟩
      exact (hturn hrefs hreach).mpr (.inr hbin)

end Dlmm

/-! ### Any pool -/

theorem decode_dlmm {kind : PoolKind} {pool : Bytes} {deps : List (Option Bytes)} {p : Dlmm}
    (h : decode kind pool deps = .ok (.dlmm p)) : Dlmm.Ranged p := by
  unfold decode at h
  cases kind with
  | whirlpool =>
    obtain ⟨arrays, -, h⟩ := bind_eq_ok.mp h
    obtain ⟨q, -, h⟩ := bind_eq_ok.mp h
    exact absurd (Except.ok.inj h) (by simp)
  | raydiumClmm =>
    cases deps with
    | nil => exact absurd h none_ne_ok
    | cons config arrays =>
      simp only at h
      obtain ⟨config, -, h⟩ := bind_eq_ok.mp h
      obtain ⟨arrays, -, h⟩ := bind_eq_ok.mp h
      obtain ⟨q, -, h⟩ := bind_eq_ok.mp h
      exact absurd (Except.ok.inj h) (by simp)
  | meteoraDlmm =>
    obtain ⟨arrays, -, h⟩ := bind_eq_ok.mp h
    obtain ⟨q, hq, h⟩ := bind_eq_ok.mp h
    obtain rfl := Pool.dlmm.inj (Except.ok.inj h)
    exact Dlmm.decode_ranged hq

/-- When a swap fails, of either kind of pool. -/
def Pool.SwapFails (q : Pool) (aToB : Bool) (x : ℕ) (now : ℤ) : Prop :=
  match q with
  | .clmm p => p.SwapFails aToB x
  | .dlmm p => p.SwapFails aToB x now

theorem Pool.swap_fails {kind : PoolKind} {pool : Bytes} {deps : List (Option Bytes)} {q : Pool}
    (h : decode kind pool deps = .ok q) {aToB : Bool} {x : ℕ} {now : ℤ} (hx : x < 2 ^ 64) :
    (q.swap aToB x now).Fails ↔ q.SwapFails aToB x now := by
  cases q with
  | clmm p => exact wrapped_fails.trans (Clmm.swap_fails_iff (decode_clmm h).1 hx)
  | dlmm p => exact wrapped_fails.trans (Dlmm.swap_fails_iff (decode_dlmm h) hx)

/-- Naming a pool's accounts, decoding it and a swap each give a value or none. -/
def Total (kind : PoolKind) (pool : Bytes) (deps : List (Option Bytes)) (aToB : Bool) (amountIn : ℕ) (now : ℤ) : Prop :=
  ¬(dependencies kind pool).Fails ∧ ¬(decode kind pool deps).Fails ∧
    ∀ q, decode kind pool deps = .ok q → ¬(q.swap aToB amountIn now).Fails

/-- **When the pool code is total**: no sum of ticks leaves its type, and the pool that was read has fees and amounts
that can be added up. -/
theorem total_iff {kind : PoolKind} {pool : Bytes} {deps : List (Option Bytes)} {aToB : Bool} {amountIn : ℕ} {now : ℤ}
    (hx : amountIn < 2 ^ 64) : Total kind pool deps aToB amountIn now ↔
      ¬DependenciesFail kind pool ∧ ¬DecodeFails kind pool deps ∧
        ∀ q, decode kind pool deps = .ok q → ¬q.SwapFails aToB amountIn now := by
  unfold Total
  rw [dependencies_fails_iff, decode_fails_iff]
  refine and_congr_right fun _ => and_congr_right fun _ => forall_congr' fun q => ?_
  exact forall_congr' fun h => not_congr (Pool.swap_fails h hx)

/-- A million of token B, of a pool at price 1. -/
theorem total_iff_million :
    let pool := account 85 [(41, 2, 64), (43, 2, 64), (45, 2, 3000), (49, 16, 10 ^ 12), (65, 16, 2 ^ 64)]
    let array := account 9988 [(0, 8, 0xbb42076ebebd6145)]
    ¬DependenciesFail .whirlpool pool ∧ ¬DecodeFails .whirlpool pool [some array] ∧
      ∀ q, decode .whirlpool pool [some array] = .ok q → ¬q.SwapFails false 1000000 0 := by
  intro pool array
  have hswap : ¬(decode .whirlpool pool [some array] >>= fun q => q.swap false 1000000 0).Fails := by decide +kernel
  refine (total_iff (by norm_num)).mp ⟨by decide +kernel, fun hf => ?_, fun q hq hf => ?_⟩
  · exact hswap (fails_bind.mpr (.inl hf))
  · exact hswap (fails_bind.mpr (.inr ⟨q, hq, hf⟩))

/-- A tick spacing of zero divides by it; a fee of 1,000,001 millionths is taken from one million. -/
theorem not_total :
    let pool := account 273 [(235, 2, 64), (237, 16, 10 ^ 12), (253, 16, 2 ^ 64)]
    let config := account 51 [(47, 4, 1000001)]
    ¬Total .whirlpool (account 85 []) [] true 1 0 ∧
      ¬Total .raydiumClmm pool [some config, some (account 10240 [])] true 1000 0 := by
  intro pool config
  refine ⟨fun h => h.1 (by decide +kernel), fun h => ?_⟩
  have hswap : (decode .raydiumClmm pool [some config, some (account 10240 [])] >>=
      fun q => q.swap true 1000 0).Fails := by decide +kernel
  rcases fails_bind.mp hswap with hf | ⟨q, hq, hf⟩
  · exact h.2.1 hf
  · exact h.2.2 q hq hf

end Amm
end MobiusSearcher
