/-
# A swap accounts for its input

Over a whole swap: what the steps take in, fees included, is the amount; no
step passes its target, and one reaches it exactly when the input covers the
move there; every amount is rounded against the trader. What every turn keeps
is `Recorded`: what each step was, and that they add up.

Key definitions: `Clmm.Ranged`, `Clmm.Recorded`, `Passes`.
Key theorems: `Clmm.Recorded.turn`, `Clmm.walk_spent`, `swap_accounts_for_its_input`.
-/
import MobiusSearcher.Amm.Step

namespace MobiusSearcher
namespace Amm

open Curve

namespace Clmm

variable {p : Clmm} {aToB : Bool} {w w' : Walk}

/-! ### Over the loop -/

/-- The loop's variables are in their types' ranges. -/
structure Ranged (w : Walk) : Prop where
  sqrtPrice_lt : w.sqrtPrice < 2 ^ 128
  liquidity_lt : w.liquidity < 2 ^ 128
  remaining_lt : w.remaining < 2 ^ 128

theorem ranged_start (p : Clmm) {x : ℕ} (hx : x < 2 ^ 64) : Ranged (p.start x) := by
  refine ⟨p.sqrtPrice_lt, p.liquidity_lt, ?_⟩
  show x < 2 ^ 128
  omega

theorem targetTick_pos {target : ℕ} {t : ℤ} (h : sqrtPriceAtTick t = .ok target) : 0 < target ∧ target < 2 ^ 128 := by
  rw [(sqrtPriceAtTick_eq_ok.mp h).2]
  exact ⟨priceAt_pos t, priceAt_lt_u128 t⟩

/-- The step of a turn. -/
theorem turn_stepped {broke : Bool} (hw : Ranged w) (h : p.turn aToB w = .ok (w', broke)) :
    ∃ target s, sqrtPriceAtTick (p.targetTick aToB w.tick) = .ok target ∧
      step w.sqrtPrice target w.liquidity w.remaining p.feePpm aToB = .ok s ∧
      Stepped aToB w.sqrtPrice target w.liquidity w.remaining p.feePpm s ∧
      w'.steps = ⟨w.sqrtPrice, target, w.liquidity, w.remaining, s⟩ :: w.steps := by
  obtain ⟨target, s, htarget, hs, -, -, -, -, hsteps, -⟩ := turn_eq_ok h
  obtain ⟨ht0, ht⟩ := targetTick_pos htarget
  exact ⟨target, s, htarget, hs, step_ok hw.sqrtPrice_lt ht ht0 hw.liquidity_lt hw.remaining_lt hs, hsteps⟩

theorem Ranged.turn {broke : Bool} (hw : Ranged w) (h : p.turn aToB w = .ok (w', broke)) : Ranged w' := by
  obtain ⟨target, s, htarget, hs, hrem, hprice, -, -, -, hend⟩ := turn_eq_ok h
  obtain ⟨ht0, ht⟩ := targetTick_pos htarget
  have hstepped := step_ok hw.sqrtPrice_lt ht ht0 hw.liquidity_lt hw.remaining_lt hs
  have hliq := hw.liquidity_lt
  have hremaining := hw.remaining_lt
  refine ⟨?_, ?_, by omega⟩
  · rw [hprice]
    exact hstepped.next_lt
  · rcases hend with ⟨-, -, -, hl, -⟩ | ⟨-, -, -, ⟨-, -, hl, -⟩ | ⟨t, -, hl, -⟩⟩
    · rw [hl]
      exact hliq
    · rw [hl]
      exact hliq
    · exact hl

/-- A turn that breaks off has used the input up. -/
theorem turn_broke (hw : Ranged w) (h : p.turn aToB w = .ok (w', true)) : w'.remaining = 0 := by
  obtain ⟨target, s, htarget, hs, hrem, -, -, -, -, hend⟩ := turn_eq_ok h
  obtain ⟨ht0, ht⟩ := targetTick_pos htarget
  have hstepped := step_ok hw.sqrtPrice_lt ht ht0 hw.liquidity_lt hw.remaining_lt hs
  have hspent := hstepped.spent_le
  rcases hend with ⟨-, hshort, -⟩ | ⟨hbroke, -⟩
  · cases hstepped.stepEnd with
    | reached price => exact absurd price hshort
    | short _ _ _ _ _ fee => omega
  · exact absurd hbroke (by decide)

/-- The loop ends with nothing left. -/
theorem walk_spent (h : Ranged w) (hw : p.walk aToB w = .ok w') : w'.remaining = 0 := by
  refine Loop.run_induct (P := fun w w' => Ranged w → w'.remaining = 0) ?_ ?_ ?_ hw h
  · exact fun w hdone _ => of_decide_eq_true hdone
  · exact fun w w' _ hturn hr => turn_broke hr hturn
  · exact fun w v w' _ hturn _ ih hr => ih (hr.turn hturn)

/-! ### What is recorded -/

/-- The steps made so far are all there was, and each is what `step` gave. -/
structure Recorded (p : Clmm) (aToB : Bool) (x : ℕ) (w : Walk) : Prop where
  ranged : Ranged w
  input : (w.steps.map fun m => m.step.amountIn + m.step.fee).sum + w.remaining = x
  out : (w.steps.map fun m => m.step.amountOut).sum = w.out
  fees : (w.steps.map fun m => m.step.fee).sum = w.fees
  stepped : ∀ m ∈ w.steps, step m.sqrtPrice m.target m.liquidity m.remaining p.feePpm aToB = .ok m.step ∧
    Stepped aToB m.sqrtPrice m.target m.liquidity m.remaining p.feePpm m.step

theorem recorded_start (p : Clmm) (aToB : Bool) {x : ℕ} (hx : x < 2 ^ 64) : Recorded p aToB x (p.start x) where
  ranged := ranged_start p hx
  input := Nat.zero_add x
  out := rfl
  fees := rfl
  stepped := fun _ hm => absurd hm List.not_mem_nil

theorem Recorded.turn {broke : Bool} {x : ℕ} (hw : Recorded p aToB x w) (h : p.turn aToB w = .ok (w', broke)) :
    Recorded p aToB x w' := by
  obtain ⟨target, s, htarget, hs, hrem, -, hout, hfees, hsteps, -⟩ := turn_eq_ok h
  obtain ⟨ht0, ht⟩ := targetTick_pos htarget
  have hr := hw.ranged
  have hstepped := step_ok hr.sqrtPrice_lt ht ht0 hr.liquidity_lt hr.remaining_lt hs
  refine ⟨hr.turn h, ?_, ?_, ?_, ?_⟩
  · have hinput := hw.input
    rw [hsteps, List.map_cons, List.sum_cons]
    show s.amountIn + s.fee + (w.steps.map fun m => m.step.amountIn + m.step.fee).sum + w'.remaining = x
    omega
  · rw [hsteps, List.map_cons, List.sum_cons, hw.out, hout]
    exact Nat.add_comm ..
  · rw [hsteps, List.map_cons, List.sum_cons, hw.fees, hfees]
    exact Nat.add_comm ..
  · rw [hsteps]
    intro m hm
    rcases List.mem_cons.mp hm with rfl | hm
    · exact ⟨hs, hstepped⟩
    · exact hw.stepped m hm

theorem swap_eq_ok {x : ℕ} {s : Swap} (h : p.swap aToB x = .ok s) :
    ∃ w, p.walk aToB (p.start x) = .ok w ∧ s.amountOut = w.out ∧ s.fee = w.fees ∧ s.sqrtPrice = w.sqrtPrice ∧
      s.ticksCrossed = w.crossed := by
  unfold swap at h
  obtain ⟨w, hw, h⟩ := Checked.bind_eq_ok.mp h
  obtain ⟨out, hout, h⟩ := Checked.bind_eq_ok.mp h
  obtain ⟨fee, hfee, h⟩ := Checked.bind_eq_ok.mp h
  obtain rfl := Except.ok.inj h
  exact ⟨w, hw, (Checked.fit_eq_ok.mp hout).2, (Checked.fit_eq_ok.mp hfee).2, rfl, rfl⟩

end Clmm

/-! ### Against the exact curve -/

/-- The price goes from one side of the target to the other. -/
def Passes (x target y : ℕ) : Prop := (x < target ∧ target < y) ∨ (y < target ∧ target < x)

/-- A step that ends short ends before its target, where the target is ahead. -/
theorem Stepped.before {aToB : Bool} {x target l remaining feePpm : ℕ} {s : Step}
    (h : Stepped aToB x target l remaining feePpm s) (hne : s.sqrtPrice ≠ target) (hahead : Ahead aToB x target) :
    Ahead aToB s.sqrtPrice target :=
  ahead_root.mp (ahead_of_moved_lt (Nat.cast_nonneg l) (root_pos h.pos) (root_pos h.next_pos) (root_pos h.target_pos)
    (ahead_root.mpr hahead) (h.exactIn_lt hne)).1

theorem Stepped.not_passes {aToB : Bool} {x target l remaining feePpm : ℕ} {s : Step}
    (h : Stepped aToB x target l remaining feePpm s) : ¬Passes x target s.sqrtPrice := by
  cases h.stepEnd with
  | reached price =>
    unfold Passes
    omega
  | short price _ _ onward =>
    have hbefore := h.before price
    unfold Passes
    unfold Ahead at onward hbefore
    cases aToB
    · simp only [Bool.false_eq_true, if_false] at onward hbefore
      omega
    · simp only [if_true] at onward hbefore
      omega

/-- **A swap accounts for its input exactly and rounds against the trader.** -/
theorem swap_accounts_for_its_input {p : Clmm} {aToB : Bool} {amountIn : ℕ} {s : Swap} (hx : amountIn < 2 ^ 64)
    (h : p.swap aToB amountIn = .ok s) :
    ∃ w, p.walk aToB (p.start amountIn) = .ok w ∧
      (w.steps.map fun m => m.step.amountIn + m.step.fee).sum = amountIn ∧
      (w.steps.map fun m => m.step.amountOut).sum = s.amountOut ∧
      (w.steps.map fun m => m.step.fee).sum = s.fee ∧
      ∀ m ∈ w.steps, 0 < m.sqrtPrice ∧ 0 < m.step.sqrtPrice ∧
        step m.sqrtPrice m.target m.liquidity m.remaining p.feePpm aToB = .ok m.step ∧
        ¬Passes m.sqrtPrice m.target m.step.sqrtPrice ∧
        (m.step.sqrtPrice = m.target ↔
          exactIn aToB m.liquidity m.sqrtPrice m.target ≤ afterFee m.remaining p.feePpm) ∧
        m.step.amountOut ≤ exactOut aToB m.liquidity m.sqrtPrice m.step.sqrtPrice ∧
        exactIn aToB m.liquidity m.sqrtPrice m.step.sqrtPrice ≤ m.step.amountIn ∧
        (m.step.amountIn + m.step.fee : ℚ) * (p.feePpm / ppm) ≤ m.step.fee := by
  obtain ⟨w, hw, hout, hfee, -⟩ := Clmm.swap_eq_ok h
  have hstart := Clmm.recorded_start p aToB hx
  have hrec : Clmm.Recorded p aToB amountIn w :=
    Loop.run_inv (fun hv _ hturn => Clmm.Recorded.turn hv hturn) hstart hw
  have hspent := Clmm.walk_spent hstart.ranged hw
  refine ⟨w, hw, ?_, hrec.out.trans hout.symm, hrec.fees.trans hfee.symm, fun m hm => ?_⟩
  · have hinput := hrec.input
    rw [hspent] at hinput
    exact hinput
  obtain ⟨hstep, hs⟩ := hrec.stepped m hm
  refine ⟨hs.pos, hs.next_pos, hstep, hs.not_passes, hs.reached_iff, hs.le_exactOut, hs.exactIn_le, ?_⟩
  have hshare : ((m.step.amountIn + m.step.fee) * p.feePpm : ℚ) ≤ m.step.fee * ppm := by exact_mod_cast hs.fee_share
  have hppm : (0 : ℚ) < ppm := by norm_num [ppm]
  rw [← mul_div_assoc, div_le_iff₀ hppm]
  exact hshare

/-- A sale at price 1 that takes the price over the tick below, with a fee of 0.3 %. -/
theorem swap_accounts_for_its_input_crossing :
    let p : Clmm := ⟨2 ^ 64, 0, 2 * 10 ^ 12, 3000,
      [⟨-200, 10 ^ 12⟩, ⟨-100, 10 ^ 12⟩, ⟨100, -2 * 10 ^ 12⟩], (-300, 300), by decide, by decide⟩
    ∃ s w, p.swap true 12000000000 = .ok s ∧ s.ticksCrossed = 1 ∧ p.walk true (p.start 12000000000) = .ok w ∧
      (w.steps.map fun m => m.step.amountIn + m.step.fee).sum = 12000000000 := by
  intro p
  have h : p.swap true 12000000000 = .ok ⟨11891009523, 36000001, 18319392595749193833, 1⟩ := by decide +kernel
  obtain ⟨w, hw, hsum, -⟩ := swap_accounts_for_its_input (by norm_num) h
  exact ⟨_, w, h, rfl, hw, hsum⟩

end Amm
end MobiusSearcher
