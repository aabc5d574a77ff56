/-
# More input never pays less

Two swaps of one pool, of amounts `x ≤ y`, take the same steps until the
first one's input runs out (`Paired.turn`): it reaches a tick only with an
input that the second has too. There the curve decides: the last step of the
first pays no more than the second's at the same place, whether that one ends
short as well or goes on to the tick (`short_out_le`), even where a tick lies
on the wrong side of the price.

Key definitions: `Clmm.Paired`.
Key theorems: `short_out_le`, `Clmm.Paired.turn`, `Clmm.swap_mono`.
-/
import MobiusSearcher.Amm.Exact

namespace MobiusSearcher
namespace Amm

open Curve

/-- A step that ends short pays no more than one with more input. -/
theorem short_out_le {aToB : Bool} {x target l r r' feePpm : ℕ} {s s' : Step} (hx : x < 2 ^ 128) (hl : l < 2 ^ 128)
    (hr' : r' < 2 ^ 128) (h : Stepped aToB x target l r feePpm s) (h' : Stepped aToB x target l r' feePpm s')
    (hr : r ≤ r') (hshort : s.sqrtPrice ≠ target) : s.amountOut ≤ s'.amountOut := by
  have hl0 : (0 : ℚ) ≤ l := Nat.cast_nonneg l
  rw [h.amountOut, h'.amountOut]
  apply Nat.floor_le_floor
  unfold exactOut
  cases h.stepEnd with
  | reached price => exact absurd price hshort
  | short _ _ liquid onward after _ =>
    cases h'.stepEnd with
    | reached price' =>
      have hlt := h.exactIn_lt hshort
      rw [price']
      exact paid_le hl0 (root_pos h.pos) (root_pos h.next_pos) (root_pos h.target_pos) (ahead_root.mpr onward) hlt
    | short _ _ _ _ after' _ =>
      have hlt : afterFee r' feePpm < 2 ^ 128 := (afterFee_le r' feePpm).trans_lt hr'
      have hfurther := priceAfter_mono hx hl hlt h.pos liquid (afterFee_mono hr feePpm) after after'
      exact moved_le_moved _ hl0 (root_pos h.pos) (root_pos h.next_pos) (root_pos h'.next_pos)
        (ahead_root.mpr onward) (ahead_root.mpr hfurther)

/-- Two steps that get to the same target are the same. -/
theorem reached_eq {aToB : Bool} {x target l r r' feePpm : ℕ} {s s' : Step}
    (h : Stepped aToB x target l r feePpm s) (h' : Stepped aToB x target l r' feePpm s')
    (hr : r ≤ r') (hreached : s.sqrtPrice = target) : s' = s := by
  have hcovers := h.reached_iff.mp hreached
  have hmore : (afterFee r feePpm : ℚ) ≤ afterFee r' feePpm := Nat.cast_le.mpr (afterFee_mono hr feePpm)
  have hreached' := h'.reached_iff.mpr (hcovers.trans hmore)
  have hprice : s'.sqrtPrice = s.sqrtPrice := hreached'.trans hreached.symm
  have hin : s'.amountIn = s.amountIn := by rw [h.amountIn, h'.amountIn, hprice]
  have hout : s'.amountOut = s.amountOut := by rw [h.amountOut, h'.amountOut, hprice]
  have hfee : s'.fee = s.fee := by
    cases h.stepEnd with
    | short price => exact absurd hreached price
    | reached _ _ _ fee =>
      cases h'.stepEnd with
      | short price' => exact absurd hreached' price'
      | reached _ _ _ fee' => rw [fee, fee', hin]
  obtain ⟨price, amountIn, amountOut, fee⟩ := s
  obtain ⟨price', amountIn', amountOut', fee'⟩ := s'
  simp only at hprice hin hout hfee
  rw [hprice, hin, hout, hfee]

namespace Clmm

variable {p : Clmm} {aToB : Bool} {v w v' w' : Walk}

/-- Two swaps at the same place, the second with at least as much left. -/
structure Paired (v w : Walk) : Prop where
  first : Ranged v
  second : Ranged w
  sqrtPrice : v.sqrtPrice = w.sqrtPrice
  tick : v.tick = w.tick
  liquidity : v.liquidity = w.liquidity
  remaining : v.remaining ≤ w.remaining
  out : v.out = w.out

/-- As long as the first goes on, so does the second, at the same place. -/
theorem Paired.turn {broke : Bool} (h : Paired v w) (hv : p.turn aToB v = .ok (v', false))
    (hw : p.turn aToB w = .ok (w', broke)) : broke = false ∧ Paired v' w' := by
  have hv₀ := h.first.turn hv
  have hw₀ := h.second.turn hw
  obtain ⟨target, s, htarget, hs, hrem, hprice, hout, -, -, hend⟩ := turn_eq_ok hv
  obtain ⟨target', s', htarget', hs', hrem', hprice', hout', -, -, hend'⟩ := turn_eq_ok hw
  obtain ⟨ht0, ht⟩ := targetTick_pos htarget
  rw [← h.tick, htarget] at htarget'
  obtain rfl := Except.ok.inj htarget'
  have hstep := step_ok h.first.sqrtPrice_lt ht ht0 h.first.liquidity_lt h.first.remaining_lt hs
  have hstep' := step_ok h.second.sqrtPrice_lt ht ht0 h.second.liquidity_lt h.second.remaining_lt hs'
  rw [← h.sqrtPrice, ← h.liquidity] at hstep'
  rw [← h.tick, ← h.liquidity] at hend'
  rcases hend with ⟨hbroke, -⟩ | ⟨-, hreached, htick, hliq⟩
  · exact absurd hbroke (by decide)
  have hsame := reached_eq hstep hstep' h.remaining hreached
  rw [hsame] at hrem' hprice' hout' hend'
  have hle := h.remaining
  rcases hend' with ⟨-, hshort, -⟩ | ⟨hbroke', -, htick', hliq'⟩
  · exact absurd hreached hshort
  refine ⟨hbroke', hv₀, hw₀, hprice.trans hprice'.symm, htick.trans htick'.symm, ?_, by omega, ?_⟩
  · rcases hliq with ⟨hnext, -, hl, -⟩ | ⟨t, hnext, -, -, hl⟩
    · rcases hliq' with ⟨-, -, hl', -⟩ | ⟨t', hnext', -⟩
      · rw [hl, hl']
      · rw [hnext] at hnext'
        exact absurd hnext' (by simp)
    · rcases hliq' with ⟨hnext', -⟩ | ⟨t', hnext', -, -, hl'⟩
      · rw [hnext] at hnext'
        exact absurd hnext' (by simp)
      · rw [hnext] at hnext'
        obtain rfl := Option.some.inj hnext'
        exact_mod_cast hl.trans hl'.symm
  · rw [hout, hout', h.out]

/-- Where the first ends, the second has paid at least as much. -/
theorem Paired.turn_out {broke broke' : Bool} (h : Paired v w) (hv : p.turn aToB v = .ok (v', broke))
    (hw : p.turn aToB w = .ok (w', broke')) : v'.out ≤ w'.out := by
  obtain ⟨target, s, htarget, hs, -, -, hout, -, -, -⟩ := turn_eq_ok hv
  obtain ⟨target', s', htarget', hs', -, -, hout', -, -, -⟩ := turn_eq_ok hw
  obtain ⟨ht0, ht⟩ := targetTick_pos htarget
  rw [← h.tick, htarget] at htarget'
  obtain rfl := Except.ok.inj htarget'
  have hstep := step_ok h.first.sqrtPrice_lt ht ht0 h.first.liquidity_lt h.first.remaining_lt hs
  have hstep' := step_ok h.second.sqrtPrice_lt ht ht0 h.second.liquidity_lt h.second.remaining_lt hs'
  rw [← h.sqrtPrice, ← h.liquidity] at hstep'
  have hpaid : s.amountOut ≤ s'.amountOut := by
    by_cases hreached : s.sqrtPrice = target
    · rw [reached_eq hstep hstep' h.remaining hreached]
    · exact short_out_le h.first.sqrtPrice_lt h.first.liquidity_lt h.second.remaining_lt hstep hstep' h.remaining hreached
  rw [hout, hout', h.out]
  exact Nat.add_le_add_left hpaid _

/-- What is paid out only grows. -/
theorem walk_out_le (h : p.walk aToB w = .ok w') : w.out ≤ w'.out := by
  refine Loop.run_inv (I := fun v => w.out ≤ v.out) (fun {v v' broke} hle _ hturn => ?_) (le_refl _) h
  obtain ⟨target, s, -, -, -, -, hout, -⟩ := turn_eq_ok hturn
  omega

theorem walk_mono (h : Paired v w) (hv : p.walk aToB v = .ok v') (hw : p.walk aToB w = .ok w') : v'.out ≤ w'.out := by
  refine Loop.run_pair (R := Paired) (Q := fun v w => v.out ≤ w.out) ?_ ?_ ?_ h hv hw
  · intro v w w' h _ hrun
    rw [h.out]
    exact walk_out_le hrun
  · intro v v' w w' h hdone hturn hrun
    have hleft : v.remaining ≠ 0 := of_decide_eq_false hdone
    have hle := h.remaining
    rcases Loop.run_eq_ok.mp hrun with ⟨hspent, -⟩ | ⟨-, hbroke | ⟨u, hu, hrest⟩⟩
    · have hzero : w.remaining = 0 := of_decide_eq_true hspent
      omega
    · exact h.turn_out hturn hbroke
    · exact (h.turn_out hturn hu).trans (walk_out_le hrest)
  · intro v v' w w' h hdone hturn hrun
    have hleft : v.remaining ≠ 0 := of_decide_eq_false hdone
    have hle := h.remaining
    rcases Loop.run_eq_ok.mp hrun with ⟨hspent, -⟩ | ⟨-, hbroke | ⟨u, hu, hrest⟩⟩
    · have hzero : w.remaining = 0 := of_decide_eq_true hspent
      omega
    · exact absurd (h.turn hturn hbroke).1 (by decide)
    · exact ⟨u, hrest, (h.turn hturn hu).2⟩

/-- More of a token in never gives less of the other. -/
theorem swap_mono {x y : ℕ} {s s' : Swap} (hxy : x ≤ y) (hy : y < 2 ^ 64) (hs : p.swap aToB x = .ok s)
    (hs' : p.swap aToB y = .ok s') : s.amountOut ≤ s'.amountOut := by
  obtain ⟨v, hv, hout, -⟩ := swap_eq_ok hs
  obtain ⟨w, hw, hout', -⟩ := swap_eq_ok hs'
  have hpair : Paired (p.start x) (p.start y) :=
    ⟨ranged_start p (by omega), ranged_start p hy, rfl, rfl, rfl, hxy, rfl⟩
  rw [hout, hout']
  exact walk_mono hpair hv hw

end Clmm

end Amm
end MobiusSearcher
