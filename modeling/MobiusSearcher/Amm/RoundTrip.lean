/-
# There and back never gains

Selling one way and the whole proceeds the other way from the moved pool
returns at most what was sold, where the first swap stays inside its range.
Out, the price stops at `n` with at least the exact input taken and at most
the exact output paid. Back, the swap looks for a tick beyond the price it
started from (`back_target`), so that the proceeds, which cover no more than
the way back, are spent in one step, and that step pays at most what the way
back is worth (`round_trip`).

Key definitions: `Clmm.movedTo`, `FirstStep`.
Key theorems: `Clmm.swap_first`, `Clmm.back_target`, `round_trip_never_gains`.
-/
import MobiusSearcher.Amm.Decode

namespace MobiusSearcher
namespace Amm

open Curve

namespace Clmm

variable {p : Clmm} {aToB : Bool}

/-- The pool, its price moved to `x`, in tick `t`. -/
def movedTo (p : Clmm) (x : ℕ) (t : ℤ) (hx : x < 2 ^ 128) : Clmm :=
  { p with sqrtPrice := x, tick := t, sqrtPrice_lt := hx }

/-! ### The first step -/

/-- What the first step says about a swap. -/
structure FirstStep (p : Clmm) (aToB : Bool) (x : ℕ) (out : Swap) (target : ℕ) (s : Step) : Prop where
  leads : sqrtPriceAtTick (p.targetTick aToB p.tick) = .ok target
  stepped : Stepped aToB p.sqrtPrice target p.liquidity x p.feePpm s
  /-- It is the only one if it spends the input. -/
  only : s.amountIn + s.fee = x → out.amountOut = s.amountOut ∧ out.sqrtPrice = s.sqrtPrice
  /-- At its target it crosses a tick, or has spent the input at the edge. -/
  crosses : s.sqrtPrice = target →
    (p.nextTick aToB p.tick = none ∧ s.amountIn + s.fee = x) ∨ 0 < out.ticksCrossed

theorem walk_crossed_le {w w' : Walk} (h : p.walk aToB w = .ok w') : w.crossed ≤ w'.crossed := by
  refine Loop.run_inv (I := fun v => w.crossed ≤ v.crossed) (fun {v v' broke} hle _ hturn => ?_) (le_refl _) h
  obtain ⟨target, s, -, -, -, -, -, -, -, hend⟩ := turn_eq_ok hturn
  rcases hend with ⟨-, -, -, -, hc⟩ | ⟨-, -, -, ⟨-, -, -, hc⟩ | ⟨t, -, -, hc, -⟩⟩
  · rw [hc]
    exact hle
  · rw [hc]
    exact hle
  · rw [hc]
    exact Nat.le_succ_of_le hle

theorem swap_first {x : ℕ} {out : Swap} (hx0 : x ≠ 0) (hx : x < 2 ^ 64) (h : p.swap aToB x = .ok out) :
    ∃ target s, FirstStep p aToB x out target s := by
  obtain ⟨w, hw, hout, -, hprice, hcrossed⟩ := swap_eq_ok h
  have hranged := ranged_start p hx
  have hrun := Loop.run_eq_ok.mp hw
  have hstart : ∀ {v : Walk} {broke : Bool}, p.turn aToB (p.start x) = .ok (v, broke) → ∃ target s,
      sqrtPriceAtTick (p.targetTick aToB p.tick) = .ok target ∧
      Stepped aToB p.sqrtPrice target p.liquidity x p.feePpm s ∧ s.amountIn + s.fee + v.remaining = x ∧
      v.sqrtPrice = s.sqrtPrice ∧ v.out = s.amountOut ∧
      ((broke = true ∧ s.sqrtPrice ≠ target) ∨ (broke = false ∧
        ((p.nextTick aToB p.tick = none ∧ v.remaining = 0) ∨ v.crossed = 1))) := by
    intro v broke hturn
    obtain ⟨target, s, htarget, hs, hrem, hp, ho, -, -, hend⟩ := turn_eq_ok hturn
    obtain ⟨ht0, ht⟩ := targetTick_pos htarget
    have hstepped := step_ok hranged.sqrtPrice_lt ht ht0 hranged.liquidity_lt hranged.remaining_lt hs
    refine ⟨target, s, htarget, hstepped, hrem, hp, ho.trans (Nat.zero_add _), ?_⟩
    rcases hend with ⟨hb, hne, -⟩ | ⟨hb, -, -, ⟨hn, hr, -⟩ | ⟨t, -, -, hc, -⟩⟩
    · exact .inl ⟨hb, hne⟩
    · exact .inr ⟨hb, .inl ⟨hn, hr⟩⟩
    · exact .inr ⟨hb, .inr hc⟩
  rcases hrun with ⟨hdone, -⟩ | ⟨-, hbroke | ⟨v, hv, hrest⟩⟩
  · exact absurd (of_decide_eq_true hdone) hx0
  · obtain ⟨target, s, htarget, hstepped, -, hp, ho, hend⟩ := hstart hbroke
    refine ⟨target, s, htarget, hstepped, fun _ => ⟨hout.trans ho, hprice.trans hp⟩, fun hreached => ?_⟩
    rcases hend with ⟨-, hne⟩ | ⟨hb, -⟩
    · exact absurd hreached hne
    · exact absurd hb (by decide)
  · obtain ⟨target, s, htarget, hstepped, hrem, hp, ho, hend⟩ := hstart hv
    refine ⟨target, s, htarget, hstepped, fun hspent => ?_, fun _ => ?_⟩
    · have hzero : v.remaining = 0 := by omega
      have hw' := (Loop.run_done (decide_eq_true hzero)).symm.trans hrest
      rw [hout, hprice, ← Except.ok.inj hw']
      exact ⟨ho, hp⟩
    · rcases hend with ⟨hb, -⟩ | ⟨-, ⟨hn, hr⟩ | hc⟩
      · exact absurd hb (by decide)
      · exact .inl ⟨hn, by omega⟩
      · have hle := walk_crossed_le hrest
        exact .inr (by omega)

theorem swap_zero {out : Swap} (h : p.swap aToB 0 = .ok out) : out.amountOut = 0 := by
  obtain ⟨w, hw, hout, -⟩ := swap_eq_ok h
  have hw' := (Loop.run_done (L := p.loop aToB) (s := p.start 0) rfl).symm.trans hw
  rw [hout, ← Except.ok.inj hw']
  rfl

theorem swap_sqrtPrice_lt {x : ℕ} {out : Swap} (hx : x < 2 ^ 64) (h : p.swap aToB x = .ok out) :
    out.sqrtPrice < 2 ^ 128 := by
  obtain ⟨w, hw, -, -, hprice, -⟩ := swap_eq_ok h
  have hranged : Ranged w := Loop.run_inv (fun hv _ hturn => Ranged.turn hv hturn) (ranged_start p hx) hw
  rw [hprice]
  exact hranged.sqrtPrice_lt

/-! ### The tick ahead -/

/-- Selling token A, the search finds the largest tick not above the current one. -/
theorem nextTick_down (hasc : Ascending p) {tick : ℤ} : ∀ u ∈ p.ticks, u.index ≤ tick →
    ∃ t, p.nextTick true tick = some t ∧ u.index ≤ t.index ∧ t.index ≤ tick := by
  intro u hu hle
  unfold nextTick
  rw [if_pos rfl]
  have hsome : (p.ticks.reverse.find? fun t => decide (t.index ≤ tick)).isSome := by
    rw [List.find?_isSome]
    exact ⟨u, List.mem_reverse.mpr hu, decide_eq_true hle⟩
  obtain ⟨t, ht⟩ := Option.isSome_iff_exists.mp hsome
  have hfound := List.find?_some (l := p.ticks.reverse) ht
  refine ⟨t, ht, ?_, of_decide_eq_true hfound⟩
  obtain ⟨-, later, earlier, hsplit, hnone⟩ := List.find?_eq_some_iff_append.mp ht
  have hmem : u ∈ later ++ t :: earlier := by
    rw [← hsplit]
    exact List.mem_reverse.mpr hu
  have hdesc : (later ++ t :: earlier).Pairwise fun t u => u.index < t.index := by
    rw [← hsplit]
    exact List.pairwise_reverse.mpr hasc
  rcases List.mem_append.mp hmem with hlater | hrest
  · have hno := hnone u hlater
    simp only [hle, decide_true, Bool.not_true] at hno
    exact absurd hno (by decide)
  · rcases List.mem_cons.mp hrest with rfl | hearlier
    · exact le_refl _
    · exact ((List.pairwise_cons.mp (List.pairwise_append.mp hdesc).2.1).1 u hearlier).le

/-- Selling token B, the smallest above it. -/
theorem nextTick_up (hasc : Ascending p) {tick : ℤ} : ∀ u ∈ p.ticks, tick < u.index →
    ∃ t, p.nextTick false tick = some t ∧ t.index ≤ u.index ∧ tick < t.index := by
  intro u hu hlt
  unfold nextTick
  rw [if_neg (by decide)]
  have hsome : (p.ticks.find? fun t => decide (tick < t.index)).isSome := by
    rw [List.find?_isSome]
    exact ⟨u, hu, decide_eq_true hlt⟩
  obtain ⟨t, ht⟩ := Option.isSome_iff_exists.mp hsome
  have hfound := List.find?_some (l := p.ticks) ht
  refine ⟨t, ht, ?_, of_decide_eq_true hfound⟩
  obtain ⟨-, earlier, later, hsplit, hnone⟩ := List.find?_eq_some_iff_append.mp ht
  have hmem : u ∈ earlier ++ t :: later := by
    rw [← hsplit]
    exact hu
  have hasc' : (earlier ++ t :: later).Pairwise fun t u => t.index < u.index := by
    rw [← hsplit]
    exact hasc
  rcases List.mem_append.mp hmem with hearlier | hrest
  · have hno := hnone u hearlier
    simp only [hlt, decide_true, Bool.not_true] at hno
    exact absurd hno (by decide)
  · rcases List.mem_cons.mp hrest with rfl | hlater
    · exact le_refl _
    · exact ((List.pairwise_cons.mp (List.pairwise_append.mp hasc').2.1).1 u hlater).le

theorem nextTick_mem {tick : ℤ} {t : Tick} (h : p.nextTick aToB tick = some t) : t ∈ p.ticks := by
  unfold nextTick at h
  cases aToB
  · exact List.mem_of_find?_eq_some (l := p.ticks) h
  · exact List.mem_reverse.mp (List.mem_of_find?_eq_some (l := p.ticks.reverse) h)

theorem targetTick_some {tick : ℤ} {t : Tick} (h : p.nextTick aToB tick = some t) : p.targetTick aToB tick = t.index := by
  unfold targetTick
  rw [h]
  rfl

theorem targetTick_none {tick : ℤ} (h : p.nextTick aToB tick = none) :
    p.targetTick aToB tick = if aToB then p.known.1 else p.known.2 := by
  unfold targetTick
  rw [h]
  rfl

/-- Where the tick is covered, the search leads its way: to it or under it, or past it. -/
theorem targetTick_side (hcovered : p.known.1 ≤ p.tick ∧ p.tick < p.known.2) :
    if aToB then p.targetTick aToB p.tick ≤ p.tick else p.tick < p.targetTick aToB p.tick := by
  cases hnext : p.nextTick aToB p.tick with
  | some t =>
    rw [targetTick_some hnext]
    exact nextTick_side hnext
  | none =>
    rw [targetTick_none hnext]
    cases aToB
    · exact hcovered.2
    · exact hcovered.1

/-- With the price in its tick, the target is ahead. -/
theorem target_ahead (hcovered : p.known.1 ≤ p.tick ∧ p.tick < p.known.2) (hin : InTick p.sqrtPrice p.tick)
    {target : ℕ} (h : sqrtPriceAtTick (p.targetTick aToB p.tick) = .ok target) : Ahead aToB p.sqrtPrice target := by
  obtain ⟨⟨hlow, hhigh⟩, rfl⟩ := sqrtPriceAtTick_eq_ok.mp h
  have hside := @targetTick_side p aToB hcovered
  have hprice := hin.price
  unfold Ahead
  cases aToB
  · simp only [Bool.false_eq_true, if_false] at hside ⊢
    have hnext := hin.next (by omega)
    have hle : priceAt (p.tick + 1) ≤ priceAt (p.targetTick false p.tick) :=
      priceAt_le (by have := hin.low; omega) (by omega) hhigh
    omega
  · simp only [if_true] at hside ⊢
    have hle : priceAt (p.targetTick true p.tick) ≤ priceAt p.tick := priceAt_le hlow hside hin.high
    omega

/-- **On the way back the search looks past where the way out began.** -/
theorem back_target (hasc : Ascending p) (hcovered : p.known.1 ≤ p.tick ∧ p.tick < p.known.2)
    (hin : InTick p.sqrtPrice p.tick) {target target' n : ℕ} {t : ℤ}
    (hleads : sqrtPriceAtTick (p.targetTick aToB p.tick) = .ok target)
    (hshort : p.nextTick aToB p.tick ≠ none → n ≠ target ∧ Ahead aToB n target) (ht : InTick n t)
    (hback : sqrtPriceAtTick (p.targetTick (!aToB) t) = .ok target') : Ahead (!aToB) p.sqrtPrice target' := by
  obtain ⟨-, rfl⟩ := sqrtPriceAtTick_eq_ok.mp hleads
  obtain ⟨⟨hlow, hhigh⟩, rfl⟩ := sqrtPriceAtTick_eq_ok.mp hback
  cases aToB
  · -- out upwards: back, no tick past the first one found is met
    rw [Bool.not_false] at hlow hhigh
    have hidx : p.targetTick true t ≤ p.tick := by
      cases hnext : p.nextTick true t with
      | none =>
        rw [targetTick_none hnext]
        exact hcovered.1
      | some u =>
        rw [targetTick_some hnext]
        have hle := nextTick_side hnext
        rw [if_pos rfl] at hle
        by_contra hlt
        obtain ⟨v, hv, hvu, htv⟩ := nextTick_up hasc u (nextTick_mem hnext) (not_le.mp hlt)
        obtain ⟨hne, hbefore⟩ := hshort (by rw [hv]; simp)
        rw [targetTick_some hv] at hne hbefore
        unfold Ahead at hbefore
        rw [if_neg (by decide)] at hbefore
        have hprice := ht.price
        have hmono : priceAt v.index ≤ priceAt t := priceAt_le (by have := hin.low; omega) (by omega) ht.high
        omega
    have hle : priceAt (p.targetTick true t) ≤ priceAt p.tick := priceAt_le hlow hidx hin.high
    have hprice := hin.price
    show priceAt (p.targetTick true t) ≤ p.sqrtPrice
    omega
  · rw [Bool.not_true] at hlow hhigh
    have hidx : p.tick < p.targetTick false t := by
      cases hnext : p.nextTick false t with
      | none =>
        rw [targetTick_none hnext]
        exact hcovered.2
      | some u =>
        rw [targetTick_some hnext]
        have hlt := nextTick_side hnext
        rw [if_neg (by decide)] at hlt
        by_contra hle
        obtain ⟨v, hv, huv, hvt⟩ := nextTick_down hasc u (nextTick_mem hnext) (not_lt.mp hle)
        obtain ⟨-, hbefore⟩ := hshort (by rw [hv]; simp)
        rw [targetTick_some hv] at hbefore
        unfold Ahead at hbefore
        rw [if_pos rfl] at hbefore
        have hin' := ht.le (by have := hin.high; omega) hbefore
        omega
    have hnext := hin.next (by omega)
    have hle : priceAt (p.tick + 1) ≤ priceAt (p.targetTick false t) :=
      priceAt_le (by have := hin.low; omega) (by omega) hhigh
    show p.sqrtPrice ≤ priceAt (p.targetTick false t)
    omega

theorem swap_out_lt {x : ℕ} {out : Swap} (h : p.swap aToB x = .ok out) : out.amountOut < 2 ^ 64 := by
  unfold swap at h
  obtain ⟨w, -, h⟩ := Checked.bind_eq_ok.mp h
  obtain ⟨v, hv, h⟩ := Checked.bind_eq_ok.mp h
  obtain ⟨fee, -, h⟩ := Checked.bind_eq_ok.mp h
  obtain rfl := Except.ok.inj h
  obtain ⟨hlt, rfl⟩ := Checked.fit_eq_ok.mp hv
  exact hlt

/-- **There and back never gains**, the ticks in order and the price in its tick. -/
theorem round_trip (hasc : Ascending p) (hcovered : p.known.1 ≤ p.tick ∧ p.tick < p.known.2)
    (hin : InTick p.sqrtPrice p.tick) {x : ℕ} (hx : x < 2 ^ 64) {out back : Swap} (h : p.swap aToB x = .ok out)
    (hcross : out.ticksCrossed = 0) {t : ℤ} (ht : InTick out.sqrtPrice t)
    (hback : (p.movedTo out.sqrtPrice t (swap_sqrtPrice_lt hx h)).swap (!aToB) out.amountOut = .ok back) :
    back.amountOut ≤ x := by
  by_cases hy0 : out.amountOut = 0
  · rw [hy0] at hback
    rw [swap_zero hback]
    exact Nat.zero_le x
  have hx0 : x ≠ 0 := by
    rintro rfl
    exact hy0 (swap_zero h)
  have hy := swap_out_lt h
  obtain ⟨target, s, hfirst⟩ := swap_first hx0 hx h
  obtain ⟨target', s', hsecond⟩ := swap_first hy0 hy hback
  have hs := hfirst.stepped
  have hs' := hsecond.stepped
  -- the way out ends inside the range, with all of the input spent
  have hspent : s.amountIn + s.fee = x ∧ (p.nextTick aToB p.tick ≠ none → s.sqrtPrice ≠ target) := by
    cases hs.stepEnd with
    | reached price =>
      rcases hfirst.crosses price with ⟨hnone, hspent⟩ | hpos
      · exact ⟨hspent, fun hsome => absurd hnone hsome⟩
      · omega
    | short price _ _ _ _ fee =>
      have hle := hs.covered.trans (afterFee_le x p.feePpm)
      exact ⟨by omega, fun _ => price⟩
  obtain ⟨hout, hprice⟩ := hfirst.only hspent.1
  have hleads := target_ahead hcovered hin hfirst.leads
  have hpn : Ahead aToB p.sqrtPrice out.sqrtPrice := by
    rw [hprice]
    cases hs.stepEnd with
    | reached price =>
      rw [price]
      exact hleads
    | short _ _ _ onward => exact onward
  have hnp : Ahead (!aToB) out.sqrtPrice p.sqrtPrice := ahead_not.mpr hpn
  have hpt : Ahead (!aToB) p.sqrtPrice target' := by
    refine back_target hasc hcovered hin hfirst.leads (fun hsome => ?_) ht hsecond.leads
    rw [hprice]
    exact ⟨hspent.2 hsome, hs.before (hspent.2 hsome) hleads⟩
  -- with liquidity, or there were no proceeds
  have hl : 0 < p.liquidity := by
    apply Nat.pos_of_ne_zero
    intro h0
    have hpaid := hs.amountOut
    unfold exactOut at hpaid
    rw [h0, Nat.cast_zero, moved_zero, Nat.floor_zero] at hpaid
    exact hy0 (hout.trans hpaid)
  have hlq : (0 : ℚ) < p.liquidity := Nat.cast_pos.mpr hl
  have hrp := root_pos hs.pos
  have hrn : 0 < root out.sqrtPrice := root_pos hs'.pos
  have hrm := root_pos hs'.next_pos
  have hrt := root_pos hs'.target_pos
  -- the proceeds cover no more than the way back
  have hproceeds : (out.amountOut : ℚ) ≤ moved (!aToB) (p.liquidity : ℚ) (root out.sqrtPrice) (root p.sqrtPrice) := by
    rw [moved_comm, hout, hprice]
    exact hs.le_exactOut
  have hincl : (s'.amountIn : ℚ) ≤ out.amountOut :=
    Nat.cast_le.mpr (hs'.covered.trans (afterFee_le out.amountOut p.feePpm))
  have hin' : moved (!aToB) (p.liquidity : ℚ) (root out.sqrtPrice) (root s'.sqrtPrice) ≤ s'.amountIn := hs'.exactIn_le
  have honward : Ahead (!aToB) (root out.sqrtPrice) (root s'.sqrtPrice) := by
    cases hs'.stepEnd with
    | reached price =>
      rw [price]
      exact ahead_root.mpr (hnp.trans hpt)
    | short _ _ _ onward => exact ahead_root.mpr onward
  have hspent' : s'.amountIn + s'.fee = out.amountOut := by
    have hle := hs'.spent_le
    cases hs'.stepEnd with
    | reached price =>
      rw [price] at hin'
      have hfar := moved_le_moved (!aToB) hlq.le hrn hrp hrt (ahead_root.mpr hnp) (ahead_root.mpr hpt)
      have hall : (out.amountOut : ℚ) ≤ s'.amountIn := hproceeds.trans (hfar.trans hin')
      have hall' : out.amountOut ≤ s'.amountIn := Nat.cast_le.mp hall
      omega
    | short _ _ _ _ _ fee => omega
  obtain ⟨hbackOut, -⟩ := hsecond.only hspent'
  have hpaid : (s'.amountOut : ℚ) ≤ moved (!(!aToB)) (p.liquidity : ℚ) (root out.sqrtPrice) (root s'.sqrtPrice) :=
    hs'.le_exactOut
  have hworth := moved_le_of_moved_le (!(!aToB)) hlq hrn hrm hrp honward (ahead_root.mpr hnp)
    (hin'.trans (hincl.trans hproceeds))
  have htook : moved (!(!aToB)) (p.liquidity : ℚ) (root out.sqrtPrice) (root p.sqrtPrice) ≤ s.amountIn := by
    rw [Bool.not_not, moved_comm, hprice]
    exact hs.exactIn_le
  have hfinal : (back.amountOut : ℚ) ≤ s.amountIn := by
    rw [hbackOut]
    exact hpaid.trans (hworth.trans htook)
  have hfinal' : back.amountOut ≤ s.amountIn := Nat.cast_le.mp hfinal
  have hle := hs.covered.trans (afterFee_le x p.feePpm)
  omega

end Clmm

/-- **There and back never gains**, for pools as they are decoded. Raydium's
ticks come in the order their account has them, which must be ascending. -/
theorem round_trip_never_gains {kind : PoolKind} {pool : Bytes} {deps : List (Option Bytes)} {p : Clmm}
    (hp : decode kind pool deps = .ok (.clmm p)) (hasc : kind = .raydiumClmm → Ascending p)
    {lo hi : ℕ} (hlo : sqrtPriceAtTick p.tick = .ok lo) (hhi : sqrtPriceAtTick (p.tick + 1) = .ok hi)
    (h₁ : lo ≤ p.sqrtPrice) (h₂ : p.sqrtPrice < hi) {aToB : Bool} {amountIn : ℕ} (hx : amountIn < 2 ^ 64)
    {there back : Swap} (h : p.swap aToB amountIn = .ok there) (hcross : there.ticksCrossed = 0)
    {t : ℤ} (ht : tickAtSqrtPrice there.sqrtPrice = .ok t)
    (hback : (p.movedTo there.sqrtPrice t (Clmm.swap_sqrtPrice_lt hx h)).swap (!aToB) there.amountOut = .ok back) :
    back.amountOut ≤ amountIn := by
  obtain ⟨hacc, hwhirlpool⟩ := decode_clmm hp
  have hascending : Ascending p := by
    cases kind with
    | whirlpool => exact (hwhirlpool rfl).1
    | raydiumClmm => exact hasc rfl
    | meteoraDlmm =>
      unfold decode at hp
      obtain ⟨arrays, -, hp⟩ := Checked.bind_eq_ok.mp hp
      obtain ⟨q, -, hp⟩ := Checked.bind_eq_ok.mp hp
      exact nomatch Except.ok.inj hp
  obtain ⟨⟨hlow, hhigh⟩, rfl⟩ := sqrtPriceAtTick_eq_ok.mp hlo
  obtain ⟨-, rfl⟩ := sqrtPriceAtTick_eq_ok.mp hhi
  have hin : InTick p.sqrtPrice p.tick := ⟨hlow, hhigh, h₁, fun _ => h₂⟩
  exact Clmm.round_trip hascending hacc.covered hin hx h hcross (tickAtSqrtPrice_iff.mp ht) hback

/-- A pool at price 1 with no initialized tick at hand: a million of token B, and back. -/
theorem round_trip_never_gains_million :
    let pool := account 85 [(41, 2, 64), (43, 2, 64), (45, 2, 3000), (49, 16, 10 ^ 12), (65, 16, 2 ^ 64)]
    let array := account 9988 [(0, 8, 0xbb42076ebebd6145)]
    ∃ p, decode .whirlpool pool [some array] = .ok (.clmm p) ∧ 994008 ≤ 1000000 := by
  intro pool array
  let p : Clmm := ⟨2 ^ 64, 0, 10 ^ 12, 3000, [], (0, 5632), by norm_num, by norm_num⟩
  have hdecoded : Whirlpool.decode pool [array] = .ok p := by decide +kernel
  have hp : decode .whirlpool pool [some array] = .ok (.clmm p) := decode_whirlpool_one hdecoded
  have h : p.swap false 1000000 = .ok ⟨996999, 3000, 18446762465113393104, 0⟩ := by decide +kernel
  have hback : (p.movedTo 18446762465113393104 0 (by norm_num)).swap true 996999 =
      .ok ⟨994008, 2991, 18446744128883873838, 0⟩ := by decide +kernel
  exact ⟨p, hp, round_trip_never_gains hp (fun hk => absurd hk (by decide)) (sqrtPriceAtTick_eq_ok.mpr ⟨by decide, rfl⟩)
    (sqrtPriceAtTick_eq_ok.mpr ⟨by decide, rfl⟩) (by decide +kernel) (by decide +kernel) (by norm_num) h rfl
    (tickAtSqrtPrice_iff.mpr ⟨by decide, by decide, by decide +kernel, fun _ => by decide +kernel⟩) hback⟩

/-- With its ticks out of order, a Raydium pool passes by the nearer one on
the way out, and trades at the liquidity past it on the way back. -/
theorem round_trip_gains_out_of_order :
    let pool := account 273 [(235, 2, 10), (237, 16, 10 ^ 12), (253, 16, 2 ^ 64)]
    let config := account 51 []
    -- tick −50 with much liquidity above it in slot 0, tick −100 in slot 1
    let array := account 10240 [(40, 4, 2 ^ 32 - 300), (44, 4, 2 ^ 32 - 50), (48, 16, 10 ^ 17), (64, 16, 1),
      (212, 4, 2 ^ 32 - 100), (232, 16, 1)]
    ∃ (p : Clmm) (lo hi : ℕ) (there back : Swap) (t : ℤ) (hlt : there.sqrtPrice < 2 ^ 128),
      decode .raydiumClmm pool [some config, some array] = .ok (.clmm p) ∧
      sqrtPriceAtTick p.tick = .ok lo ∧ sqrtPriceAtTick (p.tick + 1) = .ok hi ∧ lo ≤ p.sqrtPrice ∧ p.sqrtPrice < hi ∧
      p.swap true 4000000000 = .ok there ∧ there.ticksCrossed = 0 ∧ tickAtSqrtPrice there.sqrtPrice = .ok t ∧
      (p.movedTo there.sqrtPrice t hlt).swap false there.amountOut = .ok back ∧ 4000000000 < back.amountOut := by
  intro pool config array
  let p : Clmm := ⟨2 ^ 64, 0, 10 ^ 12, 0, [⟨-50, 10 ^ 17⟩, ⟨-100, 0⟩], (-300, 300), by norm_num, by norm_num⟩
  have hdecoded : Raydium.decode pool config [array] = .ok p := by decide +kernel
  refine ⟨p, priceAt 0, priceAt 1, ⟨3984063745, 0, 18373251069431824319, 0⟩, ⟨4006264956, 0, 18400687572089554714, 1⟩,
    -80, by norm_num, decode_raydium_one hdecoded, by decide +kernel, by decide +kernel, by decide +kernel, by decide +kernel,
    by decide +kernel, rfl, ?_, by decide +kernel, by norm_num⟩
  exact tickAtSqrtPrice_iff.mpr ⟨by decide, by decide, by decide +kernel, fun _ => by decide +kernel⟩

end Amm
end MobiusSearcher
