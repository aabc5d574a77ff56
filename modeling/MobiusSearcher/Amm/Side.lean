/-
# The price moves the right way

A swap looks for ticks from the stored tick, and decoding lets that tick be one
off the tick the price is in. So the first target can be behind: a sale of
token A from a tick stored one too high, where the stored tick is initialized
or ends what is known; a sale of token B from one stored one too low, where the
price's own tick is. Nothing else goes wrong (`moves_the_right_way_iff`): past
the first target the search starts from the tick that was crossed.

Key definitions: `Clmm.Misplaced`, `Clmm.RightWay`, `Clmm.Facing`.
Key theorems: `Clmm.facing_start`, `Clmm.Facing.turn`, `moves_the_right_way_iff`.
-/
import MobiusSearcher.Amm.RoundTrip

namespace MobiusSearcher
namespace Amm

open Curve

namespace Clmm

variable {p : Clmm} {aToB : Bool} {w w' : Walk}

/-- The price ends up ahead, or where it was, and every step aims ahead. -/
def RightWay (p : Clmm) (aToB : Bool) (w : Walk) : Prop :=
  Ahead aToB p.sqrtPrice w.sqrtPrice ∧ ∀ m ∈ w.steps, Ahead aToB m.sqrtPrice m.target

/-- The stored tick is off the price's tick `c`, and the search from it finds a
tick on the wrong side. -/
def Misplaced (p : Clmm) (aToB : Bool) (c : ℤ) : Prop :=
  if aToB then p.tick = c + 1 ∧ p.targetTick true p.tick = c + 1
  else p.tick = c - 1 ∧ p.targetTick false p.tick = c ∧ priceAt c < p.sqrtPrice

/-- The target of the next turn is ahead. -/
def Facing (p : Clmm) (aToB : Bool) (w : Walk) : Prop :=
  ∀ target, sqrtPriceAtTick (p.targetTick aToB w.tick) = .ok target → Ahead aToB w.sqrtPrice target

theorem facing_start (hacc : Accepted p) {c : ℤ} (hc : InTick p.sqrtPrice c) (hnear : (c - p.tick).natAbs ≤ 1)
    (hplaced : ¬Misplaced p aToB c) (x : ℕ) : Facing p aToB (p.start x) := by
  intro target htarget
  change sqrtPriceAtTick (p.targetTick aToB p.tick) = .ok target at htarget
  show Ahead aToB p.sqrtPrice target
  obtain ⟨⟨hlow, hhigh⟩, rfl⟩ := sqrtPriceAtTick_eq_ok.mp htarget
  have hside := @targetTick_side p aToB hacc.covered
  have hprice := hc.price
  unfold Misplaced at hplaced
  unfold Ahead
  cases aToB
  · simp only [Bool.false_eq_true, if_false] at hside hplaced ⊢
    by_cases hnext : p.targetTick false p.tick = c
    · -- the price's own tick, from one below it
      have hexact : ¬priceAt c < p.sqrtPrice := fun hlt => hplaced ⟨by omega, hnext, hlt⟩
      rw [hnext]
      omega
    · have hover := hc.next (by omega)
      have hle : priceAt (c + 1) ≤ priceAt (p.targetTick false p.tick) :=
        priceAt_le (by have := hc.low; omega) (by omega) hhigh
      omega
  · simp only [if_true] at hside hplaced ⊢
    have hbelow : p.targetTick true p.tick ≤ c := by
      by_contra hlt
      exact hplaced ⟨by omega, by omega⟩
    have hle : priceAt (p.targetTick true p.tick) ≤ priceAt c := priceAt_le hlow hbelow hc.high
    omega

/-- Misplaced, the first target is behind. -/
theorem Misplaced.behind {c : ℤ} (h : Misplaced p aToB c) (hc : InTick p.sqrtPrice c) {target : ℕ}
    (htarget : sqrtPriceAtTick (p.targetTick aToB p.tick) = .ok target) : ¬Ahead aToB p.sqrtPrice target := by
  obtain ⟨⟨hlow, hhigh⟩, rfl⟩ := sqrtPriceAtTick_eq_ok.mp htarget
  unfold Misplaced at h
  unfold Ahead
  cases aToB
  · simp only [Bool.false_eq_true, if_false] at h ⊢
    rw [h.2.1]
    exact not_le.mpr h.2.2
  · simp only [if_true] at h hhigh ⊢
    rw [h.2] at hhigh ⊢
    exact not_le.mpr (hc.next (by omega))

/-- The next target's place, once a tick was crossed. -/
theorem targetTick_past (hin : Inside p) {t : Tick} (ht : t ∈ p.ticks) :
    if aToB then p.targetTick true (t.index - 1) ≤ t.index else t.index < p.targetTick false t.index := by
  cases aToB
  · rw [if_neg (by decide)]
    cases hnext : p.nextTick false t.index with
    | none =>
      rw [targetTick_none hnext]
      exact (hin t ht).2
    | some u =>
      rw [targetTick_some hnext]
      have hlt := nextTick_side hnext
      rw [if_neg (by decide)] at hlt
      exact hlt
  · rw [if_pos rfl]
    cases hnext : p.nextTick true (t.index - 1) with
    | none =>
      rw [targetTick_none hnext]
      exact (hin t ht).1
    | some u =>
      rw [targetTick_some hnext]
      have hle := nextTick_side hnext
      rw [if_pos rfl] at hle
      omega

/-- A turn that faces its target moves the price ahead, and faces the next one. -/
theorem Facing.turn {broke : Bool} (hin : Inside p) (hr : Ranged w) (hf : Facing p aToB w)
    (h : p.turn aToB w = .ok (w', broke)) :
    Ahead aToB w.sqrtPrice w'.sqrtPrice ∧ (w'.remaining ≠ 0 → Facing p aToB w') := by
  obtain ⟨target, s, htarget, hs, hrem, hprice, -, -, -, hend⟩ := turn_eq_ok h
  obtain ⟨ht0, ht⟩ := targetTick_pos htarget
  have hstepped := step_ok hr.sqrtPrice_lt ht ht0 hr.liquidity_lt hr.remaining_lt hs
  have hahead := hf target htarget
  rw [hprice]
  constructor
  · cases hstepped.stepEnd with
    | reached price =>
      rw [price]
      exact hahead
    | short _ _ _ onward => exact onward
  · intro hleft
    rcases hend with ⟨hb, -⟩ | ⟨-, hreached, htick, ⟨-, hzero, -⟩ | ⟨t, hnext, -⟩⟩
    · subst hb
      exact absurd (turn_broke hr h) hleft
    · exact absurd hzero hleft
    · -- the price is the crossed tick's
      rw [targetTick_some hnext] at htick htarget
      obtain ⟨⟨hlow, hhigh⟩, hat⟩ := sqrtPriceAtTick_eq_ok.mp htarget
      intro target' htarget'
      obtain ⟨⟨hlow', hhigh'⟩, rfl⟩ := sqrtPriceAtTick_eq_ok.mp htarget'
      have hpast := @targetTick_past p aToB hin _ (nextTick_mem hnext)
      rw [hprice, hreached, hat]
      rw [htick] at hlow' hhigh' ⊢
      unfold Ahead
      cases aToB
      · simp only [Bool.false_eq_true, if_false] at hpast hlow' hhigh' ⊢
        exact priceAt_le hlow hpast.le hhigh'
      · simp only [if_true] at hpast hlow' hhigh' ⊢
        exact priceAt_le hlow' hpast hhigh

/-- What a swap that faces its first target keeps. -/
structure Onward (p : Clmm) (aToB : Bool) (w : Walk) : Prop where
  ranged : Ranged w
  facing : w.remaining ≠ 0 → Facing p aToB w
  rightWay : RightWay p aToB w

theorem Onward.turn {broke : Bool} (hin : Inside p) (h : Onward p aToB w) (hleft : w.remaining ≠ 0)
    (hturn : p.turn aToB w = .ok (w', broke)) : Onward p aToB w' := by
  obtain ⟨hprice, hfacing⟩ := (h.facing hleft).turn hin h.ranged hturn
  obtain ⟨target, s, htarget, -, -, hsteps⟩ := turn_stepped h.ranged hturn
  refine ⟨h.ranged.turn hturn, hfacing, h.rightWay.1.trans hprice, ?_⟩
  rw [hsteps]
  intro m hm
  rcases List.mem_cons.mp hm with rfl | hm
  · exact h.facing hleft target htarget
  · exact h.rightWay.2 m hm

/-- The steps made stay on record. -/
theorem walk_steps_subset (h : p.walk aToB w = .ok w') : ∀ m ∈ w.steps, m ∈ w'.steps := by
  refine Loop.run_inv (I := fun v => ∀ m ∈ w.steps, m ∈ v.steps) (fun {v v' broke} hall _ hturn m hm => ?_)
    (fun m hm => hm) h
  obtain ⟨target, s, -, -, -, -, -, -, hsteps, -⟩ := turn_eq_ok hturn
  rw [hsteps]
  exact List.mem_cons_of_mem _ (hall m hm)

/-- The first step is on record. -/
theorem walk_first {x : ℕ} (hx : x ≠ 0) (h : p.walk aToB (p.start x) = .ok w) :
    ∃ m ∈ w.steps, m.sqrtPrice = p.sqrtPrice ∧ sqrtPriceAtTick (p.targetTick aToB p.tick) = .ok m.target := by
  have hmade : ∀ {v : Walk} {broke : Bool}, p.turn aToB (p.start x) = .ok (v, broke) →
      ∃ m ∈ v.steps, m.sqrtPrice = p.sqrtPrice ∧ sqrtPriceAtTick (p.targetTick aToB p.tick) = .ok m.target := by
    intro v broke hturn
    obtain ⟨target, s, htarget, -, -, -, -, -, hsteps, -⟩ := turn_eq_ok hturn
    rw [hsteps]
    exact ⟨_, List.mem_cons_self .., rfl, htarget⟩
  rcases Loop.run_eq_ok.mp h with ⟨hdone, -⟩ | ⟨-, hbroke | ⟨v, hv, hrest⟩⟩
  · exact absurd (of_decide_eq_true hdone) hx
  · exact hmade hbroke
  · obtain ⟨m, hm, hmp⟩ := hmade hv
    exact ⟨m, walk_steps_subset hrest m hm, hmp⟩

theorem rightWay_iff (hin : Inside p) (hacc : Accepted p) {c : ℤ} (hc : tickAtSqrtPrice p.sqrtPrice = .ok c) {x : ℕ}
    (hx : x < 2 ^ 64) (h : p.walk aToB (p.start x) = .ok w) : RightWay p aToB w ↔ x = 0 ∨ ¬Misplaced p aToB c := by
  have hinTick := tickAtSqrtPrice_iff.mp hc
  obtain ⟨c', hc', hnear⟩ := hacc.near
  obtain rfl := Except.ok.inj (hc.symm.trans hc')
  constructor
  · intro hright
    by_cases hx0 : x = 0
    · exact .inl hx0
    · obtain ⟨m, hm, hprice, htarget⟩ := walk_first hx0 h
      refine .inr fun hmis => hmis.behind hinTick htarget ?_
      rw [← hprice]
      exact hright.2 m hm
  · intro hcond
    have hfacing : x ≠ 0 → Facing p aToB (p.start x) := by
      intro hx0
      exact facing_start hacc hinTick hnear (hcond.resolve_left hx0) x
    have hstart : Onward p aToB (p.start x) :=
      ⟨ranged_start p hx, hfacing, Ahead.refl _ _, fun m hm => absurd hm List.not_mem_nil⟩
    have hend : Onward p aToB w :=
      Loop.run_inv (fun hv hdone hturn => Onward.turn hin hv (of_decide_eq_false hdone) hturn) hstart h
    exact hend.rightWay

end Clmm

/-- **When a swap moves the price the right way**: whatever it sells, unless
the stored tick is misplaced and leads to a target behind the price. A
Whirlpool's ticks are always inside the range that is known. -/
theorem moves_the_right_way_iff {kind : PoolKind} {pool : Bytes} {deps : List (Option Bytes)} {p : Clmm}
    (hp : decode kind pool deps = .ok (.clmm p)) {aToB : Bool} {amountIn : ℕ} (hx : amountIn < 2 ^ 64) {s : Swap}
    (h : p.swap aToB amountIn = .ok s) :
    ∃ c w, tickAtSqrtPrice p.sqrtPrice = .ok c ∧ p.walk aToB (p.start amountIn) = .ok w ∧ s.sqrtPrice = w.sqrtPrice ∧
      (Inside p → (Clmm.RightWay p aToB w ↔ amountIn = 0 ∨ ¬Clmm.Misplaced p aToB c)) ∧
      (kind = .whirlpool → Inside p) := by
  obtain ⟨hacc, hwhirlpool⟩ := decode_clmm hp
  obtain ⟨c, hc, -⟩ := hacc.near
  obtain ⟨w, hw, -, -, hprice, -⟩ := Clmm.swap_eq_ok h
  exact ⟨c, w, hc, hw, hprice, fun hin => Clmm.rightWay_iff hin hacc hc hx hw, fun hk => (hwhirlpool hk).2⟩

/-- A pool at price 1, its price in its stored tick. -/
theorem moves_the_right_way_iff_million :
    let pool := account 85 [(41, 2, 64), (43, 2, 64), (45, 2, 3000), (49, 16, 10 ^ 12), (65, 16, 2 ^ 64)]
    let array := account 9988 [(0, 8, 0xbb42076ebebd6145)]
    ∃ p w, decode .whirlpool pool [some array] = .ok (.clmm p) ∧ Clmm.RightWay p false w := by
  intro pool array
  let p : Clmm := ⟨2 ^ 64, 0, 10 ^ 12, 3000, [], (0, 5632), by norm_num, by norm_num⟩
  have hdecoded : Whirlpool.decode pool [array] = .ok p := by decide +kernel
  have hp : decode .whirlpool pool [some array] = .ok (.clmm p) := decode_whirlpool_one hdecoded
  have h : p.swap false 1000000 = .ok ⟨996999, 3000, 18446762465113393104, 0⟩ := by decide +kernel
  obtain ⟨c, w, hc, -, -, hiff, hin⟩ := moves_the_right_way_iff hp (by norm_num) h
  have hzero : tickAtSqrtPrice p.sqrtPrice = .ok 0 :=
    tickAtSqrtPrice_iff.mpr ⟨by decide, by decide, by decide +kernel, fun _ => by decide +kernel⟩
  obtain rfl := Except.ok.inj (hzero.symm.trans hc)
  refine ⟨p, w, hp, (hiff (hin rfl)).mpr (.inr ?_)⟩
  rintro ⟨hplace, -⟩
  exact absurd hplace (by decide)

/-- The price in tick −1, tick 0 stored and initialized: the sale of token A
that reaches it raises the price. -/
theorem sale_raises_the_price :
    let pool := account 85 [(41, 2, 64), (43, 2, 64), (49, 16, 10 ^ 18), (65, 16, 2 ^ 64 - 10 ^ 12)]
    let array := account 9988 [(0, 8, 0xbb42076ebebd6145), (12, 1, 1)]
    ∃ p s, decode .whirlpool pool [some array] = .ok (.clmm p) ∧ p.swap true 54210111563 = .ok s ∧
      p.sqrtPrice < s.sqrtPrice := by
  intro pool array
  let p : Clmm := ⟨2 ^ 64 - 10 ^ 12, 0, 10 ^ 18, 0, [⟨0, 0⟩], (0, 5632), by norm_num, by norm_num⟩
  have hdecoded : Whirlpool.decode pool [array] = .ok p := by decide +kernel
  exact ⟨p, ⟨54210108624, 0, 2 ^ 64 - 1, 1⟩, decode_whirlpool_one hdecoded, by decide +kernel, by norm_num⟩

end Amm
end MobiusSearcher
