/-
# Ticks and their prices

`sqrt_price_at_tick` and `tick_at_sqrt_price` of `crates/market/src/amm/math.rs`:
the square root of `1.0001^tick` in Q64.64 as a product of constants, one for
each bit of the tick, rounded down at each, and a search for the largest tick
whose price is at most a given one.

That the price increases is not visible in the product. A tick and the next
differ in their low bits only: past these both are shrunk by the same
constants, and a gap of one part in 20,002 between two factors survives
nineteen roundings (`shrink_gap`), since no price is under 2^90 of 2^128.

Key definitions: `sqrtPriceAtTick`, `tickAtSqrtPrice`, `shrink`, `priceAt`.
Key theorems: `sqrtPriceAtTick_eq`, `priceAt_lt`, `tick_and_price_agree`.
-/
import MobiusSearcher.Amm.Wide

namespace MobiusSearcher
namespace Amm

def minTick : ℤ := -443636
def maxTick : ℤ := 443636

/-- `⌊2^128 × 1.0001^(−2^i / 2)⌋` for bit `i` of a tick. -/
def halfTickPowers : List ℕ := [
  0xfffcb933bd6fad37aa2d162d1a594001,
  0xfff97272373d413259a46990580e2139,
  0xfff2e50f5f656932ef12357cf3c7fdcb,
  0xffe5caca7e10e4e61c3624eaa0941ccf,
  0xffcb9843d60f6159c9db58835c926643,
  0xff973b41fa98c081472e6896dfb254bf,
  0xff2ea16466c96a3843ec78b326b52860,
  0xfe5dee046a99a2a811c461f1969c3052,
  0xfcbe86c7900a88aedcffc83b479aa3a3,
  0xf987a7253ac413176f2b074cf7815e53,
  0xf3392b0822b70005940c7a398e4b70f2,
  0xe7159475a2c29b7443b29c7fa6e889d8,
  0xd097f3bdfd2022b8845ad8f792aa5825,
  0xa9f746462d870fdf8a65dc1f90e061e4,
  0x70d869a156d2a1b890bb3df62baf32f6,
  0x31be135f97d08fd981231505542fcfa5,
  0x09aa508b5b7a84e1c677de54f3e99bc8,
  0x005d6af8dedb81196699c329225ee604,
  0x00002216e584f5fa1ea926041bedfe97]

/-- The factor of one bit of the tick. -/
def tickBit (n : ℕ) (r : ℕ) (bit : ℕ × ℕ) : Checked ℕ :=
  if n / 2 ^ bit.2 % 2 = 1 then do
    let p ← U256.mul r bit.1
    pure p.hi
  else pure r

/-- `√(1.0001^tick)` in Q64.64, within one unit of the exact value. -/
def sqrtPriceAtTick (tick : ℤ) : Checked ℕ :=
  if ¬(minTick ≤ tick ∧ tick ≤ maxTick) then Checked.none
  else do
    let r ← halfTickPowers.zipIdx.foldlM (tickBit tick.natAbs) (2 ^ 128 - 1) -- 1.0 in Q0.128
    if 0 < tick then do
      let (q, _) ← (⟨2 ^ 64, 0⟩ : U256).divRem r
      q.low
    else pure (r / 2 ^ 64)

/-- The search, between two ticks that are in range. -/
def searchTick (sqrtPrice : ℕ) (lo hi : ℤ) : Checked ℤ :=
  if h : lo < hi then do
    let mid := lo + (hi - lo + 1) / 2
    let p ← sqrtPriceAtTick mid
    if p ≤ sqrtPrice then searchTick sqrtPrice mid hi else searchTick sqrtPrice lo (mid - 1)
  else .ok lo
  termination_by (hi - lo).toNat
  decreasing_by all_goals omega

/-- The largest tick whose square-root price is at most `sqrt_price`. -/
def tickAtSqrtPrice (sqrtPrice : ℕ) : Checked ℤ := do
  let least ← sqrtPriceAtTick minTick
  if sqrtPrice < least then Checked.none else searchTick sqrtPrice minTick maxTick

/-! ### The product -/

/-- 1.0 in Q0.128, as near as it comes. -/
def one : ℕ := 2 ^ 128 - 1

/-- The product of the constants at the bits of `n`, from the lowest. -/
def shrink : List ℕ → ℕ → ℕ → ℕ
  | [], _, r => r
  | c :: cs, n, r => shrink cs (n / 2) (if n % 2 = 1 then r * c / 2 ^ 128 else r)

/-- The product of them all. -/
def shrinkAll : List ℕ → ℕ → ℕ
  | [], r => r
  | c :: cs, r => shrinkAll cs (r * c / 2 ^ 128)

theorem powers_lt : ∀ c ∈ halfTickPowers, c < 2 ^ 128 := by decide

theorem shrunk_le {r c : ℕ} (hc : c < 2 ^ 128) : r * c / 2 ^ 128 ≤ r := by
  apply Nat.div_le_of_le_mul
  rw [Nat.mul_comm]
  exact Nat.mul_le_mul_right r hc.le

theorem foldlM_shrink (n : ℕ) : ∀ (cs : List ℕ) (k r : ℕ), (∀ c ∈ cs, c < 2 ^ 128) → r < 2 ^ 128 →
    (cs.zipIdx k).foldlM (tickBit n) r = .ok (shrink cs (n / 2 ^ k) r)
  | [], _, _, _, _ => rfl
  | c :: cs, k, r, hcs, hr => by
    have hc := hcs c (List.mem_cons_self ..)
    have hrest := fun d hd => hcs d (List.mem_cons_of_mem c hd)
    rw [List.zipIdx_cons, List.foldlM_cons]
    unfold tickBit shrink
    simp only
    have hhalf : n / 2 ^ k / 2 = n / 2 ^ (k + 1) := by rw [Nat.div_div_eq_div_mul, pow_succ]
    rw [hhalf]
    by_cases hbit : n / 2 ^ k % 2 = 1
    · rw [if_pos hbit, if_pos hbit, U256.mul_eq hr hc]
      exact foldlM_shrink n cs (k + 1) _ hrest ((shrunk_le hc).trans_lt hr)
    · rw [if_neg hbit, if_neg hbit]
      exact foldlM_shrink n cs (k + 1) r hrest hr

/-- Whatever the bits, at least the product of all of them. -/
theorem shrinkAll_le : ∀ {cs : List ℕ} {x y : ℕ} (n : ℕ), (∀ c ∈ cs, c < 2 ^ 128) → y ≤ x →
    shrinkAll cs y ≤ shrink cs n x
  | [], _, _, _, _, h => h
  | c :: cs, x, y, n, hcs, h => by
    have hc := hcs c (List.mem_cons_self ..)
    unfold shrinkAll shrink
    refine shrinkAll_le (n / 2) (fun d hd => hcs d (List.mem_cons_of_mem c hd)) ?_
    have hle : y * c / 2 ^ 128 ≤ x * c / 2 ^ 128 := Nat.div_le_div_right (Nat.mul_le_mul_right c h)
    by_cases hbit : n % 2 = 1
    · rw [if_pos hbit]
      exact hle
    · rw [if_neg hbit]
      exact hle.trans (shrunk_le hc)

theorem shrink_le : ∀ {cs : List ℕ} {x : ℕ} (n : ℕ), (∀ c ∈ cs, c < 2 ^ 128) → shrink cs n x ≤ x
  | [], _, _, _ => le_refl _
  | c :: cs, x, n, hcs => by
    have hc := hcs c (List.mem_cons_self ..)
    unfold shrink
    refine (shrink_le (n / 2) fun d hd => hcs d (List.mem_cons_of_mem c hd)).trans ?_
    by_cases hbit : n % 2 = 1
    · rw [if_pos hbit]
      exact shrunk_le hc
    · rw [if_neg hbit]

/-- The rounded product is the exact one, less one unit a factor at most. -/
theorem shrink_ratio : ∀ (cs : List ℕ) (n : ℕ), (∀ c ∈ cs, c < 2 ^ 128) → ∃ p q, 0 < q ∧ p ≤ q ∧
    ∀ x, shrink cs n x * q ≤ x * p ∧ x * p ≤ (shrink cs n x + cs.length) * q
  | [], _, _ => ⟨1, 1, Nat.one_pos, le_refl _, fun _ => ⟨le_refl _, le_refl _⟩⟩
  | c :: cs, n, hcs => by
    have hc := hcs c (List.mem_cons_self ..)
    obtain ⟨p, q, hq, hpq, h⟩ := shrink_ratio cs (n / 2) fun d hd => hcs d (List.mem_cons_of_mem c hd)
    by_cases hbit : n % 2 = 1
    · refine ⟨c * p, 2 ^ 128 * q, by positivity, Nat.mul_le_mul hc.le hpq, fun x => ?_⟩
      unfold shrink
      rw [if_pos hbit]
      have hdown : x * c / 2 ^ 128 * 2 ^ 128 ≤ x * c := Nat.div_mul_le_self ..
      have hup : x * c ≤ (x * c / 2 ^ 128 + 1) * 2 ^ 128 := by omega
      obtain ⟨hl, hr⟩ := h (x * c / 2 ^ 128)
      generalize x * c / 2 ^ 128 = y at hdown hup hl hr ⊢
      generalize shrink cs (n / 2) y = t at hl hr ⊢
      constructor
      · calc t * (2 ^ 128 * q) = t * q * 2 ^ 128 := by ring
          _ ≤ y * p * 2 ^ 128 := Nat.mul_le_mul_right _ hl
          _ = y * 2 ^ 128 * p := by ring
          _ ≤ x * c * p := Nat.mul_le_mul_right _ hdown
          _ = x * (c * p) := by ring
      · calc x * (c * p) = x * c * p := by ring
          _ ≤ (y + 1) * 2 ^ 128 * p := Nat.mul_le_mul_right _ hup
          _ = (y * p + p) * 2 ^ 128 := by ring
          _ ≤ ((t + cs.length) * q + q) * 2 ^ 128 := Nat.mul_le_mul_right _ (Nat.add_le_add hr hpq)
          _ = (t + (c :: cs).length) * (2 ^ 128 * q) := by rw [List.length_cons]; ring
    · refine ⟨p, q, hq, hpq, fun x => ?_⟩
      unfold shrink
      rw [if_neg hbit]
      obtain ⟨hl, hr⟩ := h x
      refine ⟨hl, hr.trans (Nat.mul_le_mul_right q ?_)⟩
      rw [List.length_cons]
      omega

/-! ### The gap between a tick and the next -/

/-- Past its low ones, a tick has a bit that the next has: one part in 20,002
less than the product of the low ones. -/
def gaps : List ℕ → ℕ → Bool
  | [], _ => true
  | c :: cs, a => decide (20003 * (one * c / 2 ^ 128) ≤ 20002 * a) && gaps cs (a * c / 2 ^ 128)

theorem gaps_powers : gaps halfTickPowers one = true := by decide +kernel

theorem shrink_gap : ∀ {cs : List ℕ} {n a : ℕ}, (∀ c ∈ cs, c < 2 ^ 128) → gaps cs a = true → n + 1 < 2 ^ cs.length →
    20003 * shrink cs (n + 1) one ≤ 20002 * (shrink cs n a + cs.length)
  | [], n, a, _, _, hn => by
    rw [List.length_nil, pow_zero] at hn
    omega
  | c :: cs, n, a, hcs, hg, hn => by
    have hrest := fun d hd => hcs d (List.mem_cons_of_mem c hd)
    rw [List.length_cons, pow_succ] at hn
    unfold gaps at hg
    rw [Bool.and_eq_true, decide_eq_true_iff] at hg
    obtain ⟨hgap, hgaps⟩ := hg
    unfold shrink
    by_cases hbit : n % 2 = 1
    · -- a low one: the next tick has a zero there, and carries
      have hnext : ¬(n + 1) % 2 = 1 := by omega
      have hcarry : (n + 1) / 2 = n / 2 + 1 := by omega
      have ih := @shrink_gap cs (n / 2) _ hrest hgaps (by omega)
      rw [if_pos hbit, if_neg hnext, hcarry, List.length_cons]
      omega
    · -- the zero the carry ends in: the bits above are those of the next tick
      have hnext : (n + 1) % 2 = 1 := by omega
      have hsame : (n + 1) / 2 = n / 2 := by omega
      obtain ⟨p, q, hq, -, h⟩ := shrink_ratio cs (n / 2) hrest
      rw [if_neg hbit, if_pos hnext, hsame, List.length_cons]
      have hlow := (h (one * c / 2 ^ 128)).1
      have hhigh := (h a).2
      generalize shrink cs (n / 2) (one * c / 2 ^ 128) = b' at hlow ⊢
      generalize shrink cs (n / 2) a = a' at hhigh ⊢
      have hscaled : 20003 * b' * q ≤ 20002 * (a' + cs.length) * q := by
        calc 20003 * b' * q = 20003 * (b' * q) := by ring
          _ ≤ 20003 * (one * c / 2 ^ 128 * p) := Nat.mul_le_mul_left _ hlow
          _ = 20003 * (one * c / 2 ^ 128) * p := by ring
          _ ≤ 20002 * a * p := Nat.mul_le_mul_right _ hgap
          _ = 20002 * (a * p) := by ring
          _ ≤ 20002 * ((a' + cs.length) * q) := Nat.mul_le_mul_left _ hhigh
          _ = 20002 * (a' + cs.length) * q := by ring
      have hle := Nat.le_of_mul_le_mul_right hscaled hq
      omega

theorem shrinkAll_powers : 2 ^ 90 ≤ shrinkAll halfTickPowers one := by decide +kernel

/-- The product of a tick's constants. -/
def factor (n : ℕ) : ℕ := shrink halfTickPowers n one

theorem factor_ge (n : ℕ) : 2 ^ 90 ≤ factor n :=
  shrinkAll_powers.trans (shrinkAll_le n powers_lt (le_refl _))

theorem factor_lt (n : ℕ) : factor n < 2 ^ 128 := (shrink_le n powers_lt).trans_lt (by unfold one; norm_num)

/-- The factor of the next tick is smaller, by more than every rounding. -/
theorem factor_gap {n : ℕ} (hn : n + 1 < 2 ^ 19) : 32768 * factor (n + 1) ≤ 32767 * factor n := by
  have hgap : 20003 * factor (n + 1) ≤ 20002 * (factor n + 19) :=
    shrink_gap (n := n) powers_lt gaps_powers hn
  have hge := factor_ge n
  omega

/-! ### The price of a tick -/

def priceAt (tick : ℤ) : ℕ := if 0 < tick then 2 ^ 192 / factor tick.natAbs else factor tick.natAbs / 2 ^ 64

theorem priceAt_lt_u128 (tick : ℤ) : priceAt tick < 2 ^ 128 := by
  have hlt := factor_lt tick.natAbs
  have hge := factor_ge tick.natAbs
  unfold priceAt
  split
  · have hle : 2 ^ 192 / factor tick.natAbs ≤ 2 ^ 192 / 2 ^ 90 := Nat.div_le_div_left hge (by norm_num)
    exact hle.trans_lt (by norm_num)
  · omega

theorem priceAt_pos (tick : ℤ) : 0 < priceAt tick := by
  have hlt := factor_lt tick.natAbs
  have hge := factor_ge tick.natAbs
  unfold priceAt
  split
  · apply Nat.div_pos (hlt.le.trans (by norm_num))
    omega
  · omega

theorem sqrtPriceAtTick_eq (tick : ℤ) :
    sqrtPriceAtTick tick = if minTick ≤ tick ∧ tick ≤ maxTick then .ok (priceAt tick) else Checked.none := by
  unfold sqrtPriceAtTick
  by_cases hin : minTick ≤ tick ∧ tick ≤ maxTick
  · have hfold : halfTickPowers.zipIdx.foldlM (tickBit tick.natAbs) (2 ^ 128 - 1) = .ok (factor tick.natAbs) := by
      rw [foldlM_shrink _ _ 0 _ powers_lt (by norm_num), pow_zero, Nat.div_one]
      rfl
    have hpos : factor tick.natAbs ≠ 0 := by
      have hge := factor_ge tick.natAbs
      omega
    have hprice := priceAt_lt_u128 tick
    rw [if_neg (not_not.mpr hin), if_pos hin, hfold, Checked.ok_bind]
    unfold priceAt at hprice ⊢
    by_cases htick : 0 < tick
    · rw [if_pos htick] at hprice
      rw [if_pos htick, if_pos htick, U256.divRem_eq ⟨by norm_num, by norm_num⟩ (factor_lt _), if_neg hpos,
        Checked.ok_bind]
      have hval : U256.val ⟨2 ^ 64, 0⟩ = 2 ^ 192 := by norm_num [U256.val]
      rw [hval]
      show (U256.ofNat (2 ^ 192 / factor tick.natAbs)).low = _
      rw [U256.low_ofNat, Checked.fit, if_pos hprice]
    · rw [if_neg htick, if_neg htick]
      rfl
  · rw [if_pos hin, if_neg hin]

theorem sqrtPriceAtTick_eq_ok {tick : ℤ} {x : ℕ} :
    sqrtPriceAtTick tick = .ok x ↔ (minTick ≤ tick ∧ tick ≤ maxTick) ∧ x = priceAt tick := by
  rw [sqrtPriceAtTick_eq]
  exact Checked.of_if_eq_ok fun _ => Checked.none_ne_ok

theorem priceAt_step {t : ℤ} (h₁ : minTick ≤ t) (h₂ : t < maxTick) : priceAt t < priceAt (t + 1) := by
  unfold minTick at h₁
  unfold maxTick at h₂
  unfold priceAt
  rcases lt_trichotomy t 0 with hneg | rfl | hpos
  · -- under price 1: the factors, cut to 64 bits
    have habs : t.natAbs = (t + 1).natAbs + 1 := by omega
    have hgap := @factor_gap (t + 1).natAbs (by omega)
    have hge := factor_ge (t + 1).natAbs
    rw [if_neg (by omega), if_neg (by omega), habs]
    omega
  · rw [if_neg (by norm_num), if_pos (by norm_num)]
    decide +kernel
  · -- over it: their inverses
    have habs : (t + 1).natAbs = t.natAbs + 1 := by omega
    have hgap := @factor_gap t.natAbs (by omega)
    have hlt := factor_lt (t.natAbs + 1)
    have hge := factor_ge (t.natAbs + 1)
    rw [if_pos hpos, if_pos (by omega), habs]
    generalize factor (t.natAbs + 1) = b at hgap hlt hge ⊢
    have hq : 2 ^ 192 / factor t.natAbs * factor t.natAbs ≤ 2 ^ 192 := Nat.div_mul_le_self ..
    generalize 2 ^ 192 / factor t.natAbs = q at hq ⊢
    generalize factor t.natAbs = a at hgap hq
    apply Nat.lt_of_succ_le
    rw [Nat.le_div_iff_mul_le (by omega)]
    have hscaled : 32768 * (q * b) ≤ 32767 * (q * a) := by
      calc 32768 * (q * b) = q * (32768 * b) := by ring
        _ ≤ q * (32767 * a) := Nat.mul_le_mul_left q hgap
        _ = 32767 * (q * a) := by ring
    have hsucc : (q + 1) * b = q * b + b := Nat.succ_mul q b
    show (q + 1) * b ≤ 2 ^ 192
    rw [hsucc]
    generalize q * b = m at hscaled ⊢
    omega

/-- **The price increases with the tick.** -/
theorem priceAt_lt {s t : ℤ} (h₁ : minTick ≤ s) (h : s < t) (h₂ : t ≤ maxTick) : priceAt s < priceAt t := by
  have hall : ∀ k : ℕ, s + 1 + k ≤ maxTick → priceAt s < priceAt (s + 1 + k) := by
    intro k
    induction k with
    | zero =>
      intro hk
      rw [Nat.cast_zero, add_zero] at hk ⊢
      exact priceAt_step h₁ (by omega)
    | succ k ih =>
      intro hk
      have hstep := priceAt_step (t := s + 1 + k) (by omega) (by push_cast at hk; omega)
      have hshape : s + 1 + ((k + 1 : ℕ) : ℤ) = s + 1 + k + 1 := by push_cast; ring
      rw [hshape]
      exact (ih (by push_cast at hk; omega)).trans hstep
  have hk := hall (t - s - 1).toNat
  have hshape : s + 1 + ((t - s - 1).toNat : ℤ) = t := by omega
  rw [hshape] at hk
  exact hk h₂

theorem priceAt_le {s t : ℤ} (h₁ : minTick ≤ s) (h : s ≤ t) (h₂ : t ≤ maxTick) : priceAt s ≤ priceAt t := by
  rcases h.lt_or_eq with hlt | rfl
  · exact (priceAt_lt h₁ hlt h₂).le
  · exact le_refl _

/-! ### The tick of a price -/

/-- The tick a price is in: the largest whose price is at most it. -/
structure InTick (x : ℕ) (t : ℤ) : Prop where
  low : minTick ≤ t
  high : t ≤ maxTick
  price : priceAt t ≤ x
  next : t < maxTick → x < priceAt (t + 1)

theorem InTick.le {x : ℕ} {t u : ℤ} (h : InTick x t) (hu : u ≤ maxTick) (hp : priceAt u ≤ x) : u ≤ t := by
  by_contra hlt
  have hx := h.next (by omega)
  have hle : priceAt (t + 1) ≤ priceAt u := priceAt_le (by have := h.low; omega) (by omega) hu
  omega

theorem InTick.unique {x : ℕ} {t u : ℤ} (h : InTick x t) (h' : InTick x u) : t = u :=
  le_antisymm (h'.le h.high h.price) (h.le h'.high h'.price)

/-- The search keeps the tick it looks for between its bounds. -/
theorem searchTick_spec (x : ℕ) (lo hi : ℤ) (hlo : minTick ≤ lo) (hle : lo ≤ hi) (hhi : hi ≤ maxTick)
    (hp : priceAt lo ≤ x) (hnext : hi < maxTick → x < priceAt (hi + 1)) :
    ∃ t, searchTick x lo hi = .ok t ∧ InTick x t := by
  induction lo, hi using searchTick.induct with
  | case1 lo hi h mid ih₁ ih₂ =>
    have hmid : mid = lo + (hi - lo + 1) / 2 := rfl
    rw [searchTick, dif_pos h]
    simp only [← hmid]
    rw [sqrtPriceAtTick_eq, if_pos ⟨by omega, by omega⟩, Checked.ok_bind]
    by_cases hm : priceAt mid ≤ x
    · rw [if_pos hm]
      exact ih₁ (by omega) (by omega) hhi hm hnext
    · rw [if_neg hm]
      refine ih₂ hlo (by omega) (by omega) hp fun _ => ?_
      have hback : mid - 1 + 1 = mid := by ring
      rw [hback]
      omega
  | case2 lo hi h =>
    rw [searchTick, dif_neg h]
    obtain rfl : lo = hi := by omega
    exact ⟨lo, rfl, hlo, hhi, hp, hnext⟩

theorem tickAtSqrtPrice_eq (x : ℕ) :
    (x < priceAt minTick ∧ tickAtSqrtPrice x = Checked.none) ∨ ∃ t, tickAtSqrtPrice x = .ok t ∧ InTick x t := by
  unfold tickAtSqrtPrice
  rw [sqrtPriceAtTick_eq, if_pos ⟨le_refl _, by decide⟩, Checked.ok_bind]
  by_cases hx : x < priceAt minTick
  · rw [if_pos hx]
    exact .inl ⟨hx, rfl⟩
  · rw [if_neg hx]
    refine .inr (searchTick_spec x minTick maxTick (le_refl _) (by decide) (le_refl _) (by omega) ?_)
    exact fun h => absurd h (lt_irrefl _)

theorem tickAtSqrtPrice_iff {x : ℕ} {t : ℤ} : tickAtSqrtPrice x = .ok t ↔ InTick x t := by
  rcases tickAtSqrtPrice_eq x with ⟨hx, hn⟩ | ⟨u, hu, hin⟩
  · rw [hn]
    refine ⟨nofun, fun h => ?_⟩
    have hle : priceAt minTick ≤ priceAt t := priceAt_le (le_refl _) h.low h.high
    have hp := h.price
    omega
  · rw [hu]
    refine ⟨fun h => ?_, fun h => congrArg _ (hin.unique h)⟩
    obtain rfl := Except.ok.inj h
    exact hin

/-- **Tick and price agree.** The price increases on the whole range; the tick
of a price is the largest whose price is at most it, and there is none exactly
under the least price; and the tick of a tick's price is that tick. -/
theorem tick_and_price_agree :
    (∀ s t : ℤ, minTick ≤ s → s < t → t ≤ maxTick →
      ∃ p q, sqrtPriceAtTick s = .ok p ∧ sqrtPriceAtTick t = .ok q ∧ p < q) ∧
    (∀ x t, tickAtSqrtPrice x = .ok t ↔
      (∃ p, sqrtPriceAtTick t = .ok p ∧ p ≤ x) ∧ ∀ u p, sqrtPriceAtTick u = .ok p → p ≤ x → u ≤ t) ∧
    (∀ x, tickAtSqrtPrice x = Checked.none ↔ ∃ p, sqrtPriceAtTick minTick = .ok p ∧ x < p) ∧
    (∀ x, tickAtSqrtPrice x = Checked.none ∨ ∃ t, tickAtSqrtPrice x = .ok t) ∧
    ∀ t, minTick ≤ t → t ≤ maxTick → ∃ p, sqrtPriceAtTick t = .ok p ∧ tickAtSqrtPrice p = .ok t := by
  have hleast : sqrtPriceAtTick minTick = .ok (priceAt minTick) := sqrtPriceAtTick_eq_ok.mpr ⟨⟨le_refl _, by decide⟩, rfl⟩
  refine ⟨fun s t h₁ h h₂ => ?_, fun x t => ?_, fun x => ?_, fun x => ?_, fun t h₁ h₂ => ?_⟩
  · exact ⟨_, _, sqrtPriceAtTick_eq_ok.mpr ⟨⟨h₁, by omega⟩, rfl⟩, sqrtPriceAtTick_eq_ok.mpr ⟨⟨by omega, h₂⟩, rfl⟩, priceAt_lt h₁ h h₂⟩
  · rw [tickAtSqrtPrice_iff]
    constructor
    · intro h
      refine ⟨⟨_, sqrtPriceAtTick_eq_ok.mpr ⟨⟨h.low, h.high⟩, rfl⟩, h.price⟩, fun u p hu hp => ?_⟩
      obtain ⟨⟨-, hu'⟩, rfl⟩ := sqrtPriceAtTick_eq_ok.mp hu
      exact h.le hu' hp
    · rintro ⟨⟨p, ht, hp⟩, hmax⟩
      obtain ⟨⟨h₁, h₂⟩, rfl⟩ := sqrtPriceAtTick_eq_ok.mp ht
      refine ⟨h₁, h₂, hp, fun hlt => ?_⟩
      by_contra hle
      have hnext := hmax (t + 1) _ (sqrtPriceAtTick_eq_ok.mpr ⟨⟨by omega, by omega⟩, rfl⟩) (by omega)
      omega
  · rcases tickAtSqrtPrice_eq x with ⟨hx, hn⟩ | ⟨t, ht, hin⟩
    · exact ⟨fun _ => ⟨_, hleast, hx⟩, fun _ => hn⟩
    · rw [ht]
      refine ⟨nofun, ?_⟩
      rintro ⟨p, hp, hx⟩
      obtain ⟨-, rfl⟩ := sqrtPriceAtTick_eq_ok.mp hp
      have hle : priceAt minTick ≤ priceAt t := priceAt_le (le_refl _) hin.low hin.high
      have hprice' := hin.price
      omega
  · rcases tickAtSqrtPrice_eq x with ⟨-, hn⟩ | ⟨t, ht, -⟩
    · exact .inl hn
    · exact .inr ⟨t, ht⟩
  · refine ⟨_, sqrtPriceAtTick_eq_ok.mpr ⟨⟨h₁, h₂⟩, rfl⟩, tickAtSqrtPrice_iff.mpr ⟨h₁, h₂, le_refl _, fun hlt => ?_⟩⟩
    exact priceAt_step h₁ hlt

end Amm
end MobiusSearcher
