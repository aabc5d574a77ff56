/-
# A step, exactly

A step of a swap against the exact curve. The amounts are those of
`Lib/Curve.lean` between the two root prices, rounded once each, up for what
comes in and down for what goes out, however the code takes the quotients
(`amountA_eq`, `amountB_eq`); the price after an input stops short of the
exact one (`priceAfter_ok`). `step_ok` says all a step can be.

Key definitions: `root`, `exactIn`, `exactOut`, `afterFee`, `Stepped`.
Key theorems: `amountA_eq`, `amountB_eq`, `priceAfter_eq`, `step_ok`.
-/
import MobiusSearcher.Amm.Clmm
import MobiusSearcher.Lib.Curve
import Mathlib.Algebra.Order.Floor.Semifield
import Mathlib.Algebra.Order.Star.Basic

namespace MobiusSearcher
namespace Amm

/-! ### The amounts -/

/-- A quotient rounded up or down. -/
def divBy (up : Bool) (n d : ℕ) : ℕ := if up then n ⌈/⌉ d else n / d

theorem divBy_eq {n d : ℕ} (hd : 0 < d) (up : Bool) : divBy up n d = n / d + (up && n % d ≠ 0).toNat := by
  unfold divBy
  cases up
  · rw [if_neg (by decide), Bool.false_and]
    rfl
  · rw [if_pos rfl, ceilDiv_eq hd, Bool.true_and]
    by_cases h : n % d = 0
    · simp [h]
    · simp [h]

/-- The carry of a rounded quotient overflows only if the quotient does. -/
theorem fit_add_eq (n : ℕ) (b : Bool) :
    (Checked.fit 128 n >>= fun q => Checked.checkedAdd 128 q b.toNat) = Checked.fit 128 (n + b.toNat) := by
  unfold Checked.fit Checked.checkedAdd
  by_cases hn : n < 2 ^ 128
  · rw [if_pos hn, Checked.ok_bind]
  · rw [if_neg hn, if_neg (by omega)]
    rfl

/-- The gap between two prices. -/
def gap (x y : ℕ) : ℕ := max x y - min x y

theorem gap_comm (x y : ℕ) : gap x y = gap y x := by
  unfold gap
  rw [max_comm, min_comm]

theorem gap_of_le {x y : ℕ} (h : x ≤ y) : gap x y = y - x := by
  unfold gap
  rw [max_eq_right h, min_eq_left h]

theorem amountA_comm (x y l : ℕ) (up : Bool) : amountA x y l up = amountA y x l up := by
  unfold amountA
  rcases lt_trichotomy x y with h | rfl | h
  · rw [if_pos h.le, if_neg (not_le.mpr h)]
  · rfl
  · rw [if_neg (not_le.mpr h), if_pos h.le]

theorem amountB_comm (x y l : ℕ) (up : Bool) : amountB x y l up = amountB y x l up := by
  unfold amountB
  rcases lt_trichotomy x y with h | rfl | h
  · rw [if_pos h.le, if_neg (not_le.mpr h)]
  · rfl
  · rw [if_neg (not_le.mpr h), if_pos h.le]

/-- Two divisions leave nothing exactly if the one by the product does not. -/
theorem two_remainders (n x y : ℕ) : (n % y ≠ 0 ∨ n / y % x ≠ 0) ↔ n % (x * y) ≠ 0 := by
  have hmod : n % (y * x) = n % y + y * (n / y % x) := Nat.mod_mul
  rw [Nat.mul_comm x y, hmod]
  rcases Nat.eq_zero_or_pos y with rfl | hy
  · simp
  · constructor
    · rintro (h | h)
      · omega
      · have := Nat.mul_pos hy (Nat.pos_of_ne_zero h)
        omega
    · intro h
      by_contra hc
      push Not at hc
      rw [hc.1, hc.2] at h
      exact h rfl

/-- **Token A between two prices is exact, rounded once.** -/
theorem amountA_eq {x y l : ℕ} (hx : x < 2 ^ 128) (hy : y < 2 ^ 128) (hl : l < 2 ^ 128) (up : Bool) :
    amountA x y l up = if 2 ^ 192 ≤ l * gap x y ∨ x * y = 0 then Checked.none
      else Checked.fit 128 (divBy up (l * gap x y * 2 ^ 64) (x * y)) := by
  wlog hle : x ≤ y generalizing x y
  · rw [amountA_comm, gap_comm, Nat.mul_comm x y]
    exact this hy hx (not_le.mp hle).le
  have hgap : y - x < 2 ^ 128 := by omega
  have hprod := prod_lt hl hgap
  unfold amountA
  rw [if_pos hle, gap_of_le hle]
  simp only
  rw [Checked.sub_ok hle, Checked.ok_bind, U256.mul_eq hl hgap, Checked.ok_bind,
    U256.checkedShl_eq (U256.fits_ofNat hprod), U256.val_ofNat]
  by_cases hbig : 2 ^ 192 ≤ l * (y - x)
  · rw [if_neg (not_lt.mpr hbig), if_pos (.inl hbig)]
    rfl
  have hshift : l * (y - x) * 2 ^ 64 < 2 ^ 256 := by omega
  rw [if_pos (not_le.mp hbig), Checked.ok_bind, U256.divRem_eq (U256.fits_ofNat hshift) hy, U256.val_ofNat]
  generalize l * (y - x) * 2 ^ 64 = n at hshift ⊢
  by_cases hy0 : y = 0
  · rw [if_pos hy0, if_pos (.inr (by rw [hy0, Nat.mul_zero]))]
    rfl
  rw [if_neg hy0, Checked.ok_bind]
  have hq : n / y < 2 ^ 256 := (Nat.div_le_self ..).trans_lt hshift
  simp only
  rw [U256.divRem_eq (U256.fits_ofNat hq) hx, U256.val_ofNat]
  by_cases hx0 : x = 0
  · rw [if_pos hx0, if_pos (.inr (by rw [hx0, Nat.zero_mul]))]
    rfl
  have hpos : 0 < x * y := Nat.mul_pos (Nat.pos_of_ne_zero hx0) (Nat.pos_of_ne_zero hy0)
  have hcond : ¬(2 ^ 192 ≤ l * (y - x) ∨ x * y = 0) := by
    rintro (h | h)
    · exact hbig h
    · exact hpos.ne' h
  rw [if_neg hx0, Checked.ok_bind, if_neg hcond, divBy_eq hpos]
  have hdiv : n / y / x = n / (x * y) := by rw [Nat.div_div_eq_div_mul, Nat.mul_comm]
  have hrem : (n % y ≠ 0 || n / y % x ≠ 0) = decide (n % (x * y) ≠ 0) := by
    rw [← Bool.decide_or, decide_eq_decide]
    exact two_remainders n x y
  simp only
  rw [U256.low_ofNat, hdiv, hrem]
  exact fit_add_eq _ _

/-- **Token B between two prices is exact, rounded once.** -/
theorem amountB_eq {x y l : ℕ} (hx : x < 2 ^ 128) (hy : y < 2 ^ 128) (hl : l < 2 ^ 128) (up : Bool) :
    amountB x y l up = if 2 ^ 192 ≤ l * gap x y then Checked.none
      else Checked.fit 128 (divBy up (l * gap x y) (2 ^ 64)) := by
  wlog hle : x ≤ y generalizing x y
  · rw [amountB_comm, gap_comm]
    exact this hy hx (not_le.mp hle).le
  have hgap : y - x < 2 ^ 128 := by omega
  have hprod := prod_lt hl hgap
  unfold amountB
  rw [if_pos hle, gap_of_le hle]
  simp only
  rw [Checked.sub_ok hle, Checked.ok_bind, U256.mul_eq hl hgap, Checked.ok_bind]
  unfold U256.ofNat
  simp only
  generalize l * (y - x) = n at hprod ⊢
  by_cases hbig : 2 ^ 192 ≤ n
  · rw [if_pos (by omega), if_pos hbig]
  have hor : Checked.shl 128 (n / 2 ^ 128) 64 ||| n % 2 ^ 128 / 2 ^ 64 = n / 2 ^ 64 := by
    have hhi : Checked.shl 128 (n / 2 ^ 128) 64 = n / 2 ^ 128 * 2 ^ 64 := by
      unfold Checked.shl
      omega
    rw [hhi, Nat.or_comm, or_shifted (by omega)]
    omega
  have hmod : n % 2 ^ 128 % 2 ^ 64 = n % 2 ^ 64 := by omega
  have hfit : n / 2 ^ 64 < 2 ^ 128 := by omega
  rw [if_neg (by omega), if_neg hbig, hor, hmod, divBy_eq (by norm_num)]
  rw [← fit_add_eq, Checked.fit, if_pos hfit, Checked.ok_bind]

/-- **The price after an input is the exact one, rounded against the trader.** -/
theorem priceAfter_eq {x l a : ℕ} (hx : x < 2 ^ 128) (hl : l < 2 ^ 128) (ha : a < 2 ^ 128) (ha0 : a ≠ 0) (aToB : Bool) :
    priceAfter x l a aToB =
      if aToB then
        if 2 ^ 64 ≤ l ∨ 2 ^ 128 ≤ l * 2 ^ 64 + a * x ∨ l * 2 ^ 64 + a * x = 0 then Checked.none
        else Checked.fit 128 (l * 2 ^ 64 * x ⌈/⌉ (l * 2 ^ 64 + a * x))
      else if l = 0 then Checked.none else Checked.fit 128 (x + a * 2 ^ 64 / l) := by
  have hval : ∀ m, m < 2 ^ 128 → U256.ofLow m = U256.ofNat m := fun m hm => U256.ofLow_eq hm
  have hsmall : ∀ m, m < 2 ^ 128 → (U256.ofNat m).Fits := fun m hm => U256.fits_ofNat (by omega)
  have hshl : ∀ m, m < 2 ^ 128 → (U256.ofLow m).checkedShl 64 = .ok (U256.ofNat (m * 2 ^ 64)) := by
    intro m hm
    rw [hval m hm, U256.checkedShl_eq (hsmall m hm), U256.val_ofNat, if_pos (by omega)]
  unfold priceAfter
  rw [if_neg ha0]
  cases aToB
  · rw [if_neg (by decide), if_neg (by decide), hshl a ha, Checked.ok_bind,
      U256.divRem_eq (U256.fits_ofNat (by omega)) hl, U256.val_ofNat]
    by_cases hl0 : l = 0
    · rw [if_pos hl0, if_pos hl0]
      rfl
    rw [if_neg hl0, if_neg hl0, Checked.ok_bind]
    simp only
    rw [U256.low_ofNat]
    generalize a * 2 ^ 64 / l = q
    unfold Checked.fit Checked.checkedAdd
    by_cases hq : q < 2 ^ 128
    · rw [if_pos hq, Checked.ok_bind]
    · rw [if_neg hq, if_neg (by omega)]
      rfl
  · rw [if_pos rfl, if_pos rfl, hshl l hl, Checked.ok_bind, U256.low_ofNat]
    unfold Checked.fit
    by_cases hbig : 2 ^ 64 ≤ l
    · rw [if_neg (by omega), if_pos (.inl hbig)]
      rfl
    have hlow : l * 2 ^ 64 < 2 ^ 128 := by omega
    have hprod := prod_lt ha hx
    rw [if_pos hlow, Checked.ok_bind, U256.mul_eq ha hx, Checked.ok_bind, hval _ hlow,
      U256.checkedAdd_eq (hsmall _ hlow) (U256.fits_ofNat hprod), U256.val_ofNat, U256.val_ofNat]
    generalize a * x = m at hprod ⊢
    by_cases hsum : l * 2 ^ 64 + m < 2 ^ 256
    · rw [if_pos hsum, Checked.ok_bind, U256.low_ofNat, Checked.fit]
      by_cases hden : l * 2 ^ 64 + m < 2 ^ 128
      · rw [if_pos hden, Checked.ok_bind, mulDivUp_eq hlow hx hden]
        by_cases h0 : l * 2 ^ 64 + m = 0
        · rw [if_pos h0, if_pos (.inr (.inr h0))]
        · rw [if_neg h0, if_neg (by omega)]
          rfl
      · rw [if_neg hden, if_pos (by omega)]
        rfl
    · rw [if_neg hsum, if_pos (by omega)]
      rfl

/-! ### On the curve -/

open Curve

/-- A price in Q64.64, as a number. -/
def root (x : ℕ) : ℚ := x / 2 ^ 64

/-- What a move of the price takes in on the exact curve. -/
def exactIn (aToB : Bool) (l x y : ℕ) : ℚ := moved aToB l (root x) (root y)

/-- What it pays out. -/
def exactOut (aToB : Bool) (l x y : ℕ) : ℚ := moved (!aToB) l (root x) (root y)

def roundTo (up : Bool) (q : ℚ) : ℕ := if up then ⌈q⌉₊ else ⌊q⌋₊

theorem root_pos {x : ℕ} (h : 0 < x) : 0 < root x := by
  unfold root
  have hx : (0 : ℚ) < x := Nat.cast_pos.mpr h
  positivity

theorem root_le {x y : ℕ} : root x ≤ root y ↔ x ≤ y := by
  unfold root
  rw [div_le_div_iff_of_pos_right (by norm_num)]
  exact Nat.cast_le

theorem ahead_root {a : Bool} {x y : ℕ} : Ahead a (root x) (root y) ↔ Ahead a x y := by
  unfold Ahead
  cases a <;> exact root_le

theorem gap_cast (x y : ℕ) : (gap x y : ℚ) = |(x : ℚ) - y| := by
  rcases le_total x y with h | h
  · rw [gap_of_le h, Nat.cast_sub h, abs_of_nonpos (sub_nonpos.mpr (Nat.cast_le.mpr h)), neg_sub]
  · rw [gap_comm, gap_of_le h, Nat.cast_sub h, abs_of_nonneg (sub_nonneg.mpr (Nat.cast_le.mpr h))]

theorem root_gap (x y : ℕ) : |root x - root y| = gap x y / 2 ^ 64 := by
  unfold root
  rw [← sub_div, abs_div, gap_cast]
  norm_num

theorem moved_a {x y : ℕ} (hx : 0 < x) (hy : 0 < y) (l : ℕ) :
    moved true (l : ℚ) (root x) (root y) = (l * gap x y * 2 ^ 64 : ℕ) / (x * y : ℕ) := by
  have hx' : (x : ℚ) ≠ 0 := Nat.cast_ne_zero.mpr hx.ne'
  have hy' : (y : ℚ) ≠ 0 := Nat.cast_ne_zero.mpr hy.ne'
  rw [moved_true (Nat.cast_nonneg l) (root_pos hx) (root_pos hy), root_gap]
  unfold root
  push_cast
  field_simp
  norm_num

theorem moved_b (x y l : ℕ) : moved false (l : ℚ) (root x) (root y) = (l * gap x y : ℕ) / (2 ^ 64 : ℕ) := by
  rw [moved_false (Nat.cast_nonneg l), root_gap]
  push_cast
  ring

theorem divBy_cast {n d : ℕ} (hd : 0 < d) (up : Bool) : divBy up n d = roundTo up ((n : ℚ) / d) := by
  unfold divBy roundTo
  have hd' : (0 : ℚ) < d := Nat.cast_pos.mpr hd
  cases up
  · rw [if_neg (by decide), if_neg (by decide), Nat.floor_div_eq_div]
  · rw [if_pos rfl, if_pos rfl]
    apply eq_of_forall_ge_iff
    intro c
    rw [ceilDiv_le_iff_le_mul hd, Nat.ceil_le, div_le_iff₀ hd', mul_comm (c : ℚ)]
    exact_mod_cast Iff.rfl

theorem amountA_ok {x y l v : ℕ} {up : Bool} (hx : x < 2 ^ 128) (hy : y < 2 ^ 128) (hl : l < 2 ^ 128)
    (h : amountA x y l up = .ok v) : 0 < x ∧ 0 < y ∧ v = roundTo up (moved true l (root x) (root y)) := by
  rw [amountA_eq hx hy hl] at h
  by_cases hc : 2 ^ 192 ≤ l * gap x y ∨ x * y = 0
  · rw [if_pos hc] at h
    exact absurd h Checked.none_ne_ok
  · rw [if_neg hc] at h
    rw [not_or] at hc
    have hpos : 0 < x * y := Nat.pos_of_ne_zero hc.2
    have hx0 : 0 < x := Nat.pos_of_mul_pos_right hpos
    have hy0 : 0 < y := Nat.pos_of_mul_pos_left hpos
    refine ⟨hx0, hy0, ?_⟩
    rw [(Checked.fit_eq_ok.mp h).2, moved_a hx0 hy0, divBy_cast hpos]

theorem amountB_ok {x y l v : ℕ} {up : Bool} (hx : x < 2 ^ 128) (hy : y < 2 ^ 128) (hl : l < 2 ^ 128)
    (h : amountB x y l up = .ok v) : v = roundTo up (moved false l (root x) (root y)) := by
  rw [amountB_eq hx hy hl] at h
  by_cases hc : 2 ^ 192 ≤ l * gap x y
  · rw [if_pos hc] at h
    exact absurd h Checked.none_ne_ok
  · rw [if_neg hc] at h
    rw [(Checked.fit_eq_ok.mp h).2, moved_b, divBy_cast (by norm_num)]

theorem stepInput_ok {x y l v : ℕ} {aToB : Bool} (hx : x < 2 ^ 128) (hy : y < 2 ^ 128) (hl : l < 2 ^ 128)
    (h : stepInput x l aToB y = .ok v) : v = ⌈exactIn aToB l x y⌉₊ ∧ (aToB = true → 0 < x ∧ 0 < y) := by
  unfold stepInput at h
  unfold exactIn
  cases aToB
  · rw [if_neg (by decide)] at h
    exact ⟨amountB_ok hx hy hl h, fun hc => absurd hc (by decide)⟩
  · rw [if_pos rfl] at h
    obtain ⟨hy0, hx0, hv⟩ := amountA_ok hy hx hl h
    rw [moved_comm]
    exact ⟨hv, fun _ => ⟨hx0, hy0⟩⟩

theorem stepOutput_ok {x y l v : ℕ} {aToB : Bool} (hx : x < 2 ^ 128) (hy : y < 2 ^ 128) (hl : l < 2 ^ 128)
    (h : stepOutput x l aToB y = .ok v) : v = ⌊exactOut aToB l x y⌋₊ ∧ (aToB = false → 0 < x ∧ 0 < y) := by
  unfold stepOutput at h
  unfold exactOut
  cases aToB
  · rw [if_neg (by decide)] at h
    obtain ⟨hx0, hy0, hv⟩ := amountA_ok hx hy hl h
    exact ⟨hv, fun _ => ⟨hx0, hy0⟩⟩
  · rw [if_pos rfl] at h
    refine ⟨?_, fun hc => absurd hc (by decide)⟩
    rw [moved_comm]
    exact amountB_ok hy hx hl h

/-- **The price stops short of where the input would take it.** -/
theorem priceAfter_ok {x l a y : ℕ} {aToB : Bool} (hx : x < 2 ^ 128) (hl : l < 2 ^ 128) (ha : a < 2 ^ 128)
    (hx0 : 0 < x) (hl0 : 0 < l) (h : priceAfter x l a aToB = .ok y) :
    0 < y ∧ y < 2 ^ 128 ∧ Ahead aToB x y ∧ exactIn aToB l x y ≤ a := by
  by_cases ha0 : a = 0
  · unfold priceAfter at h
    rw [if_pos ha0] at h
    obtain rfl := Except.ok.inj h
    refine ⟨hx0, hx, Ahead.refl _ _, ?_⟩
    unfold exactIn
    rw [moved_self]
    exact Nat.cast_nonneg a
  rw [priceAfter_eq hx hl ha ha0] at h
  unfold Ahead exactIn
  cases aToB
  · rw [if_neg (by decide), if_neg hl0.ne'] at h
    obtain ⟨hy, rfl⟩ := Checked.fit_eq_ok.mp h
    have hle : x ≤ x + a * 2 ^ 64 / l := Nat.le_add_right ..
    refine ⟨by omega, hy, hle, ?_⟩
    rw [moved_b, gap_of_le hle, Nat.add_sub_cancel_left, div_le_iff₀ (by norm_num)]
    exact_mod_cast Nat.mul_div_le (a * 2 ^ 64) l
  · rw [if_pos rfl] at h
    by_cases hc : 2 ^ 64 ≤ l ∨ 2 ^ 128 ≤ l * 2 ^ 64 + a * x ∨ l * 2 ^ 64 + a * x = 0
    · rw [if_pos hc] at h
      exact absurd h Checked.none_ne_ok
    rw [if_neg hc] at h
    obtain ⟨hy, rfl⟩ := Checked.fit_eq_ok.mp h
    rw [not_or, not_or] at hc
    have hd : 0 < l * 2 ^ 64 + a * x := Nat.pos_of_ne_zero hc.2.2
    have hup : l * 2 ^ 64 * x ≤ (l * 2 ^ 64 + a * x) * (l * 2 ^ 64 * x ⌈/⌉ (l * 2 ^ 64 + a * x)) :=
      (ceilDiv_le_iff_le_mul hd).mp (le_refl _)
    have hle : l * 2 ^ 64 * x ⌈/⌉ (l * 2 ^ 64 + a * x) ≤ x :=
      (ceilDiv_le_iff_le_mul hd).mpr (Nat.mul_le_mul_right x (Nat.le_add_right ..))
    generalize l * 2 ^ 64 * x ⌈/⌉ (l * 2 ^ 64 + a * x) = y at hy hup hle ⊢
    have hy0 : 0 < y := by
      apply Nat.pos_of_ne_zero
      rintro rfl
      have hpos : 0 < l * 2 ^ 64 * x := by positivity
      omega
    refine ⟨hy0, hy, hle, ?_⟩
    have hpos : (0 : ℚ) < (x * y : ℕ) := Nat.cast_pos.mpr (Nat.mul_pos hx0 hy0)
    rw [moved_a hx0 hy0, gap_comm, gap_of_le hle, div_le_iff₀ hpos]
    have hnat : l * (x - y) * 2 ^ 64 ≤ a * (x * y) := by
      have hsplit : l * 2 ^ 64 * x = l * (x - y) * 2 ^ 64 + l * 2 ^ 64 * y := by
        obtain ⟨g, rfl⟩ := Nat.exists_eq_add_of_le hle
        rw [Nat.add_sub_cancel_left]
        ring
      have hexpand : (l * 2 ^ 64 + a * x) * y = l * 2 ^ 64 * y + a * (x * y) := by ring
      omega
    exact_mod_cast hnat

/-- More input takes the price further. -/
theorem priceAfter_mono {x l a b y z : ℕ} {aToB : Bool} (hx : x < 2 ^ 128) (hl : l < 2 ^ 128) (hb : b < 2 ^ 128)
    (hx0 : 0 < x) (hl0 : 0 < l) (hab : a ≤ b) (hy : priceAfter x l a aToB = .ok y)
    (hz : priceAfter x l b aToB = .ok z) : Ahead aToB y z := by
  by_cases ha0 : a = 0
  · unfold priceAfter at hy
    rw [if_pos ha0] at hy
    obtain rfl := Except.ok.inj hy
    exact (priceAfter_ok hx hl hb hx0 hl0 hz).2.2.1
  rw [priceAfter_eq hx hl (by omega) ha0] at hy
  rw [priceAfter_eq hx hl hb (by omega)] at hz
  unfold Ahead
  cases aToB
  · rw [if_neg (by decide), if_neg hl0.ne'] at hy hz
    obtain ⟨-, rfl⟩ := Checked.fit_eq_ok.mp hy
    obtain ⟨-, rfl⟩ := Checked.fit_eq_ok.mp hz
    exact Nat.add_le_add_left (Nat.div_le_div_right (Nat.mul_le_mul_right _ hab)) x
  · rw [if_pos rfl] at hy hz
    by_cases hca : 2 ^ 64 ≤ l ∨ 2 ^ 128 ≤ l * 2 ^ 64 + a * x ∨ l * 2 ^ 64 + a * x = 0
    · rw [if_pos hca] at hy
      exact absurd hy Checked.none_ne_ok
    by_cases hcb : 2 ^ 64 ≤ l ∨ 2 ^ 128 ≤ l * 2 ^ 64 + b * x ∨ l * 2 ^ 64 + b * x = 0
    · rw [if_pos hcb] at hz
      exact absurd hz Checked.none_ne_ok
    rw [if_neg hca] at hy
    rw [if_neg hcb] at hz
    obtain ⟨-, rfl⟩ := Checked.fit_eq_ok.mp hy
    obtain ⟨-, rfl⟩ := Checked.fit_eq_ok.mp hz
    have hda : 0 < l * 2 ^ 64 + a * x := by omega
    have hdb : 0 < l * 2 ^ 64 + b * x := by omega
    show l * 2 ^ 64 * x ⌈/⌉ (l * 2 ^ 64 + b * x) ≤ l * 2 ^ 64 * x ⌈/⌉ (l * 2 ^ 64 + a * x)
    rw [ceilDiv_le_iff_le_mul hdb]
    have hup : l * 2 ^ 64 * x ≤ (l * 2 ^ 64 + a * x) * (l * 2 ^ 64 * x ⌈/⌉ (l * 2 ^ 64 + a * x)) :=
      (ceilDiv_le_iff_le_mul hda).mp (le_refl _)
    refine hup.trans (Nat.mul_le_mul_right _ ?_)
    exact Nat.add_le_add_left (Nat.mul_le_mul_right x hab) _

/-! ### A step -/

/-- The input there is to trade with. -/
def afterFee (remaining feePpm : ℕ) : ℕ := remaining * (ppm - feePpm) / ppm

theorem afterFee_mono {r r' : ℕ} (h : r ≤ r') (feePpm : ℕ) : afterFee r feePpm ≤ afterFee r' feePpm :=
  Nat.div_le_div_right (Nat.mul_le_mul_right _ h)

theorem afterFee_le (r feePpm : ℕ) : afterFee r feePpm ≤ r := by
  unfold afterFee
  apply Nat.div_le_of_le_mul
  rw [Nat.mul_comm]
  exact Nat.mul_le_mul_right r (Nat.sub_le ..)

/-- How a step ends: at its target, if the input covers it, with the fee on
what the move took; or before it, with what is left over as the fee. -/
inductive StepEnd (aToB : Bool) (x target l remaining feePpm : ℕ) (s : Step) : Prop
  | reached (price : s.sqrtPrice = target) (covers : exactIn aToB l x target ≤ afterFee remaining feePpm)
      (room : feePpm < ppm) (fee : s.fee = s.amountIn * feePpm ⌈/⌉ (ppm - feePpm))
  | short (price : s.sqrtPrice ≠ target) (lacks : afterFee remaining feePpm < exactIn aToB l x target)
      (liquid : 0 < l) (onward : Ahead aToB x s.sqrtPrice)
      (after : priceAfter x l (afterFee remaining feePpm) aToB = .ok s.sqrtPrice)
      (fee : s.fee = remaining - s.amountIn)

/-- What a step is, against the exact curve. -/
structure Stepped (aToB : Bool) (x target l remaining feePpm : ℕ) (s : Step) : Prop where
  fee_le : feePpm ≤ ppm
  target_pos : 0 < target
  pos : 0 < x
  next_pos : 0 < s.sqrtPrice
  next_lt : s.sqrtPrice < 2 ^ 128
  amountIn : s.amountIn = ⌈exactIn aToB l x s.sqrtPrice⌉₊
  amountOut : s.amountOut = ⌊exactOut aToB l x s.sqrtPrice⌋₊
  covered : s.amountIn ≤ afterFee remaining feePpm
  stepEnd : StepEnd aToB x target l remaining feePpm s

/-- **A step is the exact one, rounded against the trader.** -/
theorem step_ok {aToB : Bool} {x target l remaining feePpm : ℕ} {s : Step} (hx : x < 2 ^ 128)
    (ht : target < 2 ^ 128) (ht0 : 0 < target) (hl : l < 2 ^ 128) (hr : remaining < 2 ^ 128)
    (h : step x target l remaining feePpm aToB = .ok s) : Stepped aToB x target l remaining feePpm s := by
  unfold step at h
  obtain ⟨toTarget, hin, h⟩ := Checked.bind_eq_ok.mp h
  obtain ⟨share, hshare, h⟩ := Checked.bind_eq_ok.mp h
  obtain ⟨hfee, rfl⟩ := Checked.sub_eq_ok.mp hshare
  obtain ⟨left, hleft, h⟩ := Checked.bind_eq_ok.mp h
  obtain ⟨next, hnext, h⟩ := Checked.bind_eq_ok.mp h
  obtain ⟨amountIn, hamount, h⟩ := Checked.bind_eq_ok.mp h
  obtain ⟨amountOut, hout, h⟩ := Checked.bind_eq_ok.mp h
  obtain ⟨fee, hfees, h⟩ := Checked.bind_eq_ok.mp h
  obtain rfl := Except.ok.inj h
  have hppm : ppm < 2 ^ 128 := by norm_num [ppm]
  have hppm0 : ppm ≠ 0 := by norm_num [ppm]
  rw [mulDiv_eq hr (by omega) hppm, if_neg hppm0] at hleft
  obtain ⟨hleft_lt, rfl⟩ := Checked.fit_eq_ok.mp hleft
  change afterFee remaining feePpm < 2 ^ 128 at hleft_lt
  change (if toTarget ≤ afterFee remaining feePpm then pure target
    else priceAfter x l (afterFee remaining feePpm) aToB) = .ok next at hnext
  obtain ⟨htoTarget, hin_pos⟩ := stepInput_ok hx ht hl hin
  by_cases hcovers : toTarget ≤ afterFee remaining feePpm
  · rw [if_pos hcovers] at hnext
    obtain rfl := Except.ok.inj hnext
    rw [if_pos rfl] at hamount hfees
    obtain rfl := Except.ok.inj hamount
    obtain ⟨hamountOut, hout_pos⟩ := stepOutput_ok hx ht hl hout
    have hpos : 0 < x := by
      cases aToB
      · exact (hout_pos rfl).1
      · exact (hin_pos rfl).1
    rw [mulDivUp_eq (by omega) (by omega) (by omega)] at hfees
    by_cases hroom : ppm - feePpm = 0
    · rw [if_pos hroom] at hfees
      exact absurd hfees Checked.none_ne_ok
    rw [if_neg hroom] at hfees
    refine ⟨hfee, ht0, hpos, ht0, ht, htoTarget, hamountOut, hcovers, .reached rfl ?_ (by omega) (Checked.fit_eq_ok.mp hfees).2⟩
    rw [htoTarget] at hcovers
    exact Nat.ceil_le.mp hcovers
  · rw [if_neg hcovers] at hnext
    have hlacks : (afterFee remaining feePpm : ℚ) < exactIn aToB l x target := by
      rw [htoTarget, not_le] at hcovers
      exact Nat.lt_ceil.mp hcovers
    have hl0 : 0 < l := by
      apply Nat.pos_of_ne_zero
      rintro rfl
      unfold exactIn at hlacks
      rw [Nat.cast_zero, moved_zero] at hlacks
      exact absurd hlacks (not_lt.mpr (Nat.cast_nonneg _))
    by_cases hx0 : 0 < x
    · obtain ⟨hnext0, hnext_lt, honward, hexact⟩ := priceAfter_ok hx hl hleft_lt hx0 hl0 hnext
      have hne : next ≠ target := by
        rintro rfl
        exact absurd hlacks (not_lt.mpr hexact)
      rw [if_neg hne] at hamount hfees
      obtain ⟨hamountIn, -⟩ := stepInput_ok hx hnext_lt hl hamount
      obtain ⟨hamountOut, -⟩ := stepOutput_ok hx hnext_lt hl hout
      have hcovered : amountIn ≤ afterFee remaining feePpm := by
        rw [hamountIn]
        exact Nat.ceil_le.mpr hexact
      exact ⟨hfee, ht0, hx0, hnext0, hnext_lt, hamountIn, hamountOut, hcovered,
        .short hne hlacks hl0 honward hnext (Checked.checkedSub_eq_ok.mp hfees).2⟩
    · -- at price zero nothing is paid out in token A, and token A cannot come in
      obtain rfl : x = 0 := by omega
      cases aToB
      · have hnext_lt : next < 2 ^ 128 := by
          by_cases ha0 : afterFee remaining feePpm = 0
          · unfold priceAfter at hnext
            rw [if_pos ha0] at hnext
            rw [← Except.ok.inj hnext]
            norm_num
          · rw [priceAfter_eq hx hl hleft_lt ha0, if_neg (by decide), if_neg hl0.ne'] at hnext
            rw [(Checked.fit_eq_ok.mp hnext).2]
            exact (Checked.fit_eq_ok.mp hnext).1
        exact absurd ((stepOutput_ok hx hnext_lt hl hout).2 rfl).1 hx0
      · exact absurd (hin_pos rfl).1 hx0

namespace Stepped

variable {aToB : Bool} {x target l remaining feePpm : ℕ} {s : Step}

/-- A step takes at least the exact input of its move. -/
theorem exactIn_le (h : Stepped aToB x target l remaining feePpm s) : exactIn aToB l x s.sqrtPrice ≤ s.amountIn := by
  rw [h.amountIn]
  exact Nat.le_ceil _

/-- And pays at most the exact output. -/
theorem le_exactOut (h : Stepped aToB x target l remaining feePpm s) : s.amountOut ≤ exactOut aToB l x s.sqrtPrice := by
  rw [h.amountOut]
  exact Nat.floor_le (moved_nonneg ..)

/-- It reaches its target exactly when the input covers the move there. -/
theorem reached_iff (h : Stepped aToB x target l remaining feePpm s) :
    s.sqrtPrice = target ↔ exactIn aToB l x target ≤ afterFee remaining feePpm := by
  cases h.stepEnd with
  | reached price covers => exact ⟨fun _ => covers, fun _ => price⟩
  | short price lacks => exact ⟨fun he => absurd he price, fun hc => absurd lacks (not_lt.mpr hc)⟩

/-- A step that ends short moved for less than the move to the target takes. -/
theorem exactIn_lt (h : Stepped aToB x target l remaining feePpm s) (hne : s.sqrtPrice ≠ target) :
    exactIn aToB l x s.sqrtPrice < exactIn aToB l x target := by
  have hlacks := mt h.reached_iff.mpr hne
  have hcovered : (s.amountIn : ℚ) ≤ afterFee remaining feePpm := Nat.cast_le.mpr h.covered
  linarith [h.exactIn_le, not_le.mp hlacks]

/-- What comes in, fee included, is no more than there was. -/
theorem spent_le (h : Stepped aToB x target l remaining feePpm s) : s.amountIn + s.fee ≤ remaining := by
  have hcovered := h.covered
  have hle := afterFee_le remaining feePpm
  cases h.stepEnd with
  | reached _ _ room fee =>
    have hpart : s.amountIn * ppm ≤ remaining * (ppm - feePpm) := by
      unfold afterFee at hcovered
      rw [Nat.le_div_iff_mul_le (by norm_num [ppm])] at hcovered
      exact hcovered
    have hfee : s.fee ≤ remaining - s.amountIn := by
      rw [fee, ceilDiv_le_iff_le_mul (Nat.sub_pos_of_lt room)]
      obtain ⟨share, hshare⟩ := Nat.exists_eq_add_of_lt room
      obtain ⟨rest, hover⟩ := Nat.exists_eq_add_of_le (hcovered.trans hle)
      have hsub : ppm - feePpm = share + 1 := by omega
      rw [hsub] at hpart ⊢
      generalize ppm = parts at hshare hpart
      rw [hshare, hover] at hpart
      rw [hover, Nat.add_sub_cancel_left]
      nlinarith
    omega
  | short _ _ _ _ _ fee => omega

/-- **The fee is at least its share of what the step takes.** -/
theorem fee_share (h : Stepped aToB x target l remaining feePpm s) :
    (s.amountIn + s.fee) * feePpm ≤ s.fee * ppm := by
  obtain ⟨share, hshare⟩ := Nat.exists_eq_add_of_le h.fee_le
  have hsub : ppm - feePpm = share := by omega
  cases h.stepEnd with
  | reached _ _ room fee =>
    have hup : s.amountIn * feePpm ≤ share * s.fee := by
      rw [fee, hsub]
      exact (ceilDiv_le_iff_le_mul (by omega)).mp (le_refl _)
    calc (s.amountIn + s.fee) * feePpm = s.amountIn * feePpm + s.fee * feePpm := by ring
      _ ≤ share * s.fee + s.fee * feePpm := Nat.add_le_add_right hup _
      _ = s.fee * ppm := by rw [hshare]; ring
  | short _ _ _ _ _ fee =>
    have hspent := h.spent_le
    have hpart : s.amountIn * ppm ≤ remaining * share := by
      have hcovered := h.covered
      unfold afterFee at hcovered
      rw [Nat.le_div_iff_mul_le (by norm_num [ppm]), hsub] at hcovered
      exact hcovered
    obtain ⟨rest, hover⟩ := Nat.exists_eq_add_of_le (show s.amountIn ≤ remaining by omega)
    have hfee : s.fee = rest := by omega
    rw [hover, hshare] at hpart
    rw [hfee, hshare]
    nlinarith

end Stepped

end Amm
end MobiusSearcher
