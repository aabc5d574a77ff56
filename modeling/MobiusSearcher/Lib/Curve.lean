/-
# A pool on a constant-product curve

At constant liquidity `l` a pool holds `l / s` of its first token and `l · s`
of its second, where `s` is the root of the price: the product of the two is
`l²` whatever the price. Selling the first token lowers the price, selling the
second raises it. What a move of the price takes in of one token and pays out
of the other is read off the reserves.

Key definitions: `Curve.Ahead`, `Curve.reserve`, `Curve.moved`.
Key theorems: `Curve.moved_add`, `Curve.ahead_of_moved_lt`, `Curve.paid_le`.
-/
import Mathlib.Tactic

namespace Curve

variable {K : Type*}

/-! ### Directions -/

section Directions
variable [LinearOrder K] {a : Bool} {s t u : K}

/-- `t` is where the root price moves to from `s` when the token is sold: down
for the first (`a`), up for the second. -/
def Ahead (a : Bool) (s t : K) : Prop := if a then t ≤ s else s ≤ t

theorem Ahead.refl (a : Bool) (s : K) : Ahead a s s := by
  unfold Ahead
  cases a <;> exact le_refl s

theorem Ahead.total (a : Bool) (s t : K) : Ahead a s t ∨ Ahead a t s := by
  unfold Ahead
  cases a
  · exact le_total s t
  · exact le_total t s

theorem Ahead.trans (h : Ahead a s t) (h' : Ahead a t u) : Ahead a s u := by
  unfold Ahead at *
  cases a
  · exact le_trans h h'
  · exact le_trans h' h

/-- Selling the other token moves the price back. -/
theorem ahead_not : Ahead (!a) s t ↔ Ahead a t s := by
  unfold Ahead
  cases a <;> rfl

end Directions

/-! ### Reserves -/

/-- The pool's first token (`a`) or its second, at root price `s`. -/
def reserve [Field K] (a : Bool) (l s : K) : K := if a then l / s else l * s

variable [Field K] [LinearOrder K]

/-- How much of a token moves when the root price does, from `s` to `t`. -/
def moved (a : Bool) (l s t : K) : K := |reserve a l s - reserve a l t|

theorem moved_comm (a : Bool) (l s t : K) : moved a l s t = moved a l t s := abs_sub_comm _ _

variable [IsStrictOrderedRing K]

@[simp] theorem moved_self (a : Bool) (l s : K) : moved a l s s = 0 := by
  unfold moved
  rw [sub_self, abs_zero]

theorem moved_nonneg (a : Bool) (l s t : K) : 0 ≤ moved a l s t := abs_nonneg _

@[simp] theorem moved_zero (a : Bool) (s t : K) : moved a 0 s t = 0 := by
  unfold moved reserve
  cases a <;> simp

theorem moved_true {l s t : K} (hl : 0 ≤ l) (hs : 0 < s) (ht : 0 < t) : moved true l s t = l * |s - t| / (s * t) := by
  unfold moved reserve
  rw [if_pos rfl, if_pos rfl]
  have hgap : l / s - l / t = l * (t - s) / (s * t) := by
    field_simp
  rw [hgap, abs_div, abs_mul, abs_of_nonneg hl, abs_sub_comm t s, abs_of_pos (mul_pos hs ht)]

theorem moved_false {l s t : K} (hl : 0 ≤ l) : moved false l s t = l * |s - t| := by
  unfold moved reserve
  rw [if_neg (by decide), if_neg (by decide), ← mul_sub, abs_mul, abs_of_nonneg hl]

/-! ### Along one direction -/

/-- The token sold comes in: its reserve is larger ahead. -/
theorem reserve_in_le {a : Bool} {l s t : K} (hl : 0 ≤ l) (ht : 0 < t) (h : Ahead a s t) :
    reserve a l s ≤ reserve a l t := by
  unfold Ahead at h
  unfold reserve
  cases a
  · exact mul_le_mul_of_nonneg_left h hl
  · exact div_le_div_of_nonneg_left hl ht h

/-- Any token's reserve changes one way along one direction. -/
theorem reserve_ordered (b : Bool) {a : Bool} {l s t u : K} (hl : 0 ≤ l) (hs : 0 < s) (ht : 0 < t) (hu : 0 < u)
    (h : Ahead a s t) (h' : Ahead a t u) :
    (reserve b l s ≤ reserve b l t ∧ reserve b l t ≤ reserve b l u) ∨
      (reserve b l u ≤ reserve b l t ∧ reserve b l t ≤ reserve b l s) := by
  by_cases hab : b = a
  · subst hab
    exact .inl ⟨reserve_in_le hl ht h, reserve_in_le hl hu h'⟩
  · have hnot : a = !b := by
      cases a <;> cases b <;> simp_all
    subst hnot
    rw [ahead_not] at h h'
    exact .inr ⟨reserve_in_le hl ht h', reserve_in_le hl hs h⟩

/-- **What moves over two moves in one direction is the sum.** -/
theorem moved_add (b : Bool) {a : Bool} {l s t u : K} (hl : 0 ≤ l) (hs : 0 < s) (ht : 0 < t) (hu : 0 < u)
    (h : Ahead a s t) (h' : Ahead a t u) : moved b l s u = moved b l s t + moved b l t u := by
  unfold moved
  rcases reserve_ordered b hl hs ht hu h h' with ⟨h₁, h₂⟩ | ⟨h₁, h₂⟩
  · rw [abs_of_nonpos (by linarith), abs_of_nonpos (by linarith), abs_of_nonpos (by linarith)]
    ring
  · rw [abs_of_nonneg (by linarith), abs_of_nonneg (by linarith), abs_of_nonneg (by linarith)]
    ring

theorem moved_le_moved (b : Bool) {a : Bool} {l s t u : K} (hl : 0 ≤ l) (hs : 0 < s) (ht : 0 < t) (hu : 0 < u)
    (h : Ahead a s t) (h' : Ahead a t u) : moved b l s t ≤ moved b l s u := by
  rw [moved_add b hl hs ht hu h h']
  exact le_add_of_nonneg_right (moved_nonneg ..)

/-- What moves tells how far the price has. -/
theorem ahead_of_moved_lt {b a : Bool} {l s t u : K} (hl : 0 ≤ l) (hs : 0 < s) (ht : 0 < t) (hu : 0 < u)
    (h : Ahead a s u) (hlt : moved b l s t < moved b l s u) : Ahead a t u ∧ t ≠ u := by
  have hne : t ≠ u := by
    rintro rfl
    exact lt_irrefl _ hlt
  refine ⟨(Ahead.total a t u).resolve_right fun hback => ?_, hne⟩
  have hle := moved_le_moved b hl hs hu ht h hback
  exact absurd hlt (not_lt.mpr hle)

/-- With liquidity, only no move moves nothing. -/
theorem eq_of_moved_eq_zero {b : Bool} {l s t : K} (hl : 0 < l) (hs : 0 < s) (ht : 0 < t) (h : moved b l s t = 0) :
    s = t := by
  unfold moved at h
  have heq : reserve b l s = reserve b l t := sub_eq_zero.mp (abs_eq_zero.mp h)
  unfold reserve at heq
  cases b
  · exact mul_left_cancel₀ hl.ne' heq
  · rw [if_pos rfl, if_pos rfl, div_eq_div_iff hs.ne' ht.ne'] at heq
    exact (mul_left_cancel₀ hl.ne' heq).symm

/-- Of two moves in one direction, the one that moves no more of one token
moves no more of any. -/
theorem moved_le_of_moved_le (b : Bool) {c a : Bool} {l s n t : K} (hl : 0 < l) (hs : 0 < s) (hn : 0 < n) (ht : 0 < t)
    (h : Ahead a s n) (h' : Ahead a s t) (hle : moved c l s n ≤ moved c l s t) : moved b l s n ≤ moved b l s t := by
  rcases Ahead.total a n t with hahead | hback
  · exact moved_le_moved b hl.le hs hn ht h hahead
  · have hsum := moved_add c hl.le hs ht hn h' hback
    have hzero : moved c l t n = 0 := le_antisymm (by linarith) (moved_nonneg ..)
    rw [eq_of_moved_eq_zero hl ht hn hzero]

/-- **The curve pays less for less.** A move in the direction of the sale that
takes in less than another move pays out no more, even where the other move is
in the wrong direction. -/
theorem paid_le {a : Bool} {l s n t : K} (hl : 0 ≤ l) (hs : 0 < s) (hn : 0 < n) (ht : 0 < t)
    (h : Ahead a s n) (hlt : moved a l s n < moved a l s t) : moved (!a) l s n ≤ moved (!a) l s t := by
  rcases Ahead.total a n t with hahead | hback
  · exact moved_le_moved _ hl hs hn ht h hahead
  · rcases Ahead.total a s t with hst | hts
    · have hle := moved_le_moved a hl hs ht hn hst hback
      exact absurd hlt (not_lt.mpr hle)
    · -- the target is behind: past it the same gap in price takes in less, and pays more
      have hpos : 0 < l := by
        refine hl.lt_of_ne fun h0 => ?_
        rw [← h0, moved_zero, moved_zero] at hlt
        exact lt_irrefl _ hlt
      unfold Ahead at h hts
      cases a
      · simp only [Bool.false_eq_true, if_false] at h hts
        rw [moved_false hl, moved_false hl] at hlt
        rw [Bool.not_false, moved_true hl hs hn, moved_true hl hs ht]
        have hgap : |s - n| ≤ |s - t| := (lt_of_mul_lt_mul_left hlt hl).le
        have hprod : s * t ≤ s * n := mul_le_mul_of_nonneg_left (hts.trans h) hs.le
        exact div_le_div₀ (by positivity) (mul_le_mul_of_nonneg_left hgap hl) (by positivity) hprod
      · simp only [if_true] at h hts
        rw [moved_true hl hs hn, moved_true hl hs ht] at hlt
        rw [Bool.not_true, moved_false hl, moved_false hl]
        apply mul_le_mul_of_nonneg_left _ hl
        by_contra hgap
        have hgap : |s - t| ≤ |s - n| := (not_le.mp hgap).le
        have hprod : s * n ≤ s * t := mul_le_mul_of_nonneg_left (h.trans hts) hs.le
        have hle : l * |s - t| / (s * t) ≤ l * |s - n| / (s * n) :=
          div_le_div₀ (by positivity) (mul_le_mul_of_nonneg_left hgap hl) (by positivity) hprod
        exact absurd hlt (not_lt.mpr hle)

end Curve
