/-
# Machine integers over `ℕ` and `ℤ`

A fixed-width integer is the `ℕ` or `ℤ` it stands for; the operations that
can leave its range are named here by what they do then: wrap (`wrapU64`,
`wrapI64`, as an unchecked operation or an `as` cast does), saturate
(`satAddU64`, `satAddI64`, `clampI64`) or fail (`checkedI64`, `checkedI128`).

Key definitions: `wrapI64`, `wrapU64`, `wrapU32`, `satAddU64`, `satAddI64`,
`clampI64`, `checkedI64`, `checkedI128`.
-/
import Mathlib.Tactic

namespace Machine

/-- The largest `u64`. -/
def u64Max : ℕ := 2 ^ 64 - 1

/-- The least `i64`. -/
def i64Min : ℤ := -2 ^ 63

/-- The largest `i64`. -/
def i64Max : ℤ := 2 ^ 63 - 1

/-- Two's complement truncation to 64 bits, read as signed. -/
def wrapI64 (x : ℤ) : ℤ := Int.bmod x (2 ^ 64)

/-- Truncation to 64 bits, read as unsigned. -/
def wrapU64 (x : ℕ) : ℕ := x % 2 ^ 64

/-- Truncation to 32 bits, read as unsigned. -/
def wrapU32 (x : ℕ) : ℕ := x % 2 ^ 32

def satAddU64 (a b : ℕ) : ℕ := min (a + b) u64Max

/-- The nearest `i64`. -/
def clampI64 (x : ℤ) : ℤ := max i64Min (min x i64Max)

def satAddI64 (a b : ℤ) : ℤ := clampI64 (a + b)

def checkedI64 (x : ℤ) : Option ℤ := if i64Min ≤ x ∧ x ≤ i64Max then some x else none

def checkedI128 (x : ℤ) : Option ℤ := if -2 ^ 127 ≤ x ∧ x < 2 ^ 127 then some x else none

/-- What an `i64` can be. -/
def IsI64 (x : ℤ) : Prop := i64Min ≤ x ∧ x ≤ i64Max

instance (x : ℤ) : Decidable (IsI64 x) := inferInstanceAs (Decidable (_ ∧ _))

theorem wrapI64_of_mem {x : ℤ} (h₁ : i64Min ≤ x) (h₂ : x ≤ i64Max) : wrapI64 x = x := by
  unfold i64Min at h₁
  unfold i64Max at h₂
  unfold wrapI64
  rw [Int.bmod_def]
  omega

theorem IsI64.wrap {x : ℤ} (h : IsI64 x) : wrapI64 x = x := wrapI64_of_mem h.1 h.2

/-- The difference of two `i64`s wraps where it leaves the type: once around. -/
theorem wrapI64_sub {x y : ℤ} (hx : IsI64 x) (hy : IsI64 y) :
    wrapI64 (x - y) = x - y ∧ IsI64 (x - y) ∨ i64Max < x - y ∧ wrapI64 (x - y) < 0 ∨ x - y < i64Min ∧ 0 ≤ wrapI64 (x - y) := by
  unfold IsI64 i64Min i64Max at *
  unfold wrapI64
  rw [Int.bmod_def]
  omega

theorem wrapU64_of_lt {x : ℕ} (h : x < 2 ^ 64) : wrapU64 x = x := Nat.mod_eq_of_lt h

theorem wrapU32_of_lt {x : ℕ} (h : x < 2 ^ 32) : wrapU32 x = x := Nat.mod_eq_of_lt h

theorem clampI64_of_mem {x : ℤ} (h₁ : i64Min ≤ x) (h₂ : x ≤ i64Max) : clampI64 x = x := by
  unfold clampI64
  omega

end Machine
