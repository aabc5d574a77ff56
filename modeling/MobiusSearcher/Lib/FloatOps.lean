/-
# Floating-point arithmetic as a parameter

The operations a program uses on its floating-point numbers, with no law: a
result that holds for every instance does not depend on rounding.

Key definitions: `FloatOps`, `FloatFns`, `FloatTotal`, `ratOps`, `ratFns`.
-/
import Mathlib.Data.Rat.Floor

/-- The operations, comparisons and conversions of a floating-point type. -/
class FloatOps (F : Type*) extends Add F, Sub F, Mul F, Div F where
  /-- A literal, or an integer read as a float. -/
  lit : ℚ → F
  infinity : F
  abs : F → F
  sqrt : F → F
  maximum : F → F → F
  minimum : F → F → F
  floor : F → F
  ceil : F → F
  round : F → F
  lt : F → F → Bool
  le : F → F → Bool
  eq : F → F → Bool
  isZero : F → Bool
  /-- Nanoseconds as seconds, and back. -/
  ofNanos : ℕ → F
  toNanos : F → ℕ
  /-- The nearest `u64`; 0 for what is no number. -/
  toU64 : F → ℕ

/-- The functions of a mathematical library, and whether a number is one. -/
class FloatFns (F : Type*) extends FloatOps F where
  ln : F → F
  exp : F → F
  sin : F → F
  cos : F → F
  isFinite : F → Bool

/-- The total order of the numbers, those that are no number among them. -/
class FloatTotal (F : Type*) where
  totalLt : F → F → Bool

/-- Exact arithmetic, for runs in which nothing is rounded. -/
instance ratOps : FloatOps ℚ where
  lit := id
  infinity := 10 ^ 300
  abs x := if x < 0 then -x else x
  sqrt x := x
  maximum := max
  minimum := min
  floor x := x.floor
  ceil x := x.ceil
  round x := if x < 0 then -(1 / 2 - x).floor else (x + 1 / 2).floor
  lt x y := decide (x < y)
  le x y := decide (x ≤ y)
  eq x y := decide (x = y)
  isZero x := decide (x = 0)
  ofNanos n := n / 1000000000
  toNanos x := (x * 1000000000).floor.toNat
  toU64 x := min x.floor.toNat (2 ^ 64 - 1)

/-- Exact arithmetic without a library: its functions leave a number as it is. -/
instance ratFns : FloatFns ℚ where
  ln := id
  exp := id
  sin := id
  cos := id
  isFinite _ := true
