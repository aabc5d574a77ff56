/-
# Binary64 arithmetic

Floating-point numbers of 64 bits as IEEE 754 has them, rounding to nearest,
ties to even. A finite number is its value, a rational of the format below
2^1024, and its sign, which a zero has too. Of what is no number neither sign
nor payload is kept.

Each operation is the exact one, rounded: when its result is finite, so were
its arguments, and the result is the exact one rounded (`value_add` and the
lemmas beside it).

Key definitions: `f64`, `Finite`, `Binary64`, `Binary64.ofRat`, `Binary64.value`.
Key theorems: `value_ofRat`, `value_add`, `value_sub`, `value_mul`, `value_div`,
`lt_ofRat`, `ofRat_lt`.
-/
import MobiusSearcher.Lib.Rounding
import MobiusSearcher.Lib.FloatOps

/-- 53 digits, the last of the least number at 2^-1074. -/
def f64 : Format := ⟨53, -1074, by norm_num⟩

/-- Where infinity begins. -/
def limit64 : ℚ := 2 ^ 1024

/-- A finite number: its value and its sign. -/
structure Finite64 where
  val : ℚ
  neg : Bool
  mem : f64.round val = val
  bound : |val| < limit64
  sign : val ≠ 0 → neg = decide (val < 0)
  deriving DecidableEq

inductive Binary64
  | nan
  | inf (neg : Bool)
  | fin (x : Finite64)
  deriving DecidableEq

namespace Binary64

/-- The nearest number, a zero with the sign given; infinite from half a unit above the largest. -/
def ofRat (neg : Bool) (q : ℚ) : Binary64 :=
  if h : |f64.round q| < limit64 then
    .fin ⟨f64.round q, if f64.round q = 0 then neg else decide (f64.round q < 0), Format.round_round q, h, fun h0 =>
      if_neg h0⟩
  else .inf (decide (q < 0))

def lit (q : ℚ) : Binary64 := ofRat (decide (q < 0)) q

def neg : Binary64 → Binary64
  | .nan => .nan
  | .inf s => .inf !s
  | .fin x => .fin ⟨-x.val, !x.neg, by rw [Format.round_neg, x.mem], by rw [abs_neg]; exact x.bound, fun h => by
      have h0 : x.val ≠ 0 := fun h0 => h (by rw [h0, neg_zero])
      rw [x.sign h0]
      rcases lt_or_gt_of_ne h0 with hlt | hgt
      · simp [hlt, hlt.le]
      · simp [hgt, hgt.le]⟩

def add : Binary64 → Binary64 → Binary64
  | .fin x, .fin y => ofRat (x.neg && y.neg) (x.val + y.val)
  | .inf s, .inf t => if s = t then .inf s else .nan
  | .inf s, .fin _ => .inf s
  | .fin _, .inf t => .inf t
  | _, _ => .nan

def mul : Binary64 → Binary64 → Binary64
  | .fin x, .fin y => ofRat (x.neg ^^ y.neg) (x.val * y.val)
  | .inf s, .inf t => .inf (s ^^ t)
  | .inf s, .fin y => if y.val = 0 then .nan else .inf (s ^^ y.neg)
  | .fin x, .inf t => if x.val = 0 then .nan else .inf (x.neg ^^ t)
  | _, _ => .nan

def div : Binary64 → Binary64 → Binary64
  | .fin x, .fin y =>
    if y.val = 0 then (if x.val = 0 then .nan else .inf (x.neg ^^ y.neg))
    else ofRat (x.neg ^^ y.neg) (x.val / y.val)
  | .inf s, .fin y => .inf (s ^^ y.neg)
  | .fin x, .inf t => ofRat (x.neg ^^ t) 0
  | _, _ => .nan

def lt : Binary64 → Binary64 → Bool
  | .fin x, .fin y => decide (x.val < y.val)
  | .inf s, .inf t => s && !t
  | .inf s, .fin _ => s
  | .fin _, .inf t => !t
  | _, _ => false

def le : Binary64 → Binary64 → Bool
  | .fin x, .fin y => decide (x.val ≤ y.val)
  | .inf s, .inf t => s || !t
  | .inf s, .fin _ => s
  | .fin _, .inf t => !t
  | _, _ => false

def eq : Binary64 → Binary64 → Bool
  | .fin x, .fin y => decide (x.val = y.val)
  | .inf s, .inf t => s == t
  | _, _ => false

/-- The order in which -0 is before 0, and what is no number is last. -/
def totalLt : Binary64 → Binary64 → Bool
  | .nan, _ => false
  | _, .nan => true
  | .fin x, .fin y => decide (x.val < y.val) || (decide (x.val = y.val) && x.neg && !y.neg)
  | .inf s, .inf t => s && !t
  | .inf s, .fin _ => s
  | .fin _, .inf t => !t

/-- The other one, if one is no number. -/
def maximum : Binary64 → Binary64 → Binary64
  | .nan, y => y
  | x, .nan => x
  | x, y => if lt x y then y else x

def minimum : Binary64 → Binary64 → Binary64
  | .nan, y => y
  | x, .nan => x
  | x, y => if lt y x then y else x

/-- What an integer function makes of a finite number; it keeps the sign of a zero. -/
def integral (f : ℚ → ℤ) : Binary64 → Binary64
  | .fin x => ofRat x.neg (f x.val)
  | x => x

/-- The square root of a positive number of the format, rounded. In units of
its last digit the root of an integer is at no half. -/
def sqrtRound (q : ℚ) : ℚ :=
  let s := Int.log 2 q / 2 - 52
  let n := q / 2 ^ (2 * s)
  let r := Nat.sqrt ⌊n⌋₊
  (if n ≤ r * r + r then r else r + 1) * 2 ^ s

def sqrt : Binary64 → Binary64
  | .fin x => if x.val = 0 then .fin x else if x.neg then .nan else ofRat false (sqrtRound x.val)
  | .inf s => if s then .nan else .inf s
  | .nan => .nan

def abs (x : Binary64) : Binary64 :=
  match x with
  | .fin y => if y.neg then neg x else x
  | .inf _ => .inf false
  | .nan => .nan

/-- Towards zero, and to the nearest `u64`. -/
def toU64 : Binary64 → ℕ
  | .fin x => min ⌊x.val⌋.toNat (2 ^ 64 - 1)
  | .inf s => if s then 0 else 2 ^ 64 - 1
  | .nan => 0

/-- The value of a finite number. -/
def value : Binary64 → Option ℚ
  | .fin x => some x.val
  | _ => none

/-- The value; 0 for what has none. -/
def val (x : Binary64) : ℚ := x.value.getD 0

def IsFinite (x : Binary64) : Prop := x.value = some x.val

end Binary64

open Binary64 in
instance : FloatOps Binary64 where
  add := add
  sub x y := add x (neg y)
  mul := mul
  div := div
  lit := lit
  infinity := .inf false
  abs := abs
  sqrt := sqrt
  maximum := maximum
  minimum := minimum
  floor := integral Int.floor
  ceil := integral Int.ceil
  round := integral fun q => if q < 0 then -⌊1 / 2 - q⌋ else ⌊q + 1 / 2⌋
  lt := lt
  le := le
  eq := eq
  isZero x := x.value == some 0
  ofNanos n := add (lit (n / 1000000000 : ℕ)) (div (lit (n % 1000000000 : ℕ)) (lit 1000000000))
  toNanos x := match x.value with
    | some q => (roundEven (q * 1000000000)).toNat
    | none => 0
  toU64 := toU64

instance : FloatTotal Binary64 where
  totalLt := Binary64.totalLt

open FloatOps in
example : (lit (1 / 10) + lit (2 / 10) : Binary64) = lit (30000000000000004 / 10 ^ 17) := by decide +kernel

open FloatOps in
example : sqrt (lit 2 : Binary64) = lit (14142135623730951 / 10 ^ 16) := by decide +kernel

/-! ### Values -/

section Values

variable {x y : Binary64} {a b q r : ℚ} {s : Bool}

theorem f64_unit : f64.unit = 1 / 2 ^ 53 := rfl

theorem Binary64.value_eq_some : x.value = some q ↔ ∃ z, x = .fin z ∧ z.val = q := by
  cases x <;> simp [value]

theorem Finite64.val_mem (z : Finite64) : f64.Mem z.val := by
  rw [← z.mem]
  exact Format.round_mem _

theorem Binary64.val_eq (h : x.value = some q) : x.val = q := by rw [val, h]; rfl

theorem Binary64.isFinite_of (h : x.value = some q) : x.IsFinite := by rw [IsFinite, val_eq h, h]

theorem Binary64.value_mem (h : x.value = some q) : f64.Mem q := by
  obtain ⟨z, -, rfl⟩ := value_eq_some.mp h
  exact z.val_mem

theorem Binary64.value_lt (h : x.value = some q) : |q| < limit64 := by
  obtain ⟨z, -, rfl⟩ := value_eq_some.mp h
  exact z.bound

theorem Binary64.value_ofRat (s : Bool) (q : ℚ) :
    (ofRat s q).value = if |f64.round q| < limit64 then some (f64.round q) else none := by
  unfold ofRat
  by_cases h : |f64.round q| < limit64
  · rw [dif_pos h, if_pos h]
    rfl
  · rw [dif_neg h, if_neg h]
    rfl

theorem Binary64.value_ofRat_some : (ofRat s q).value = some r ↔ |f64.round q| < limit64 ∧ r = f64.round q := by
  rw [value_ofRat]
  split <;> simp_all [eq_comm]

theorem Binary64.value_lit (hm : f64.Mem q) (hb : |q| < limit64) : (FloatOps.lit q : Binary64).value = some q := by
  show (ofRat _ q).value = some q
  rw [value_ofRat, Format.round_eq_self hm, if_pos hb]

/-- Every integer of 53 digits is a number. -/
theorem f64_int {n : ℤ} (h : |n| ≤ 2 ^ 53) : f64.Mem n := ⟨n, 0, h, by decide, by simp⟩

/-- Next above a number is an integer that is one. -/
theorem f64_ceil (h : f64.Mem q) : f64.Mem (⌈q⌉ : ℤ) := by
  obtain ⟨m, e, hm, he, rfl⟩ := h
  rcases le_or_gt 0 e with h0 | h0
  · -- it is an integer
    obtain ⟨k, rfl⟩ := Int.eq_ofNat_of_zero_le h0
    have hint : (m : ℚ) * 2 ^ (k : ℤ) = ((m * 2 ^ k : ℤ) : ℚ) := by push_cast; rw [zpow_natCast]
    rw [hint, Int.ceil_intCast, ← hint]
    exact ⟨m, k, hm, he, rfl⟩
  · refine f64_int ?_
    have hle : |(m : ℚ) * 2 ^ e| ≤ 2 ^ 52 := by
      have hm' : |(m : ℚ)| ≤ 2 ^ 53 := by exact_mod_cast hm
      have he' : (2 : ℚ) ^ e ≤ 2 ^ (-1 : ℤ) := zpow_le_zpow_right₀ (by norm_num) (by omega)
      rw [abs_mul, abs_of_pos (Format.two_zpow_pos e)]
      calc |(m : ℚ)| * 2 ^ e ≤ 2 ^ 53 * 2 ^ (-1 : ℤ) := mul_le_mul hm' he' (Format.two_zpow_pos e).le (by norm_num)
        _ = 2 ^ 52 := by norm_num
    have hlo : -(2 ^ 52 : ℤ) ≤ ⌈(m : ℚ) * 2 ^ e⌉ := by
      have h1 := Int.le_ceil ((m : ℚ) * 2 ^ e)
      have h2 := (abs_le.mp hle).1
      exact_mod_cast h2.trans h1
    have hhi : ⌈(m : ℚ) * 2 ^ e⌉ ≤ 2 ^ 52 := Int.ceil_le.mpr (by exact_mod_cast (abs_le.mp hle).2)
    rw [abs_le]
    constructor <;> omega

/-- One less than a number is a number, from one on. -/
theorem f64_pred (h : f64.Mem q) (h1 : 1 ≤ q) (hb : q ≤ 2 ^ 53) : f64.Mem (q - 1) := by
  obtain ⟨m, e, hm, he, rfl⟩ := h
  rcases le_or_gt 0 e with h0 | h0
  · -- it is an integer
    obtain ⟨k, rfl⟩ := Int.eq_ofNat_of_zero_le h0
    have hint : (m : ℚ) * 2 ^ (k : ℤ) = ((m * 2 ^ k : ℤ) : ℚ) := by push_cast; rw [zpow_natCast]
    rw [hint] at h1 hb ⊢
    have hlo : 1 ≤ m * 2 ^ k := by exact_mod_cast h1
    have hhi : m * 2 ^ k ≤ 2 ^ 53 := by exact_mod_cast hb
    have hpred : ((m * 2 ^ k : ℤ) : ℚ) - 1 = ((m * 2 ^ k - 1 : ℤ) : ℚ) := by push_cast; ring
    rw [hpred]
    exact f64_int (abs_le.mpr ⟨by omega, by omega⟩)
  · obtain ⟨k, rfl⟩ : ∃ k : ℕ, e = -k := ⟨e.natAbs, by omega⟩
    have hone : (1 : ℚ) = 2 ^ k * 2 ^ (-k : ℤ) := by
      rw [zpow_neg, zpow_natCast, mul_inv_cancel₀ (by positivity)]
    have hle : (2 ^ k : ℤ) ≤ m := by
      have hle : ((2 ^ k : ℤ) : ℚ) * 2 ^ (-k : ℤ) ≤ m * 2 ^ (-k : ℤ) := by push_cast; rwa [← hone]
      exact_mod_cast le_of_mul_le_mul_right hle (Format.two_zpow_pos _)
    have hpos : (0 : ℤ) < 2 ^ k := by positivity
    have hm' := (abs_le.mp hm).2
    refine ⟨m - 2 ^ k, -k, abs_le.mpr ⟨by omega, by omega⟩, he, ?_⟩
    push_cast
    rw [sub_mul, ← hone]

theorem Binary64.value_litInt {n : ℤ} (h : |n| ≤ 2 ^ 53) : (FloatOps.lit (n : ℚ) : Binary64).value = some (n : ℚ) := by
  refine value_lit (f64_int h) ?_
  have h1 : |(n : ℚ)| ≤ 2 ^ 53 := by exact_mod_cast h
  exact h1.trans_lt (pow_lt_pow_right₀ (by norm_num) (by norm_num))

theorem Binary64.value_neg : (neg x).value = x.value.map Neg.neg := by
  cases x <;> rfl

/-- A sum that is finite is of finite numbers, rounded. -/
theorem Binary64.value_add (h : (x + y).value = some r) :
    ∃ a b, x.value = some a ∧ y.value = some b ∧ r = f64.round (a + b) := by
  change (add x y).value = some r at h
  unfold add at h
  split at h
  · exact ⟨_, _, rfl, rfl, (value_ofRat_some.mp h).2⟩
  · split at h <;> exact nomatch h
  all_goals exact nomatch h

theorem Binary64.value_sub (h : (x - y).value = some r) :
    ∃ a b, x.value = some a ∧ y.value = some b ∧ r = f64.round (a - b) := by
  obtain ⟨a, b, ha, hb, hr⟩ := value_add (x := x) (y := neg y) h
  rw [value_neg] at hb
  obtain ⟨c, hc, rfl⟩ := Option.map_eq_some_iff.mp hb
  exact ⟨a, c, ha, hc, by rw [hr, sub_eq_add_neg]⟩

theorem Binary64.value_mul (h : (x * y).value = some r) :
    ∃ a b, x.value = some a ∧ y.value = some b ∧ r = f64.round (a * b) := by
  change (mul x y).value = some r at h
  unfold mul at h
  split at h
  · exact ⟨_, _, rfl, rfl, (value_ofRat_some.mp h).2⟩
  · exact nomatch h
  · split at h <;> exact nomatch h
  · split at h <;> exact nomatch h
  · exact nomatch h

/-- A quotient that is finite is of a finite number, by one that is not zero or by an infinite one. -/
theorem Binary64.value_div (h : (x / y).value = some r) :
    ∃ a, x.value = some a ∧
      ((∃ b, y.value = some b ∧ b ≠ 0 ∧ r = f64.round (a / b)) ∨ (y.value = none ∧ r = 0)) := by
  change (div x y).value = some r at h
  unfold div at h
  split at h
  · rename_i z w
    split at h
    · split at h <;> exact nomatch h
    · rename_i hw
      exact ⟨_, rfl, .inl ⟨_, rfl, hw, (value_ofRat_some.mp h).2⟩⟩
  · exact nomatch h
  · refine ⟨_, rfl, .inr ⟨rfl, ?_⟩⟩
    rw [(value_ofRat_some.mp h).2, Format.round_zero]
  · exact nomatch h

theorem Binary64.add_eq (hx : x.value = some a) (hy : y.value = some b) : ∃ s, x + y = ofRat s (a + b) := by
  obtain ⟨z, rfl, rfl⟩ := value_eq_some.mp hx
  obtain ⟨w, rfl, rfl⟩ := value_eq_some.mp hy
  exact ⟨_, rfl⟩

theorem Binary64.sub_eq (hx : x.value = some a) (hy : y.value = some b) : ∃ s, x - y = ofRat s (a - b) := by
  have hn : (neg y).value = some (-b) := by rw [value_neg, hy]; rfl
  obtain ⟨s, hs⟩ := add_eq hx hn
  exact ⟨s, by rw [sub_eq_add_neg]; exact hs⟩

theorem Binary64.mul_eq (hx : x.value = some a) (hy : y.value = some b) : ∃ s, x * y = ofRat s (a * b) := by
  obtain ⟨z, rfl, rfl⟩ := value_eq_some.mp hx
  obtain ⟨w, rfl, rfl⟩ := value_eq_some.mp hy
  exact ⟨_, rfl⟩

theorem Binary64.div_eq (hx : x.value = some a) (hy : y.value = some b) (h0 : b ≠ 0) : ∃ s, x / y = ofRat s (a / b) := by
  obtain ⟨z, rfl, rfl⟩ := value_eq_some.mp hx
  obtain ⟨w, rfl, rfl⟩ := value_eq_some.mp hy
  exact ⟨z.neg ^^ w.neg, if_neg h0⟩

/-- A sum is off by a share of itself. -/
theorem Binary64.add_error (h : (x + y).value = some r) :
    x.IsFinite ∧ y.IsFinite ∧ |r - (x.val + y.val)| ≤ f64.unit * |r| := by
  obtain ⟨p, q, hp, hq, rfl⟩ := value_add h
  refine ⟨isFinite_of hp, isFinite_of hq, ?_⟩
  rw [val_eq hp, val_eq hq]
  exact (Format.round_error_grid ((value_mem hp).onGrid.add (value_mem hq).onGrid)).2

theorem Binary64.sub_error (h : (x - y).value = some r) :
    x.IsFinite ∧ y.IsFinite ∧ |r - (x.val - y.val)| ≤ f64.unit * |r| := by
  obtain ⟨p, q, hp, hq, rfl⟩ := value_sub h
  refine ⟨isFinite_of hp, isFinite_of hq, ?_⟩
  rw [val_eq hp, val_eq hq]
  have := (Format.round_error_grid ((value_mem hp).onGrid.add (value_mem hq).onGrid.neg)).2
  rwa [← sub_eq_add_neg] at this

theorem Binary64.value_sqrt (h : (FloatOps.sqrt x).value = some r) : x.IsFinite := by
  cases x with
  | nan => exact nomatch h
  | inf s => cases s <;> exact nomatch h
  | fin z => rfl

/-- What is rounded up to a `u64` that is neither the least nor the largest was a number, and is no more than that. -/
theorem Binary64.toU64_ceil (h0 : FloatOps.toU64 (FloatOps.ceil x) ≠ 0)
    (hlt : FloatOps.toU64 (FloatOps.ceil x) < 2 ^ 64 - 1) :
    x.IsFinite ∧ 0 < x.val ∧ x.val ≤ FloatOps.toU64 (FloatOps.ceil x) := by
  cases x with
  | nan => exact absurd rfl h0
  | inf s =>
    cases s with
    | true => exact absurd rfl h0
    | false => exact absurd hlt (lt_irrefl _)
  | fin z =>
    have hmem : f64.Mem (⌈z.val⌉ : ℤ) := f64_ceil z.val_mem
    have hround : f64.round ((⌈z.val⌉ : ℤ) : ℚ) = ⌈z.val⌉ := Format.round_eq_self hmem
    have hceil : (FloatOps.ceil (.fin z) : Binary64) = ofRat z.neg (⌈z.val⌉ : ℤ) := rfl
    rw [hceil] at h0 hlt ⊢
    by_cases hbound : |f64.round ((⌈z.val⌉ : ℤ) : ℚ)| < limit64
    · have hval : FloatOps.toU64 (ofRat z.neg (⌈z.val⌉ : ℤ)) = min ⌈z.val⌉.toNat (2 ^ 64 - 1) := by
        unfold ofRat
        rw [dif_pos hbound]
        show min ⌊f64.round ((⌈z.val⌉ : ℤ) : ℚ)⌋.toNat (2 ^ 64 - 1) = _
        rw [hround, Int.floor_intCast]
      rw [hval] at h0 hlt ⊢
      have hmin : min ⌈z.val⌉.toNat (2 ^ 64 - 1) = ⌈z.val⌉.toNat := by omega
      rw [hmin] at h0 ⊢
      have hpos : 0 < ⌈z.val⌉ := by omega
      refine ⟨rfl, Int.ceil_pos.mp hpos, ?_⟩
      have hcast : ((⌈z.val⌉.toNat : ℕ) : ℤ) = ⌈z.val⌉ := Int.toNat_of_nonneg hpos.le
      calc z.val ≤ ((⌈z.val⌉ : ℤ) : ℚ) := Int.le_ceil _
        _ = ((⌈z.val⌉.toNat : ℕ) : ℚ) := by rw [← hcast]; push_cast; rw [hcast]
    · have hinf : ofRat z.neg (⌈z.val⌉ : ℤ) = .inf (decide (((⌈z.val⌉ : ℤ) : ℚ) < 0)) := dif_neg hbound
      rw [hinf] at h0 hlt
      by_cases hneg : ((⌈z.val⌉ : ℤ) : ℚ) < 0
      · rw [decide_eq_true hneg] at h0
        exact absurd rfl h0
      · rw [decide_eq_false hneg] at hlt
        exact absurd hlt (lt_irrefl _)

/-- A sum that is finite is of finite numbers. -/
theorem Binary64.foldl_finite {α : Type} (g : α → Binary64) : ∀ (l : List α) (x : Binary64),
    (l.foldl (fun s a => s + g a) x).IsFinite → x.IsFinite ∧ ∀ a ∈ l, (g a).IsFinite
  | [], _, h => ⟨h, fun _ ha => nomatch ha⟩
  | a :: l, x, h => by
    obtain ⟨hsum, hl⟩ := foldl_finite g l (x + g a) h
    obtain ⟨hx, ha, -⟩ := add_error hsum
    refine ⟨hx, fun b hb => ?_⟩
    rcases List.mem_cons.mp hb with rfl | hb
    · exact ha
    · exact hl b hb

end Values

/-! ### Comparisons -/

section Order

variable {x y : Binary64} {a b q : ℚ} {s : Bool}

theorem Binary64.lt_value (hx : x.value = some a) (hy : y.value = some b) : FloatOps.lt x y = decide (a < b) := by
  obtain ⟨z, rfl, rfl⟩ := value_eq_some.mp hx
  obtain ⟨w, rfl, rfl⟩ := value_eq_some.mp hy
  rfl

theorem Binary64.le_value (hx : x.value = some a) (hy : y.value = some b) : FloatOps.le x y = decide (a ≤ b) := by
  obtain ⟨z, rfl, rfl⟩ := value_eq_some.mp hx
  obtain ⟨w, rfl, rfl⟩ := value_eq_some.mp hy
  rfl

theorem Binary64.value_maximum (hx : x.value = some a) (hy : y.value = some b) :
    (FloatOps.maximum x y).value = some (max a b) := by
  obtain ⟨z, rfl, rfl⟩ := value_eq_some.mp hx
  obtain ⟨w, rfl, rfl⟩ := value_eq_some.mp hy
  show (if decide (z.val < w.val) then Binary64.fin w else .fin z).value = _
  by_cases h : z.val < w.val
  · simp [h, value, h.le]
  · simp [h, value, not_lt.mp h]

theorem Binary64.value_minimum (hx : x.value = some a) (hy : y.value = some b) :
    (FloatOps.minimum x y).value = some (min a b) := by
  obtain ⟨z, rfl, rfl⟩ := value_eq_some.mp hx
  obtain ⟨w, rfl, rfl⟩ := value_eq_some.mp hy
  show (if decide (w.val < z.val) then Binary64.fin w else .fin z).value = _
  by_cases h : w.val < z.val
  · simp [h, value, h.le]
  · simp [h, value, not_lt.mp h]

/-- A result too large to be finite has the sign of what was rounded. -/
theorem Binary64.overflow_sign (h : ¬ |f64.round q| < limit64) :
    (q < 0 ∧ f64.round q ≤ -limit64) ∨ (0 ≤ q ∧ limit64 ≤ f64.round q) := by
  rcases lt_or_ge q 0 with hq | hq
  · have hr := Format.round_nonneg (f := f64) (neg_nonneg.mpr hq.le)
    rw [Format.round_neg] at hr
    rw [abs_of_nonpos (by linarith)] at h
    exact .inl ⟨hq, by linarith⟩
  · have hr := Format.round_nonneg (f := f64) hq
    rw [abs_of_nonneg hr] at h
    exact .inr ⟨hq, by linarith⟩

/-- A comparison with a finite number does not see whether a result is finite. -/
theorem Binary64.ofRat_lt (hy : y.value = some b) : FloatOps.lt (ofRat s q) y = decide (f64.round q < b) := by
  have hb := abs_lt.mp (value_lt hy)
  obtain ⟨w, rfl, rfl⟩ := value_eq_some.mp hy
  unfold ofRat
  split
  · rfl
  · rename_i h
    show decide (q < 0) = decide (f64.round q < w.val)
    rcases overflow_sign h with ⟨h1, h2⟩ | ⟨h1, h2⟩
    · rw [decide_eq_true h1, decide_eq_true (by linarith [hb.1])]
    · rw [decide_eq_false (by linarith), decide_eq_false (by linarith [hb.2])]

theorem Binary64.lt_ofRat (hx : x.value = some a) : FloatOps.lt x (ofRat s q) = decide (a < f64.round q) := by
  have ha := abs_lt.mp (value_lt hx)
  obtain ⟨z, rfl, rfl⟩ := value_eq_some.mp hx
  unfold ofRat
  split
  · rfl
  · rename_i h
    show (!decide (q < 0)) = decide (z.val < f64.round q)
    rcases overflow_sign h with ⟨h1, h2⟩ | ⟨h1, h2⟩
    · rw [decide_eq_true h1, decide_eq_false (by linarith [ha.1])]
      rfl
    · rw [decide_eq_false (by linarith), decide_eq_true (by linarith [ha.2])]
      rfl

/-- Not below zero: at least zero, or no number. -/
def Binary64.NonNeg (x : Binary64) : Prop := FloatOps.lt x (FloatOps.lit 0) = false

theorem Binary64.value_zero : (FloatOps.lit 0 : Binary64).value = some 0 :=
  value_lit Format.zero_mem (by rw [abs_zero]; exact pow_pos (by norm_num) _)

theorem Binary64.nonNeg_fin {z : Finite64} : NonNeg (.fin z) ↔ 0 ≤ z.val := by
  rw [NonNeg, lt_value (a := z.val) rfl value_zero, decide_eq_false_iff_not, not_lt]

theorem Binary64.nonNeg_inf : NonNeg (.inf s) ↔ s = false := by
  obtain ⟨z, hz, -⟩ := value_eq_some.mp value_zero
  rw [NonNeg, hz]
  rfl

theorem Binary64.nonNeg_nan : NonNeg .nan := rfl

theorem Binary64.nonNeg_ofRat (h : 0 ≤ q) : NonNeg (ofRat s q) := by
  rw [NonNeg, ofRat_lt value_zero, decide_eq_false_iff_not, not_lt]
  exact Format.round_nonneg h

theorem Binary64.NonNeg.add (hx : x.NonNeg) (hy : y.NonNeg) : (x + y).NonNeg := by
  show NonNeg (Binary64.add x y)
  cases x with
  | nan => cases y <;> exact nonNeg_nan
  | inf s =>
    obtain rfl := nonNeg_inf.mp hx
    cases y with
    | nan => exact nonNeg_nan
    | inf t =>
      obtain rfl := nonNeg_inf.mp hy
      exact nonNeg_inf.mpr rfl
    | fin w => exact nonNeg_inf.mpr rfl
  | fin z =>
    cases y with
    | nan => exact nonNeg_nan
    | inf t => exact hy
    | fin w => exact nonNeg_ofRat (add_nonneg (nonNeg_fin.mp hx) (nonNeg_fin.mp hy))

theorem Binary64.NonNeg.mul (hx : x.NonNeg) (hy : y.NonNeg) : (x * y).NonNeg := by
  show NonNeg (Binary64.mul x y)
  have hinf : ∀ (z : Finite64) (s : Bool), s = false → 0 ≤ z.val →
      NonNeg (if z.val = 0 then Binary64.nan else .inf (s ^^ z.neg)) := by
    intro z s hs hz
    by_cases h0 : z.val = 0
    · rw [if_pos h0]
      exact nonNeg_nan
    · rw [if_neg h0, z.sign h0, hs, decide_eq_false (not_lt.mpr hz)]
      exact nonNeg_inf.mpr rfl
  cases x with
  | nan => cases y <;> exact nonNeg_nan
  | inf s =>
    cases y with
    | nan => exact nonNeg_nan
    | inf t => exact nonNeg_inf.mpr (by rw [nonNeg_inf.mp hx, nonNeg_inf.mp hy]; rfl)
    | fin w => exact hinf w s (nonNeg_inf.mp hx) (nonNeg_fin.mp hy)
  | fin z =>
    cases y with
    | nan => exact nonNeg_nan
    | inf t =>
      have h := hinf z t (nonNeg_inf.mp hy) (nonNeg_fin.mp hx)
      rwa [Bool.xor_comm] at h
    | fin w => exact nonNeg_ofRat (mul_nonneg (nonNeg_fin.mp hx) (nonNeg_fin.mp hy))

/-- A duration is not below zero. -/
theorem Binary64.nonNeg_ofNanos (n : ℕ) : (FloatOps.ofNanos n : Binary64).NonNeg := by
  have hint : ∀ k : ℕ, k ≤ 2 ^ 53 → (FloatOps.lit (k : ℚ) : Binary64).value = some (k : ℚ) := fun k hk => by
    have h := value_litInt (n := k) (by rw [Nat.abs_cast]; exact_mod_cast hk)
    simpa using h
  have hrest := hint (n % 1000000000) (by omega)
  have hsecond := hint 1000000000 (by norm_num)
  obtain ⟨s, hs⟩ := div_eq hrest hsecond (by norm_num)
  refine NonNeg.add (nonNeg_ofRat (Nat.cast_nonneg _)) ?_
  rw [Nat.cast_ofNat] at hs
  exact (congrArg NonNeg hs).mpr (nonNeg_ofRat (by positivity))

/-- What is at most a power of two is finite, rounded. -/
theorem Binary64.value_ofRat_pow {k : ℕ} (hk : k < 1024) (h0 : 0 ≤ q) (hq : q ≤ 2 ^ k) :
    (ofRat s q).value = some (f64.round q) := by
  have hmem : f64.Mem (2 ^ k) := ⟨1, k, by norm_num [f64], by simp only [f64]; omega, by norm_num⟩
  have hlimit : (2 : ℚ) ^ k < limit64 := pow_lt_pow_right₀ (by norm_num) hk
  have hround := Format.round_le hmem hq
  rw [value_ofRat, if_pos]
  rw [abs_of_nonneg (Format.round_nonneg h0)]
  exact hround.trans_lt hlimit

/-- The least number is far below a nanosecond. -/
theorem f64_least_le : f64.least ≤ f64.unit * (1 / 10 ^ 9) := by
  have hpow : (2 : ℚ) ^ (-1074 : ℤ) ≤ 2 ^ (-84 : ℤ) := zpow_le_zpow_right₀ (by norm_num) (by norm_num)
  calc (2 : ℚ) ^ (-1074 : ℤ) / 2 ≤ 2 ^ (-84 : ℤ) / 2 := div_le_div_of_nonneg_right hpow (by norm_num)
    _ ≤ 1 / 2 ^ 53 * (1 / 10 ^ 9) := by norm_num

theorem f64_natCast_onGrid (k : ℕ) : f64.OnGrid (k : ℚ) := by
  have hone : f64.Mem 1 := ⟨1, 0, by norm_num [f64], by norm_num [f64], by norm_num⟩
  obtain ⟨j, hj⟩ := hone.onGrid
  refine ⟨k * j, ?_⟩
  push_cast
  rw [mul_assoc, ← hj, mul_one]

/-- Nanoseconds, as a part of a second, are rounded up by two units at most. -/
theorem f64_round_nanos (m : ℕ) : f64.round (m / 10 ^ 9) ≤ (1 + 2 * f64.unit) * (m / 10 ^ 9) := by
  rcases Nat.eq_zero_or_pos m with h0 | hpos
  · rw [h0]
    norm_num
  · have hone : (1 : ℚ) / 10 ^ 9 ≤ m / 10 ^ 9 := by
      gcongr
      exact_mod_cast hpos
    have hround := Format.round_le_least (f := f64) (q := m / 10 ^ 9) (by positivity)
    have hunit := mul_le_mul_of_nonneg_left hone f64.unit_pos.le
    have hleast := f64_least_le
    linarith

/-- A duration in seconds is rounded up by a few units at most. -/
theorem Binary64.ofNanos_le {n : ℕ} (h : n < 2 ^ 64 * 10 ^ 9) : ∃ x, (FloatOps.ofNanos n : Binary64).value = some x ∧
    0 ≤ x ∧ x ≤ (1 + f64.unit) * ((1 + 2 * f64.unit) * (n / 10 ^ 9)) := by
  have hu0 := f64.unit_pos
  -- a number of whole seconds, and a rest
  obtain ⟨k, hk⟩ : ∃ k, k = n / 1000000000 := ⟨_, rfl⟩
  obtain ⟨m, hm⟩ : ∃ m, m = n % 1000000000 := ⟨_, rfl⟩
  have hn : (n : ℚ) / 10 ^ 9 = k + m / 10 ^ 9 := by
    have hsplit : n = 1000000000 * k + m := by omega
    rw [hsplit]
    push_cast
    ring
  have hk0 : (0 : ℚ) ≤ k := Nat.cast_nonneg k
  have hk64 : (k : ℚ) ≤ 2 ^ 64 := by exact_mod_cast (by omega : k ≤ 2 ^ 64)
  have hm0 : (0 : ℚ) ≤ m / 10 ^ 9 := by positivity
  have hm1 : (m : ℚ) / 10 ^ 9 ≤ 2 ^ 0 := by
    rw [pow_zero, div_le_one (by norm_num)]
    exact_mod_cast (by omega : m ≤ 10 ^ 9)
  have hseconds : (FloatOps.lit (k : ℚ) : Binary64).value = some (f64.round k) := value_ofRat_pow (by norm_num) hk0 hk64
  have hint : ∀ j : ℕ, j ≤ 2 ^ 53 → (FloatOps.lit (j : ℚ) : Binary64).value = some (j : ℚ) := fun j hj => by
    simpa using value_litInt (n := j) (by rw [Nat.abs_cast]; exact_mod_cast hj)
  obtain ⟨s, hdiv⟩ := div_eq (hint m (by omega)) (hint 1000000000 (by norm_num)) (by norm_num)
  have hrest : (FloatOps.lit (m : ℚ) / FloatOps.lit ((1000000000 : ℕ) : ℚ) : Binary64).value =
      some (f64.round (m / 10 ^ 9)) := by
    have heq : ((1000000000 : ℕ) : ℚ) = 10 ^ 9 := by norm_num
    rw [hdiv, heq]
    exact value_ofRat_pow (by norm_num) hm0 hm1
  obtain ⟨s', hadd⟩ := add_eq hseconds hrest
  obtain ⟨a, ha⟩ : ∃ a, a = f64.round (k : ℚ) + f64.round (m / 10 ^ 9) := ⟨_, rfl⟩
  have ha0 : 0 ≤ a := ha ▸ add_nonneg (Format.round_nonneg hk0) (Format.round_nonneg hm0)
  have hgrid : f64.OnGrid a := ha ▸ (Format.round_mem _).onGrid.add (Format.round_mem _).onGrid
  have hparts : a ≤ (1 + 2 * f64.unit) * (n / 10 ^ 9) := by
    have hwhole := Format.round_le_grid (f64_natCast_onGrid k) hk0
    have hpart := f64_round_nanos m
    have := mul_nonneg hu0.le hk0
    rw [ha, hn]
    linarith
  have hround := Format.round_le_grid hgrid ha0
  refine ⟨f64.round a, ?_, Format.round_nonneg ha0, hround.trans (mul_le_mul_of_nonneg_left hparts (by linarith))⟩
  have hsum : (FloatOps.ofNanos n : Binary64) = ofRat s' a := by
    rw [ha, ← hadd, hk, hm, Nat.cast_ofNat]
    rfl
  have ha66 : a ≤ 2 ^ 66 := by
    rw [f64_unit, hn] at hparts
    linarith
  rw [hsum, value_ofRat_pow (by norm_num) ha0 ha66]

/-- The lesser of two numbers not below zero is one, at most the second, if that is finite. -/
theorem Binary64.minimum_nonNeg (hx : x.NonNeg) (hy : y.value = some b) (hb : 0 ≤ b) :
    ∃ q, (FloatOps.minimum x y).value = some q ∧ 0 ≤ q ∧ q ≤ b := by
  obtain ⟨w, rfl, rfl⟩ := value_eq_some.mp hy
  cases x with
  | nan => exact ⟨w.val, rfl, hb, le_rfl⟩
  | inf s =>
    obtain rfl := nonNeg_inf.mp hx
    exact ⟨w.val, rfl, hb, le_rfl⟩
  | fin z => exact ⟨_, value_minimum (x := .fin z) (y := .fin w) rfl rfl, le_min (nonNeg_fin.mp hx) hb, min_le_right _ _⟩

/-- What is at least as large, less the other one. -/
theorem Binary64.nonNeg_sub (h : FloatOps.le y x = true) : (x - y).NonNeg := by
  show NonNeg (Binary64.add x (neg y))
  cases x with
  | nan => cases y <;> exact nonNeg_nan
  | inf s =>
    cases y with
    | nan => exact nonNeg_nan
    | inf t => cases s <;> cases t <;> first | exact nonNeg_nan | exact nonNeg_inf.mpr rfl | exact nomatch h
    | fin w => exact nonNeg_inf.mpr (by simpa [FloatOps.le, le] using h)
  | fin z =>
    cases y with
    | nan => exact nonNeg_nan
    | inf t =>
      have ht : t = true := h
      exact nonNeg_inf.mpr (by rw [ht]; rfl)
    | fin w =>
      have hle : w.val ≤ z.val := of_decide_eq_true h
      exact nonNeg_ofRat (by show 0 ≤ z.val + -w.val; linarith)

/-- The lesser of two is at most the second, unless that is no number. -/
theorem Binary64.minimum_le (x y : Binary64) : y = .nan ∨ FloatOps.le (FloatOps.minimum x y) y = true := by
  have hself : ∀ z : Binary64, z ≠ .nan → FloatOps.le z z = true := by
    intro z hz
    cases z with
    | nan => exact absurd rfl hz
    | inf s => cases s <;> rfl
    | fin w => exact decide_eq_true le_rfl
  cases y with
  | nan => exact .inl rfl
  | inf t =>
    right
    cases x with
    | nan => exact hself _ nofun
    | inf s => cases s <;> cases t <;> rfl
    | fin z => cases t <;> rfl
  | fin w =>
    right
    cases x with
    | nan => exact hself _ nofun
    | inf s => cases s <;> first | rfl | exact hself _ nofun
    | fin z =>
      rw [le_value (value_minimum (x := .fin z) (y := .fin w) rfl rfl) rfl]
      exact decide_eq_true (min_le_right _ _)

theorem Binary64.totalLt_asymm (h : FloatTotal.totalLt x y = true) : FloatTotal.totalLt y x = false := by
  cases x with
  | nan => exact nomatch h
  | inf s =>
    cases y with
    | nan => rfl
    | inf t => cases s <;> cases t <;> simp_all [FloatTotal.totalLt, totalLt]
    | fin w =>
      have hs : s = true := h
      rw [hs]
      rfl
  | fin z =>
    cases y with
    | nan => rfl
    | inf t => simpa [FloatTotal.totalLt, totalLt] using h
    | fin w =>
      simp only [FloatTotal.totalLt, totalLt, Bool.or_eq_true, Bool.and_eq_true, decide_eq_true_eq, Bool.not_eq_true',
        Bool.or_eq_false_iff, decide_eq_false_iff_not, Bool.and_eq_false_iff, not_lt] at h ⊢
      rcases h with h | ⟨⟨h, -⟩, hw⟩
      · exact ⟨h.le, .inl (.inl h.ne')⟩
      · exact ⟨h.le, .inl (.inr hw)⟩

/-- What is at most the one is at least what no other is before. -/
theorem Binary64.le_of_totalLt {z : Binary64} (h : FloatTotal.totalLt x y = false) (hle : FloatOps.le x z = true) :
    FloatOps.le y z = true := by
  cases x with
  | nan => cases z <;> exact nomatch hle
  | inf s =>
    cases y with
    | nan => exact nomatch h
    | inf t =>
      cases s with
      | true =>
        have ht : t = true := by simpa [FloatTotal.totalLt, totalLt] using h
        subst ht
        exact hle
      | false =>
        cases z with
        | nan => exact nomatch hle
        | inf u =>
          have hu : u = false := by simpa [FloatOps.le, le] using hle
          subst hu
          cases t <;> rfl
        | fin v => exact nomatch hle
    | fin w =>
      have hs : s = false := h
      subst hs
      cases z with
      | nan => exact nomatch hle
      | inf t => exact hle
      | fin v => exact nomatch hle
  | fin v =>
    cases y with
    | nan => exact nomatch h
    | inf t =>
      have ht : t = true := by simpa [FloatTotal.totalLt, totalLt] using h
      subst ht
      cases z with
      | nan => exact nomatch hle
      | inf t => rfl
      | fin u => rfl
    | fin w =>
      have hwv : w.val ≤ v.val := by
        have h' : (decide (v.val < w.val) || (decide (v.val = w.val) && v.neg && !w.neg)) = false := h
        rw [Bool.or_eq_false_iff] at h'
        exact not_lt.mp (of_decide_eq_false h'.1)
      cases z with
      | nan => exact nomatch hle
      | inf t => exact hle
      | fin u => exact decide_eq_true (hwv.trans (of_decide_eq_true hle))

end Order
