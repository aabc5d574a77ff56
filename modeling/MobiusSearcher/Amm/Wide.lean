/-
# 256-bit arithmetic

`U256`, `mul_div` and `mul_div_up` of `crates/market/src/amm/math.rs`: limb
products with their carries and a division bit by bit, in checked 128-bit
operations. They are exact (`mul_eq`, `divRem_eq`), so that the rest of the
pool arithmetic reads as arithmetic on `ℕ` (`mulDiv_eq`, `mulDivUp_eq`,
`wide_arithmetic_exact`).

Key definitions: `U256`, `U256.mul`, `U256.divRem`, `mulDiv`, `mulDivUp`.
Key theorems: `U256.mul_eq`, `U256.divRem_eq`, `wide_arithmetic_exact`.
-/
import MobiusSearcher.Lib.Checked
import Mathlib.Algebra.Order.Floor.Div

namespace MobiusSearcher
namespace Amm

/-- A 256-bit unsigned integer as two halves. -/
structure U256 where
  hi : ℕ
  lo : ℕ
  deriving DecidableEq, Repr

namespace U256

/-- The integer the halves stand for. -/
def val (u : U256) : ℕ := u.hi * 2 ^ 128 + u.lo

/-- Both halves are 128 bits. -/
structure Fits (u : U256) : Prop where
  hi : u.hi < 2 ^ 128
  lo : u.lo < 2 ^ 128

def ofLow (lo : ℕ) : U256 := ⟨0, lo⟩

/-- `a × b`, exact. -/
def mul (a b : ℕ) : Checked U256 := do
  let (a1, a0, b1, b0) := (a / 2 ^ 64, a % 2 ^ 64, b / 2 ^ 64, b % 2 ^ 64)
  let p00 ← Checked.mul 128 a0 b0
  let p01 ← Checked.mul 128 a0 b1
  let p10 ← Checked.mul 128 a1 b0
  let p11 ← Checked.mul 128 a1 b1
  let mid ← Checked.add 128 (p00 / 2 ^ 64) (p01 % 2 ^ 64)
  let mid ← Checked.add 128 mid (p10 % 2 ^ 64)
  let hi ← Checked.add 128 p11 (p01 / 2 ^ 64)
  let hi ← Checked.add 128 hi (p10 / 2 ^ 64)
  let hi ← Checked.add 128 hi (mid / 2 ^ 64)
  pure ⟨hi, p00 % 2 ^ 64 ||| Checked.shl 128 mid 64⟩

/-- `self << n` for `n < 128`, or none if bits would be lost. -/
def checkedShl (u : U256) (n : ℕ) : Checked U256 :=
  if n = 0 then .ok u
  else if 128 ≤ n ∨ u.hi / 2 ^ (128 - n) ≠ 0 then Checked.none
  else .ok ⟨Checked.shl 128 u.hi n ||| u.lo / 2 ^ (128 - n), Checked.shl 128 u.lo n⟩

def checkedAdd (u v : U256) : Checked U256 := do
  let lo := (u.lo + v.lo) % 2 ^ 128
  let carry := if u.lo + v.lo < 2 ^ 128 then 0 else 1
  let hi ← Checked.checkedAdd 128 u.hi v.hi
  let hi ← Checked.checkedAdd 128 hi carry
  pure ⟨hi, lo⟩

/-- Bit `i`. -/
def bit (u : U256) (i : ℕ) : ℕ := (if 128 ≤ i then u.hi / 2 ^ (i - 128) else u.lo / 2 ^ i) % 2

def setBit (u : U256) (i : ℕ) : U256 :=
  if 128 ≤ i then { u with hi := u.hi ||| 2 ^ (i - 128) } else { u with lo := u.lo ||| 2 ^ i }

/-- One turn of the division: the next bit comes down into the remainder. -/
def divRemBit (n : U256) (d : ℕ) (s : U256 × ℕ) (i : ℕ) : U256 × ℕ :=
  let carry := s.2 / 2 ^ 127
  let rem := Checked.shl 128 s.2 1 ||| n.bit i
  if carry = 1 ∨ d ≤ rem then (s.1.setBit i, (rem + 2 ^ 128 - d) % 2 ^ 128) else (s.1, rem)

/-- Quotient and remainder of `self / d`. -/
def divRem (n : U256) (d : ℕ) : Checked (U256 × ℕ) :=
  if d = 0 then Checked.none else .ok ((List.range 256).reverse.foldl (divRemBit n d) (⟨0, 0⟩, 0))

/-- The value, if it fits 128 bits. -/
def low (u : U256) : Checked ℕ := if u.hi = 0 then .ok u.lo else Checked.none

end U256

/-- `⌊a × b / d⌋`, or none if it does not fit (or `d` is 0). -/
def mulDiv (a b d : ℕ) : Checked ℕ := do
  let p ← U256.mul a b
  let (q, _) ← p.divRem d
  q.low

/-- `⌈a × b / d⌉`. -/
def mulDivUp (a b d : ℕ) : Checked ℕ := do
  let p ← U256.mul a b
  let (q, rem) ← p.divRem d
  let q ← q.low
  Checked.checkedAdd 128 q (if rem ≠ 0 then 1 else 0)

/-! ### Products -/

/-- Disjoint bits: the low ones, and a multiple of a power above them. -/
theorem or_shifted {a m n : ℕ} (h : a < 2 ^ n) : a ||| m * 2 ^ n = m * 2 ^ n + a := by
  rw [Nat.or_comm, Nat.mul_comm, ← Nat.two_pow_add_eq_or_of_lt h]

namespace U256

theorem val_lt {u : U256} (h : u.Fits) : u.val < 2 ^ 256 := by
  have hhi := h.hi
  have hlo := h.lo
  unfold val
  omega

/-- The halves of an integer. -/
def ofNat (n : ℕ) : U256 := ⟨n / 2 ^ 128, n % 2 ^ 128⟩

theorem val_ofNat (n : ℕ) : (ofNat n).val = n := Nat.div_add_mod' n (2 ^ 128)

theorem fits_ofNat {n : ℕ} (h : n < 2 ^ 256) : (ofNat n).Fits := by
  have hhi : n / 2 ^ 128 < 2 ^ 128 := by omega
  exact ⟨hhi, Nat.mod_lt _ (by norm_num)⟩

theorem ofNat_val {u : U256} (h : u.Fits) : ofNat u.val = u := by
  have hlo := h.lo
  have hdiv : (u.hi * 2 ^ 128 + u.lo) / 2 ^ 128 = u.hi := by omega
  have hmod : (u.hi * 2 ^ 128 + u.lo) % 2 ^ 128 = u.lo := by omega
  unfold ofNat val
  rw [hdiv, hmod]

theorem ofLow_eq {a : ℕ} (h : a < 2 ^ 128) : ofLow a = ofNat a := by
  unfold ofLow ofNat
  rw [Nat.div_eq_of_lt h, Nat.mod_eq_of_lt h]

/-- A product of limbs fits. -/
theorem limb_mul {a b : ℕ} (ha : a < 2 ^ 64) (hb : b < 2 ^ 64) : a * b ≤ (2 ^ 64 - 1) * (2 ^ 64 - 1) := by
  have ha' : a ≤ 2 ^ 64 - 1 := by omega
  have hb' : b ≤ 2 ^ 64 - 1 := by omega
  exact Nat.mul_le_mul ha' hb'

/-- **The product is exact**, and no operation in it overflows. -/
theorem mul_eq {a b : ℕ} (ha : a < 2 ^ 128) (hb : b < 2 ^ 128) : mul a b = .ok (ofNat (a * b)) := by
  set a1 := a / 2 ^ 64 with ha1
  set a0 := a % 2 ^ 64 with ha0
  set b1 := b / 2 ^ 64 with hb1
  set b0 := b % 2 ^ 64 with hb0
  have h00 := @limb_mul a0 b0 (by omega) (by omega)
  have h01 := @limb_mul a0 b1 (by omega) (by omega)
  have h10 := @limb_mul a1 b0 (by omega) (by omega)
  have h11 := @limb_mul a1 b1 (by omega) (by omega)
  have hprod : a * b = a1 * b1 * 2 ^ 128 + (a0 * b1 + a1 * b0) * 2 ^ 64 + a0 * b0 := by
    have hsplit : a = a1 * 2 ^ 64 + a0 := by omega
    have hsplit' : b = b1 * 2 ^ 64 + b0 := by omega
    calc a * b = (a1 * 2 ^ 64 + a0) * (b1 * 2 ^ 64 + b0) := by rw [← hsplit, ← hsplit']
      _ = _ := by ring
  have hmid : a0 * b0 / 2 ^ 64 + a0 * b1 % 2 ^ 64 < 2 ^ 128 := by omega
  have hmid' : a0 * b0 / 2 ^ 64 + a0 * b1 % 2 ^ 64 + a1 * b0 % 2 ^ 64 < 2 ^ 128 := by omega
  unfold mul
  simp only [← ha1, ← ha0, ← hb1, ← hb0]
  rw [Checked.mul_ok (by omega), Checked.ok_bind, Checked.mul_ok (by omega), Checked.ok_bind,
    Checked.mul_ok (by omega), Checked.ok_bind, Checked.mul_ok (by omega), Checked.ok_bind,
    Checked.add_ok hmid, Checked.ok_bind, Checked.add_ok hmid', Checked.ok_bind]
  generalize a0 * b0 = p00, a0 * b1 = p01, a1 * b0 = p10, a1 * b1 = p11 at *
  set mid := p00 / 2 ^ 64 + p01 % 2 ^ 64 + p10 % 2 ^ 64 with hm
  -- the carries add up to the high half
  have hhi : p11 + p01 / 2 ^ 64 + p10 / 2 ^ 64 + mid / 2 ^ 64 = a * b / 2 ^ 128 := by omega
  have hlo : mid * 2 ^ 64 % 2 ^ 128 = mid % 2 ^ 64 * 2 ^ 64 := by omega
  have hlow : mid % 2 ^ 64 * 2 ^ 64 + p00 % 2 ^ 64 = a * b % 2 ^ 128 := by omega
  rw [Checked.add_ok (by omega), Checked.ok_bind, Checked.add_ok (by omega), Checked.ok_bind,
    Checked.add_ok (by omega), Checked.ok_bind]
  unfold ofNat Checked.shl
  rw [hlo, or_shifted (by omega), hlow, hhi]
  rfl

/-! ### The division -/

theorem pow_split {i k : ℕ} (h : i < k) : 2 ^ k = 2 ^ i * (2 ^ (k - 1 - i) * 2) := by
  rw [← pow_succ, ← pow_add]
  congr 1
  omega

theorem bit_eq {n : U256} (h : n.Fits) (i : ℕ) : n.bit i = n.val / 2 ^ i % 2 := by
  have hlo := h.lo
  unfold bit val
  by_cases hi : 128 ≤ i
  · rw [if_pos hi]
    obtain ⟨j, rfl⟩ := Nat.exists_eq_add_of_le hi
    have hdiv : (n.hi * 2 ^ 128 + n.lo) / 2 ^ 128 = n.hi := by omega
    rw [pow_add, ← Nat.div_div_eq_div_mul, hdiv, Nat.add_sub_cancel_left]
  · rw [if_neg hi, pow_split (show i < 128 by omega)]
    have hshift : n.hi * (2 ^ i * (2 ^ (128 - 1 - i) * 2)) + n.lo = 2 ^ i * (n.hi * 2 ^ (128 - 1 - i) * 2) + n.lo := by
      ring
    rw [hshift, Nat.mul_add_div (Nat.two_pow_pos i)]
    generalize n.hi * 2 ^ (128 - 1 - i) = m
    omega

/-- What the division has come to when the bits from `i` on are done. -/
structure Divided (n d i : ℕ) (s : U256 × ℕ) : Prop where
  quotient : s.1 = ofNat (n / 2 ^ i / d * 2 ^ i)
  rem : s.2 = n / 2 ^ i % d

/-- A bit set under those that are set. -/
theorem setBit_eq (m i : ℕ) : (ofNat (m * 2 ^ (i + 1))).setBit i = ofNat ((2 * m + 1) * 2 ^ i) := by
  have hsum : (2 * m + 1) * 2 ^ i = m * 2 ^ (i + 1) + 2 ^ i := by ring
  rw [hsum]
  unfold setBit ofNat
  by_cases hi : 128 ≤ i
  · rw [if_pos hi]
    obtain ⟨j, rfl⟩ := Nat.exists_eq_add_of_le hi
    have hpow : 2 ^ (128 + j) = 2 ^ j * 2 ^ 128 := by rw [pow_add]; ring
    have hpow' : m * 2 ^ (128 + j + 1) = m * 2 ^ (j + 1) * 2 ^ 128 := by rw [pow_succ, hpow, pow_succ]; ring
    have hdiv : m * 2 ^ (j + 1) * 2 ^ 128 / 2 ^ 128 = m * 2 ^ (j + 1) := Nat.mul_div_cancel _ (Nat.two_pow_pos 128)
    have hdiv' : (m * 2 ^ (j + 1) * 2 ^ 128 + 2 ^ j * 2 ^ 128) / 2 ^ 128 = m * 2 ^ (j + 1) + 2 ^ j := by
      rw [← Nat.add_mul, Nat.mul_div_cancel _ (Nat.two_pow_pos 128)]
    have hmod : m * 2 ^ (j + 1) * 2 ^ 128 % 2 ^ 128 = 0 := Nat.mul_mod_left ..
    have hmod' : (m * 2 ^ (j + 1) * 2 ^ 128 + 2 ^ j * 2 ^ 128) % 2 ^ 128 = 0 := by
      rw [← Nat.add_mul]
      exact Nat.mul_mod_left ..
    have hlt : 2 ^ j < 2 ^ (j + 1) := Nat.pow_lt_pow_right (by norm_num) (Nat.lt_succ_self j)
    rw [hpow', hpow, hdiv, hdiv', hmod, hmod', Nat.add_sub_cancel_left, Nat.or_comm, or_shifted hlt]
  · rw [if_neg hi]
    have hi' : i < 128 := by omega
    -- the set bits end above bit i in the low half too
    obtain ⟨c, hc⟩ : ∃ c, m * 2 ^ (i + 1) % 2 ^ 128 = c * 2 ^ (i + 1) := by
      rw [pow_split hi', show 2 ^ i * (2 ^ (128 - 1 - i) * 2) = 2 ^ (128 - 1 - i) * 2 ^ (i + 1) by ring,
        Nat.mul_mod_mul_right]
      exact ⟨_, rfl⟩
    have hlow : c * 2 ^ (i + 1) + 2 ^ i < 2 ^ 128 := by
      have hlt : c * 2 ^ (i + 1) < 2 ^ 128 := hc ▸ Nat.mod_lt _ (Nat.two_pow_pos 128)
      rw [pow_split hi'] at hlt ⊢
      have hcancel : 2 ^ i * (c * 2) < 2 ^ i * (2 ^ (128 - 1 - i) * 2) := by
        calc 2 ^ i * (c * 2) = c * 2 ^ (i + 1) := by ring
          _ < _ := hlt
      have hc2 : c * 2 < 2 ^ (128 - 1 - i) * 2 := Nat.lt_of_mul_lt_mul_left hcancel
      calc c * 2 ^ (i + 1) + 2 ^ i = 2 ^ i * (c * 2 + 1) := by ring
        _ < 2 ^ i * (2 ^ (128 - 1 - i) * 2) := by
          apply Nat.mul_lt_mul_of_pos_left _ (Nat.two_pow_pos i)
          omega
    have hlt : 2 ^ i < 2 ^ (i + 1) := Nat.pow_lt_pow_right (by norm_num) (Nat.lt_succ_self i)
    have hor : c * 2 ^ (i + 1) ||| 2 ^ i = c * 2 ^ (i + 1) + 2 ^ i := by rw [Nat.or_comm, or_shifted hlt]
    simp only [hc, hor]
    generalize m * 2 ^ (i + 1) = a at hc ⊢
    generalize c * 2 ^ (i + 1) = b at hc hlow ⊢
    generalize 2 ^ i = e at hlow ⊢
    have hdiv : (a + e) / 2 ^ 128 = a / 2 ^ 128 := by omega
    have hmod : (a + e) % 2 ^ 128 = b + e := by omega
    rw [hdiv, hmod]

/-- The quotient of twice as much, and one. -/
theorem div_next {m d b : ℕ} (hd : 0 < d) (hb : b < 2) :
    (2 * m + b) / d = 2 * (m / d) + (if d ≤ 2 * (m % d) + b then 1 else 0) ∧
    (2 * m + b) % d = 2 * (m % d) + b - (if d ≤ 2 * (m % d) + b then d else 0) := by
  have hr : m % d < d := Nat.mod_lt _ hd
  have hm : 2 * m + b = d * (2 * (m / d)) + (2 * (m % d) + b) := by
    have hsplit := Nat.div_add_mod m d
    calc 2 * m + b = 2 * (d * (m / d) + m % d) + b := by rw [hsplit]
      _ = _ := by ring
  rw [hm, Nat.mul_add_div hd, Nat.mul_add_mod]
  by_cases hle : d ≤ 2 * (m % d) + b
  · have hdiv : (2 * (m % d) + b) / d = 1 := by
      rw [Nat.div_eq_of_lt_le] <;> omega
    have hmod : (2 * (m % d) + b) % d = 2 * (m % d) + b - d := by
      rw [Nat.mod_eq_sub_mod hle, Nat.mod_eq_of_lt (by omega)]
    rw [if_pos hle, if_pos hle, hdiv, hmod]
    exact ⟨rfl, rfl⟩
  · have hlt : 2 * (m % d) + b < d := by omega
    rw [if_neg hle, if_neg hle, Nat.div_eq_of_lt hlt, Nat.mod_eq_of_lt hlt]
    exact ⟨rfl, rfl⟩

/-- One bit of the division. -/
theorem divided_bit {n : U256} (hn : n.Fits) {d i : ℕ} (hd : 0 < d) (hd' : d < 2 ^ 128) {s : U256 × ℕ}
    (h : Divided n.val d (i + 1) s) : Divided n.val d i (divRemBit n d s i) := by
  obtain ⟨q, rem⟩ := s
  obtain ⟨hq, hrem⟩ := h
  simp only at hq hrem
  have hnext : n.val / 2 ^ i = 2 * (n.val / 2 ^ (i + 1)) + n.bit i := by
    rw [bit_eq hn, pow_succ, ← Nat.div_div_eq_div_mul]
    omega
  have hbit : n.bit i < 2 := Nat.mod_lt _ (by norm_num)
  generalize n.val / 2 ^ (i + 1) = m at hq hrem hnext
  obtain ⟨hdiv, hmod⟩ := div_next (m := m) hd hbit
  have hr : rem < d := by
    rw [hrem]
    exact Nat.mod_lt _ hd
  rw [← hrem] at hdiv hmod
  -- the shifted remainder may lose its top bit: then it is at least the divisor
  have hshl : Checked.shl 128 rem 1 ||| n.bit i = 2 * rem % 2 ^ 128 + n.bit i := by
    unfold Checked.shl
    have heven : rem * 2 ^ 1 % 2 ^ 128 = rem % 2 ^ 127 * 2 ^ 1 := by omega
    rw [heven, Nat.or_comm, or_shifted (by omega)]
    omega
  unfold divRemBit
  simp only [hshl]
  generalize n.bit i = b at hnext hbit hdiv hmod ⊢
  by_cases hle : d ≤ 2 * rem + b
  · have htake : rem / 2 ^ 127 = 1 ∨ d ≤ 2 * rem % 2 ^ 128 + b := by omega
    rw [if_pos hle] at hdiv hmod
    rw [if_pos htake]
    constructor
    · rw [hnext, hdiv, hq]
      exact setBit_eq _ _
    · rw [hnext, hmod]
      show (2 * rem % 2 ^ 128 + b + 2 ^ 128 - d) % 2 ^ 128 = _
      omega
  · have hkeep : ¬(rem / 2 ^ 127 = 1 ∨ d ≤ 2 * rem % 2 ^ 128 + b) := by omega
    rw [if_neg hle] at hdiv hmod
    rw [if_neg hkeep]
    constructor
    · have hsame : m / d * 2 ^ (i + 1) = (2 * (m / d) + 0) * 2 ^ i := by ring
      rw [hnext, hdiv, hq, hsame]
    · rw [hnext, hmod]
      show 2 * rem % 2 ^ 128 + b = _
      omega

theorem divided_bits {n : U256} (hn : n.Fits) {d : ℕ} (hd : 0 < d) (hd' : d < 2 ^ 128) : ∀ (i : ℕ) {s : U256 × ℕ},
    i ≤ 256 → Divided n.val d i s → Divided n.val d 0 ((List.range i).reverse.foldl (divRemBit n d) s)
  | 0, _, _, h => h
  | i + 1, s, hi, h => by
    rw [List.range_succ, List.reverse_append]
    exact divided_bits hn hd hd' i (by omega) (divided_bit hn hd hd' h)

/-- **The division is exact.** -/
theorem divRem_eq {n : U256} (hn : n.Fits) {d : ℕ} (hd : d < 2 ^ 128) :
    n.divRem d = if d = 0 then Checked.none else .ok (ofNat (n.val / d), n.val % d) := by
  unfold divRem
  by_cases h0 : d = 0
  · rw [if_pos h0, if_pos h0]
  rw [if_neg h0, if_neg h0]
  have hstart : Divided n.val d 256 (⟨0, 0⟩, 0) := by
    have hzero : n.val / 2 ^ 256 = 0 := Nat.div_eq_of_lt (val_lt hn)
    constructor
    · rw [hzero, Nat.zero_div, Nat.zero_mul]
      rfl
    · rw [hzero, Nat.zero_mod]
  obtain ⟨hq, hr⟩ := divided_bits hn (Nat.pos_of_ne_zero h0) hd 256 (le_refl _) hstart
  rw [pow_zero, Nat.div_one] at hq hr
  rw [Nat.mul_one] at hq
  exact congrArg Except.ok (Prod.ext hq hr)

theorem low_ofNat (n : ℕ) : (ofNat n).low = Checked.fit 128 n := by
  unfold low ofNat Checked.fit
  by_cases h : n < 2 ^ 128
  · rw [if_pos h, Nat.div_eq_of_lt h, Nat.mod_eq_of_lt h]
    rfl
  · have hhi : n / 2 ^ 128 ≠ 0 := by omega
    rw [if_neg h, if_neg hhi]

/-- A shift by half a half: the amounts in Q64.64. -/
theorem checkedShl_eq {u : U256} (h : u.Fits) :
    u.checkedShl 64 = if u.val < 2 ^ 192 then .ok (ofNat (u.val * 2 ^ 64)) else Checked.none := by
  have hlo := h.lo
  have hcond : (128 ≤ 64 ∨ u.hi / 2 ^ (128 - 64) ≠ 0) ↔ ¬u.val < 2 ^ 192 := by
    unfold val
    omega
  unfold checkedShl
  rw [if_neg (by norm_num)]
  by_cases hv : u.val < 2 ^ 192
  · rw [if_neg (fun hc => hcond.mp hc hv), if_pos hv]
    have hhi : Checked.shl 128 u.hi 64 = u.hi * 2 ^ 64 := by
      unfold Checked.shl
      unfold val at hv
      omega
    have hor : u.hi * 2 ^ 64 ||| u.lo / 2 ^ (128 - 64) = u.hi * 2 ^ 64 + u.lo / 2 ^ 64 := by
      rw [Nat.or_comm, or_shifted (by omega)]
    rw [hhi, hor]
    unfold ofNat Checked.shl val
    have hdiv : (u.hi * 2 ^ 128 + u.lo) * 2 ^ 64 / 2 ^ 128 = u.hi * 2 ^ 64 + u.lo / 2 ^ 64 := by omega
    have hmod : (u.hi * 2 ^ 128 + u.lo) * 2 ^ 64 % 2 ^ 128 = u.lo * 2 ^ 64 % 2 ^ 128 := by omega
    rw [hdiv, hmod]
  · rw [if_pos (hcond.mpr hv), if_neg hv]

theorem checkedAdd_eq {u v : U256} (hu : u.Fits) (hv : v.Fits) :
    u.checkedAdd v = if u.val + v.val < 2 ^ 256 then .ok (ofNat (u.val + v.val)) else Checked.none := by
  obtain ⟨uhi, ulo⟩ := u
  obtain ⟨vhi, vlo⟩ := v
  obtain ⟨hu₁, hu₂⟩ := hu
  obtain ⟨hv₁, hv₂⟩ := hv
  simp only at hu₁ hu₂ hv₁ hv₂
  unfold checkedAdd Checked.checkedAdd ofNat val
  simp only
  have hdiv : (uhi * 2 ^ 128 + ulo + (vhi * 2 ^ 128 + vlo)) / 2 ^ 128 =
      uhi + vhi + (if ulo + vlo < 2 ^ 128 then 0 else 1) := by
    split <;> omega
  have hmod : (uhi * 2 ^ 128 + ulo + (vhi * 2 ^ 128 + vlo)) % 2 ^ 128 = (ulo + vlo) % 2 ^ 128 := by omega
  rw [hdiv, hmod]
  by_cases hlow : ulo + vlo < 2 ^ 128
  · rw [if_pos hlow]
    by_cases hsum : uhi + vhi < 2 ^ 128
    · rw [if_pos hsum, Checked.ok_bind, if_pos (by omega), Checked.ok_bind, if_pos (by omega)]
      rfl
    · rw [if_neg hsum, if_neg (by omega)]
      rfl
  · rw [if_neg hlow]
    by_cases hsum : uhi + vhi + 1 < 2 ^ 128
    · rw [if_pos (by omega), Checked.ok_bind, if_pos hsum, Checked.ok_bind, if_pos (by omega)]
      rfl
    · rw [if_neg (show ¬uhi * 2 ^ 128 + ulo + (vhi * 2 ^ 128 + vlo) < 2 ^ 256 by omega)]
      by_cases hfirst : uhi + vhi < 2 ^ 128
      · rw [if_pos hfirst, Checked.ok_bind, if_neg hsum]
        rfl
      · rw [if_neg hfirst]
        rfl

end U256

/-! ### The two quotients -/

theorem prod_lt {a b : ℕ} (ha : a < 2 ^ 128) (hb : b < 2 ^ 128) : a * b < 2 ^ 256 := by
  have h := Nat.mul_lt_mul'' ha hb
  norm_num at h ⊢
  exact h

theorem mulDiv_eq {a b d : ℕ} (ha : a < 2 ^ 128) (hb : b < 2 ^ 128) (hd : d < 2 ^ 128) :
    mulDiv a b d = if d = 0 then Checked.none else Checked.fit 128 (a * b / d) := by
  unfold mulDiv
  rw [U256.mul_eq ha hb, Checked.ok_bind, U256.divRem_eq (U256.fits_ofNat (prod_lt ha hb)) hd, U256.val_ofNat]
  by_cases h0 : d = 0
  · rw [if_pos h0, if_pos h0]
    rfl
  · rw [if_neg h0, if_neg h0, Checked.ok_bind]
    exact U256.low_ofNat _

/-- The ceiling is the quotient, and one more if something is left. -/
theorem ceilDiv_eq {n d : ℕ} (hd : 0 < d) : n ⌈/⌉ d = n / d + (if n % d ≠ 0 then 1 else 0) := by
  rw [Nat.ceilDiv_eq_add_pred_div]
  have hsplit := Nat.div_add_mod n d
  have hr : n % d < d := Nat.mod_lt _ hd
  have hshape : n + d - 1 = d * (n / d) + (n % d + d - 1) := by omega
  rw [hshape, Nat.mul_add_div hd]
  by_cases h0 : n % d = 0
  · have hzero : (n % d + d - 1) / d = 0 := Nat.div_eq_of_lt (by omega)
    rw [if_neg (not_not.mpr h0), hzero]
  · have hone : (n % d + d - 1) / d = 1 := by
      rw [Nat.div_eq_of_lt_le] <;> omega
    rw [if_pos h0, hone]

theorem mulDivUp_eq {a b d : ℕ} (ha : a < 2 ^ 128) (hb : b < 2 ^ 128) (hd : d < 2 ^ 128) :
    mulDivUp a b d = if d = 0 then Checked.none else Checked.fit 128 (a * b ⌈/⌉ d) := by
  unfold mulDivUp
  rw [U256.mul_eq ha hb, Checked.ok_bind, U256.divRem_eq (U256.fits_ofNat (prod_lt ha hb)) hd, U256.val_ofNat]
  by_cases h0 : d = 0
  · rw [if_pos h0, if_pos h0]
    rfl
  · rw [if_neg h0, if_neg h0, Checked.ok_bind, ceilDiv_eq (Nat.pos_of_ne_zero h0)]
    simp only [U256.low_ofNat]
    unfold Checked.fit Checked.checkedAdd
    by_cases hq : a * b / d < 2 ^ 128
    · rw [if_pos hq, Checked.ok_bind]
    · have hup : ¬a * b / d + (if a * b % d ≠ 0 then 1 else 0) < 2 ^ 128 := by omega
      rw [if_neg hq, if_neg hup]
      rfl

/-- **256-bit arithmetic is exact.** -/
theorem wide_arithmetic_exact {a b d : ℕ} (ha : a < 2 ^ 128) (hb : b < 2 ^ 128) (hd : d < 2 ^ 128) :
    (∃ p, U256.mul a b = .ok p ∧ p.Fits ∧ p.val = a * b) ∧
    (∀ n : U256, n.Fits → 0 < d → ∃ q r, n.divRem d = .ok (q, r) ∧ q.Fits ∧ n.val = q.val * d + r ∧ r < d) ∧
    (mulDiv a b d = if d = 0 ∨ 2 ^ 128 ≤ a * b / d then Checked.none else .ok (a * b / d)) ∧
    (mulDivUp a b d = if d = 0 ∨ 2 ^ 128 ≤ a * b ⌈/⌉ d then Checked.none else .ok (a * b ⌈/⌉ d)) := by
  have hfit : ∀ m, (if d = 0 then Checked.none else Checked.fit 128 m) =
      if d = 0 ∨ 2 ^ 128 ≤ m then Checked.none else .ok m := by
    intro m
    unfold Checked.fit
    by_cases h0 : d = 0
    · rw [if_pos h0, if_pos (.inl h0)]
    · by_cases hm : m < 2 ^ 128
      · rw [if_neg h0, if_pos hm, if_neg (by omega)]
      · rw [if_neg h0, if_neg hm, if_pos (by omega)]
  refine ⟨⟨_, U256.mul_eq ha hb, U256.fits_ofNat (prod_lt ha hb), U256.val_ofNat _⟩, fun n hn h0 => ?_, ?_, ?_⟩
  · have hq : n.val / d < 2 ^ 256 := (Nat.div_le_self ..).trans_lt (U256.val_lt hn)
    refine ⟨U256.ofNat (n.val / d), n.val % d, ?_, U256.fits_ofNat hq, ?_, Nat.mod_lt _ h0⟩
    · rw [U256.divRem_eq hn hd, if_neg h0.ne']
    · rw [U256.val_ofNat]
      exact (Nat.div_add_mod' n.val d).symm
  · rw [mulDiv_eq ha hb hd, hfit]
  · rw [mulDivUp_eq ha hb hd, hfit]

/-- A product of 128 bits by 128 bits, divided by its own factor. -/
theorem wide_arithmetic_exact_max :
    mulDiv (2 ^ 128 - 1) (2 ^ 128 - 1) (2 ^ 128 - 1) = .ok (2 ^ 128 - 1) := by
  have h := (wide_arithmetic_exact (a := 2 ^ 128 - 1) (b := 2 ^ 128 - 1) (d := 2 ^ 128 - 1) (by norm_num) (by norm_num)
    (by norm_num)).2.2.1
  rw [h, if_neg (by norm_num), Nat.mul_div_cancel _ (by norm_num)]

end Amm
end MobiusSearcher
