/-
# Rounding to a binary floating-point format

A format has numbers of a given precision above a least exponent, and no
largest number. `Format.round` takes a rational to the nearest number of the
format, ties to even.

Key definitions: `roundEven`, `Format`, `Format.Mem`, `Format.round`.
Key theorems: `Format.round_eq_self`, `Format.round_mem`, `Format.round_mono`,
`Format.round_error`, `Format.round_error_grid`.
-/
import Mathlib.Data.Int.Log
import Mathlib.Tactic

/-! ### To the nearest integer -/

/-- The nearest integer; of two, the even one. -/
def roundEven (q : ℚ) : ℤ :=
  if q - ⌊q⌋ < 1 / 2 then ⌊q⌋
  else if 1 / 2 < q - ⌊q⌋ then ⌊q⌋ + 1
  else if ⌊q⌋ % 2 = 0 then ⌊q⌋
  else ⌊q⌋ + 1

theorem roundEven_error (q : ℚ) : |q - roundEven q| ≤ 1 / 2 := by
  have h0 : (⌊q⌋ : ℚ) ≤ q := Int.floor_le q
  have h1 : q < ⌊q⌋ + 1 := Int.lt_floor_add_one q
  rw [abs_le]
  unfold roundEven
  split
  · constructor <;> linarith
  split
  · push_cast
    constructor <;> linarith
  split
  · constructor <;> linarith
  · push_cast
    constructor <;> linarith

/-- A tie goes to the even one. -/
theorem roundEven_tie {q : ℚ} (h : |q - roundEven q| = 1 / 2) : roundEven q % 2 = 0 := by
  have h1 : q < ⌊q⌋ + 1 := Int.lt_floor_add_one q
  have h0 : (⌊q⌋ : ℚ) ≤ q := Int.floor_le q
  unfold roundEven at h ⊢
  split at h
  · rename_i hlt
    rw [abs_of_nonneg (by linarith)] at h
    linarith
  split at h
  · rename_i hlt
    push_cast at h
    rw [abs_of_nonpos (by linarith)] at h
    linarith
  rename_i hn1 hn2
  rw [if_neg hn1, if_neg hn2]
  split
  · assumption
  · omega

/-- The nearest integer is the only one that is nearer than a half. -/
theorem roundEven_unique {q : ℚ} {n : ℤ} (h : |q - n| ≤ 1 / 2) (ht : |q - n| = 1 / 2 → n % 2 = 0) :
    roundEven q = n := by
  by_contra hne
  have hr := roundEven_error q
  -- two integers within a half of `q` are a tie, and then both are even
  have hgap : (1 : ℚ) ≤ |(roundEven q : ℚ) - n| := by
    have : (1 : ℤ) ≤ |roundEven q - n| := Int.one_le_abs (sub_ne_zero.mpr hne)
    exact_mod_cast this
  have htri : |(roundEven q : ℚ) - n| ≤ |q - roundEven q| + |q - n| := by
    rw [abs_sub_comm q (roundEven q : ℚ)]
    exact abs_sub_le _ _ _
  have h1 : |q - roundEven q| = 1 / 2 := by linarith
  have h2 : |q - n| = 1 / 2 := by linarith
  have h3 : |(roundEven q : ℚ) - n| = 1 := by linarith
  have h3' : |roundEven q - n| = 1 := by exact_mod_cast h3
  have he1 := roundEven_tie h1
  have he2 := ht h2
  rcases (abs_eq (by norm_num)).mp h3' with h | h <;> omega

@[simp] theorem roundEven_intCast (n : ℤ) : roundEven (n : ℚ) = n :=
  roundEven_unique (by simp) fun h => by simp at h

theorem roundEven_neg (q : ℚ) : roundEven (-q) = -roundEven q := by
  have habs : |-q - ((-roundEven q : ℤ) : ℚ)| = |q - roundEven q| := by
    rw [← abs_neg]
    congr 1
    push_cast
    ring
  refine roundEven_unique ?_ fun h => ?_
  · rw [habs]
    exact roundEven_error q
  · rw [habs] at h
    have := roundEven_tie h
    omega

theorem roundEven_mono {q r : ℚ} (h : q ≤ r) : roundEven q ≤ roundEven r := by
  by_contra hlt
  have hq := abs_le.mp (roundEven_error q)
  have hr := abs_le.mp (roundEven_error r)
  have hle : (roundEven r : ℚ) + 1 ≤ roundEven q := by
    have : roundEven r + 1 ≤ roundEven q := by omega
    exact_mod_cast this
  have heq : q = r := by linarith [hq.1, hr.2]
  rw [heq] at hlt
  exact hlt le_rfl

theorem roundEven_le {q : ℚ} {n : ℤ} (h : q ≤ n) : roundEven q ≤ n := by
  simpa using roundEven_mono h

theorem le_roundEven {q : ℚ} {n : ℤ} (h : (n : ℚ) ≤ q) : n ≤ roundEven q := by
  simpa using roundEven_mono h

/-! ### To a format -/

/-- Numbers with this many digits, of exponents from `emin` on. -/
structure Format where
  prec : ℕ
  emin : ℤ
  prec_pos : 0 < prec

namespace Format

variable (f : Format)

/-- A number of the format. -/
def Mem (q : ℚ) : Prop := ∃ m s : ℤ, |m| ≤ 2 ^ f.prec ∧ f.emin ≤ s ∧ q = m * 2 ^ s

/-- A multiple of the least number. -/
def OnGrid (q : ℚ) : Prop := ∃ m : ℤ, q = m * 2 ^ f.emin

/-- The exponent of the last digit of a number of this size. -/
def scale (q : ℚ) : ℤ := max (Int.log 2 |q| + 1 - f.prec) f.emin

/-- The nearest number of the format, ties to even. -/
def round (q : ℚ) : ℚ := roundEven (q / 2 ^ f.scale q) * 2 ^ f.scale q

theorem two_zpow_pos (s : ℤ) : (0 : ℚ) < 2 ^ s := zpow_pos (by norm_num) s

theorem zpow_split (a b : ℤ) : (2 : ℚ) ^ (a + b) = 2 ^ a * 2 ^ b := zpow_add₀ (by norm_num) a b

variable {f} {q r : ℚ}

theorem emin_le_scale : f.emin ≤ f.scale q := le_max_right _ _

@[simp] theorem scale_neg : f.scale (-q) = f.scale q := by simp [scale]

@[simp] theorem round_zero : f.round 0 = 0 := by
  have h : roundEven 0 = 0 := roundEven_intCast 0
  simp [round, h]

theorem round_neg : f.round (-q) = -f.round q := by
  unfold round
  rw [scale_neg, neg_div, roundEven_neg]
  push_cast
  ring

theorem log_le {s : ℤ} (hq : q ≠ 0) (h : |q| < 2 ^ s) : Int.log 2 |q| < s := by
  by_contra hle
  have h1 : ((2 : ℕ) : ℚ) ^ Int.log 2 |q| ≤ |q| := Int.zpow_log_le_self (by norm_num) (abs_pos.mpr hq)
  have h2 : (2 : ℚ) ^ s ≤ 2 ^ Int.log 2 |q| := zpow_le_zpow_right₀ (by norm_num) (by omega)
  push_cast at h1
  linarith

theorem lt_log (q : ℚ) : |q| < 2 ^ (Int.log 2 |q| + 1) := by
  have h := Int.lt_zpow_succ_log_self (by norm_num : 1 < 2) |q|
  exact_mod_cast h

theorem log_ge (hq : q ≠ 0) : (2 : ℚ) ^ Int.log 2 |q| ≤ |q| := by
  have h := Int.zpow_log_le_self (by norm_num : 1 < 2) (abs_pos.mpr hq)
  exact_mod_cast h

/-- In units of its last digit a number has `prec` digits. -/
theorem abs_lt_scale (q : ℚ) : |q| < 2 ^ (f.prec : ℤ) * 2 ^ f.scale q := by
  have hle : Int.log 2 |q| + 1 ≤ f.prec + f.scale q := by
    have := le_max_left (Int.log 2 |q| + 1 - f.prec) f.emin
    unfold scale
    omega
  calc |q| < 2 ^ (Int.log 2 |q| + 1) := lt_log q
    _ ≤ 2 ^ ((f.prec : ℤ) + f.scale q) := zpow_le_zpow_right₀ (by norm_num) hle
    _ = _ := zpow_split _ _

theorem round_of_grid {m : ℤ} (h : q = m * 2 ^ f.scale q) : f.round q = q := by
  have hdiv : q / 2 ^ f.scale q = m := by
    rw [div_eq_iff (two_zpow_pos _).ne']
    exact h
  unfold round
  rw [hdiv, roundEven_intCast]
  exact h.symm

theorem mem_of_lt {m s : ℤ} (hm : |m| < 2 ^ f.prec) (hs : f.emin ≤ s) : f.round (m * 2 ^ s) = m * 2 ^ s := by
  by_cases h0 : m = 0
  · simp [h0]
  have hne : (m : ℚ) * 2 ^ s ≠ 0 := mul_ne_zero (by exact_mod_cast h0) (two_zpow_pos s).ne'
  have hlt : |(m : ℚ) * 2 ^ s| < 2 ^ ((f.prec : ℤ) + s) := by
    rw [abs_mul, abs_of_pos (two_zpow_pos s), zpow_split]
    have : |(m : ℚ)| < 2 ^ (f.prec : ℤ) := by exact_mod_cast hm
    exact mul_lt_mul_of_pos_right this (two_zpow_pos s)
  have hlog := log_le hne hlt
  have hscale : f.scale (m * 2 ^ s) ≤ s := by
    unfold scale
    omega
  -- the last digit of the number is no higher than `s`
  obtain ⟨n, hn⟩ : ∃ n : ℕ, s = n + f.scale (m * 2 ^ s) := ⟨(s - f.scale (m * 2 ^ s)).toNat, by omega⟩
  refine round_of_grid (m := m * 2 ^ n) ?_
  calc (m : ℚ) * 2 ^ s = m * 2 ^ ((n : ℤ) + f.scale (m * 2 ^ s)) := by rw [← hn]
    _ = m * (2 ^ (n : ℤ) * 2 ^ f.scale (m * 2 ^ s)) := by rw [zpow_split]
    _ = _ := by
      push_cast
      rw [zpow_natCast]
      ring

/-- A number of the format is rounded to itself. -/
theorem round_eq_self (h : f.Mem q) : f.round q = q := by
  obtain ⟨m, s, hm, hs, rfl⟩ := h
  rcases hm.lt_or_eq with hlt | heq
  · exact mem_of_lt hlt hs
  · -- one digit more, the last of which is zero
    obtain ⟨p, hp⟩ : ∃ p, f.prec = p + 1 := ⟨f.prec - 1, by have := f.prec_pos; omega⟩
    obtain ⟨k, hk, rfl⟩ : ∃ k : ℤ, |k| < 2 ^ f.prec ∧ m = k * 2 := by
      have hpow : (0 : ℤ) < 2 ^ p := by positivity
      rw [hp, pow_succ] at heq ⊢
      rcases (abs_eq (by positivity)).mp heq with h | h
      · exact ⟨2 ^ p, by rw [abs_of_pos hpow]; linarith, h⟩
      · exact ⟨-2 ^ p, by rw [abs_neg, abs_of_pos hpow]; linarith, by rw [h]; ring⟩
    have h := mem_of_lt (s := s + 1) hk (by omega)
    have heq : ((k * 2 : ℤ) : ℚ) * 2 ^ s = k * 2 ^ (s + 1) := by
      rw [zpow_split]
      push_cast
      ring
    rw [heq]
    exact h

theorem round_mem (q : ℚ) : f.Mem (f.round q) := by
  refine ⟨roundEven (q / 2 ^ f.scale q), f.scale q, ?_, emin_le_scale, rfl⟩
  have hlt : |q / 2 ^ f.scale q| < 2 ^ f.prec := by
    rw [abs_div, abs_of_pos (two_zpow_pos _), div_lt_iff₀ (two_zpow_pos _)]
    exact_mod_cast abs_lt_scale q
  rw [abs_lt] at hlt
  rw [abs_le]
  constructor
  · refine le_roundEven ?_
    push_cast
    exact hlt.1.le
  · refine roundEven_le ?_
    push_cast
    exact hlt.2.le

@[simp] theorem round_round (q : ℚ) : f.round (f.round q) = f.round q := round_eq_self (round_mem q)

/-! ### Order -/

theorem round_nonneg (h : 0 ≤ q) : 0 ≤ f.round q := by
  unfold round
  have h0 : (0 : ℤ) ≤ roundEven (q / 2 ^ f.scale q) :=
    le_roundEven (by push_cast; exact div_nonneg h (two_zpow_pos _).le)
  exact mul_nonneg (by exact_mod_cast h0) (two_zpow_pos _).le

theorem scale_mono (h0 : 0 < q) (h : q ≤ r) : f.scale q ≤ f.scale r := by
  unfold scale
  rw [abs_of_pos h0, abs_of_pos (h0.trans_le h)]
  have := Int.log_mono_right (b := 2) h0 h
  omega

theorem round_mono_pos (h0 : 0 < q) (h : q ≤ r) : f.round q ≤ f.round r := by
  have hr0 : 0 < r := h0.trans_le h
  rcases (scale_mono (f := f) h0 h).lt_or_eq with hlt | heq
  swap
  · unfold round
    rw [heq]
    have hd : q / 2 ^ f.scale r ≤ r / 2 ^ f.scale r := div_le_div_of_nonneg_right h (two_zpow_pos _).le
    have := roundEven_mono hd
    exact mul_le_mul_of_nonneg_right (by exact_mod_cast this) (two_zpow_pos _).le
  · -- a power of two lies between the two
    obtain ⟨p, hp⟩ : ∃ p, f.prec = p + 1 := ⟨f.prec - 1, by have := f.prec_pos; omega⟩
    have hs : f.scale r = Int.log 2 |r| + 1 - f.prec := by
      have h1 := emin_le_scale (f := f) (q := q)
      unfold scale at hlt h1 ⊢
      omega
    have hlow : f.round q ≤ 2 ^ ((f.prec : ℤ) + f.scale q) := by
      rw [zpow_split]
      have hm : roundEven (q / 2 ^ f.scale q) ≤ 2 ^ f.prec := by
        refine roundEven_le ?_
        rw [div_le_iff₀ (two_zpow_pos _)]
        have := abs_lt_scale (f := f) q
        rw [abs_of_pos h0] at this
        exact_mod_cast this.le
      unfold round
      exact mul_le_mul_of_nonneg_right (by exact_mod_cast hm) (two_zpow_pos _).le
    have hhigh : (2 : ℚ) ^ ((p : ℤ) + f.scale r) ≤ f.round r := by
      rw [zpow_split]
      have hm : (2 : ℤ) ^ p ≤ roundEven (r / 2 ^ f.scale r) := by
        refine le_roundEven ?_
        rw [le_div_iff₀ (two_zpow_pos _)]
        have h1 := log_ge hr0.ne'
        have h2 : Int.log 2 |r| = p + f.scale r := by omega
        rw [h2, zpow_split, abs_of_pos hr0] at h1
        exact_mod_cast h1
      unfold round
      exact mul_le_mul_of_nonneg_right (by exact_mod_cast hm) (two_zpow_pos _).le
    calc f.round q ≤ 2 ^ ((f.prec : ℤ) + f.scale q) := hlow
      _ ≤ 2 ^ ((p : ℤ) + f.scale r) := zpow_le_zpow_right₀ (by norm_num) (by omega)
      _ ≤ f.round r := hhigh

/-- Rounding keeps the order. -/
theorem round_mono (h : q ≤ r) : f.round q ≤ f.round r := by
  rcases lt_trichotomy 0 q with h0 | h0 | h0
  · exact round_mono_pos h0 h
  · rw [← h0, round_zero]
    exact round_nonneg (h0 ▸ h)
  rcases lt_or_ge r 0 with hr | hr
  · have := round_mono_pos (f := f) (neg_pos.mpr hr) (neg_le_neg h)
    rw [round_neg, round_neg] at this
    linarith
  · have h1 := round_nonneg (f := f) (neg_nonneg.mpr h0.le)
    rw [round_neg] at h1
    have h2 := round_nonneg (f := f) hr
    linarith

theorem le_round (hq : f.Mem q) (h : q ≤ r) : q ≤ f.round r := by
  have := round_mono (f := f) h
  rwa [round_eq_self hq] at this

theorem round_le (hr : f.Mem r) (h : q ≤ r) : f.round q ≤ r := by
  have := round_mono (f := f) h
  rwa [round_eq_self hr] at this

theorem lt_of_round_lt (hr : f.Mem r) (h : f.round q < r) : q < r := by
  by_contra hle
  exact absurd (le_round hr (not_lt.mp hle)) (not_le.mpr h)

theorem lt_of_lt_round (hq : f.Mem q) (h : q < f.round r) : q < r := by
  by_contra hle
  exact absurd (round_le hq (not_lt.mp hle)) (not_le.mpr h)

/-! ### Error -/

theorem round_half_ulp (q : ℚ) : |f.round q - q| ≤ 2 ^ f.scale q / 2 := by
  have h := roundEven_error (q / 2 ^ f.scale q)
  have heq : f.round q - q = -((q / 2 ^ f.scale q - roundEven (q / 2 ^ f.scale q)) * 2 ^ f.scale q) := by
    unfold round
    rw [sub_mul, div_mul_cancel₀ _ (two_zpow_pos _).ne']
    ring
  rw [heq, abs_neg, abs_mul, abs_of_pos (two_zpow_pos _)]
  have := mul_le_mul_of_nonneg_right h (two_zpow_pos (f.scale q)).le
  linarith

variable (f) in
/-- Half a unit in the last of `prec` digits, as a share. -/
def unit : ℚ := 1 / 2 ^ f.prec

variable (f) in
/-- Half the least number. -/
def least : ℚ := 2 ^ f.emin / 2

theorem unit_pos : 0 < f.unit := by
  unfold unit
  positivity

theorem least_pos : 0 < f.least := div_pos (two_zpow_pos _) (by norm_num)

theorem half_ulp_eq (h : f.scale q = Int.log 2 |q| + 1 - f.prec) :
    (2 : ℚ) ^ f.scale q / 2 = f.unit * 2 ^ Int.log 2 |q| := by
  have hs : Int.log 2 |q| = f.scale q + (f.prec : ℤ) + (-1) := by omega
  rw [hs, zpow_split, zpow_split, zpow_natCast, zpow_neg_one]
  unfold unit
  field_simp

/-- Above the least exponent the error is a share of the number. -/
theorem round_error_normal (hq : q ≠ 0) (h : f.scale q = Int.log 2 |q| + 1 - f.prec) :
    |f.round q - q| ≤ f.unit * |q| ∧ |f.round q - q| ≤ f.unit * |f.round q| := by
  have herr := round_half_ulp (f := f) q
  rw [half_ulp_eq h] at herr
  have hlog := log_ge hq
  have hmem : f.Mem (2 ^ Int.log 2 |q|) := by
    obtain ⟨p, hp⟩ : ∃ p, f.prec = p + 1 := ⟨f.prec - 1, by have := f.prec_pos; omega⟩
    refine ⟨2 ^ p, f.scale q, ?_, emin_le_scale, ?_⟩
    · rw [abs_of_pos (by positivity), hp]
      exact pow_le_pow_right₀ (by norm_num) (by omega)
    · have hs : Int.log 2 |q| = (p : ℤ) + f.scale q := by omega
      rw [hs, zpow_split, zpow_natCast]
      push_cast
      ring
  have hround : (2 : ℚ) ^ Int.log 2 |q| ≤ |f.round q| := by
    rcases lt_or_gt_of_ne hq with hneg | hpos
    · rw [abs_of_neg hneg] at hlog hmem ⊢
      have := le_round hmem hlog
      rw [round_neg] at this
      exact this.trans (neg_le_abs _)
    · rw [abs_of_pos hpos] at hlog hmem ⊢
      exact (le_round hmem hlog).trans (le_abs_self _)
  exact ⟨herr.trans (mul_le_mul_of_nonneg_left hlog unit_pos.le),
    herr.trans (mul_le_mul_of_nonneg_left hround unit_pos.le)⟩

theorem scale_cases (q : ℚ) : f.scale q = Int.log 2 |q| + 1 - f.prec ∨ f.scale q = f.emin := by
  unfold scale
  omega

/-- The error of a multiple of the least number is a share of it, and of what it is rounded to. -/
theorem round_error_grid (hg : f.OnGrid q) :
    |f.round q - q| ≤ f.unit * |q| ∧ |f.round q - q| ≤ f.unit * |f.round q| := by
  by_cases hq : q = 0
  · simp [hq]
  rcases scale_cases (f := f) q with h | h
  · exact round_error_normal hq h
  · obtain ⟨m, hm⟩ := hg
    rw [← h] at hm
    rw [round_of_grid hm, sub_self, abs_zero]
    have : 0 ≤ f.unit * |q| := mul_nonneg unit_pos.le (abs_nonneg q)
    exact ⟨this, this⟩

/-- The error is a share of the number and half the least number. -/
theorem round_error (q : ℚ) : |f.round q - q| ≤ f.unit * |q| + f.least := by
  by_cases hq : q = 0
  · simp [hq, least_pos.le]
  rcases scale_cases (f := f) q with h | h
  · exact (round_error_normal hq h).1.trans (le_add_of_nonneg_right least_pos.le)
  · have := round_half_ulp (f := f) q
    rw [h] at this
    exact this.trans (le_add_of_nonneg_left (mul_nonneg unit_pos.le (abs_nonneg q)))

/-- Upwards, a multiple of the least number is rounded by a share of it. -/
theorem round_le_grid (hg : f.OnGrid q) (h0 : 0 ≤ q) : f.round q ≤ (1 + f.unit) * q := by
  have herr := (abs_le.mp (round_error_grid hg).1).2
  rw [abs_of_nonneg h0] at herr
  linarith

/-- Upwards, any number is rounded by a share of it and half the least number. -/
theorem round_le_least (h0 : 0 ≤ q) : f.round q ≤ (1 + f.unit) * q + f.least := by
  have herr := (abs_le.mp (round_error (f := f) q)).2
  rw [abs_of_nonneg h0] at herr
  linarith

/-! ### Multiples of the least number -/

theorem Mem.onGrid (h : f.Mem q) : f.OnGrid q := by
  obtain ⟨m, s, -, hs, rfl⟩ := h
  obtain ⟨n, rfl⟩ : ∃ n : ℕ, s = n + f.emin := ⟨(s - f.emin).toNat, by omega⟩
  refine ⟨m * 2 ^ n, ?_⟩
  rw [zpow_split, zpow_natCast]
  push_cast
  ring

theorem OnGrid.add (hq : f.OnGrid q) (hr : f.OnGrid r) : f.OnGrid (q + r) := by
  obtain ⟨m, rfl⟩ := hq
  obtain ⟨n, rfl⟩ := hr
  exact ⟨m + n, by push_cast; ring⟩

theorem OnGrid.neg (hq : f.OnGrid q) : f.OnGrid (-q) := by
  obtain ⟨m, rfl⟩ := hq
  exact ⟨-m, by push_cast; ring⟩

theorem Mem.neg (h : f.Mem q) : f.Mem (-q) := by
  obtain ⟨m, s, hm, hs, rfl⟩ := h
  exact ⟨-m, s, by rwa [abs_neg], hs, by push_cast; ring⟩

theorem zero_mem : f.Mem 0 := ⟨0, f.emin, by simp, le_rfl, by simp⟩

end Format
