/-
# Decimal amounts

`parse_decimal` and `format_atoms` of `crates/core/src/units.rs`: amounts of a
token in its smallest unit, read from and written as decimals. A text is read
as the decimal it is between its white space, and read exactly or not at all.
A power or a product that leaves its type panics, as in a build with overflow
checks.

Key definitions: `halves`, `parseDecimal`, `formatAtoms`, `IsDecimal`.
Key theorems: `isDecimal_iff`, `IsDecimal.unique`, `parseDecimal_sound`,
`parseDecimal_complete`, `formatAtoms_isDecimal`.
-/
import MobiusSearcher.Lib.Checked
import MobiusSearcher.Lib.Text

namespace MobiusSearcher

open Text

/-! ### Reading -/

/-- What stands before the first point and what behind it; nothing is, where there is no point. -/
def halves (s : List Char) : List Char × List Char := (splitOnce '.' s).getD (s, [])

/-- `str::parse` of an unsigned type of `w` bits, on digits only. -/
def parseUnsigned (w : ℕ) (digits : List Char) : Except String ℕ :=
  if digits.isEmpty then .error "cannot parse integer from empty string"
  else if number digits < 2 ^ w then .ok (number digits)
  else .error "number too large to fit in target type"

/-- `str::parse::<i64>`, behind its sign. -/
def parseDigits (sign : ℤ) (digits : List Char) : Option ℤ :=
  if digits.isEmpty || !digits.all Char.isDigit then none
  else if -2 ^ 63 ≤ sign * number digits ∧ sign * number digits < 2 ^ 63 then some (sign * number digits)
  else none

def parseI64 : List Char → Option ℤ
  | '-' :: digits => parseDigits (-1) digits
  | '+' :: digits => parseDigits 1 digits
  | digits => parseDigits 1 digits

/-- A result of `u128` arithmetic. -/
def arithmetic (x : ℕ) : Except Unread ℕ := if x < 2 ^ 128 then .ok x else .error .panic

/-- Half of a decimal, as a number: nothing is zero. -/
def readHalf (digits : List Char) : Except Unread ℕ :=
  if digits.isEmpty then .ok 0 else (parseUnsigned 128 digits).mapError Unread.format

/-- The halves of a decimal, scaled; `s` is the text they are halves of. -/
def scaleHalves (s : List Char) (int frac : List Char) (decimals : ℕ) : Except Unread ℕ := do
  let scale ← arithmetic (10 ^ decimals)
  let intV ← readHalf int
  let fracV ← readHalf frac
  let fracV ← arithmetic (fracV * (← arithmetic (10 ^ (decimals - frac.length))))
  if 2 ^ 128 ≤ intV * scale + fracV then .error (.format ("`" ++ String.ofList s ++ "` overflows"))
  else if 2 ^ 64 ≤ intV * scale + fracV then .error (.format ("`" ++ String.ofList s ++ "` overflows u64"))
  else .ok (intV * scale + fracV)

/-- Parse a non-negative decimal string into an integer with `decimals`
fractional digits, without going through floats. -/
def parseDecimal (s : List Char) (decimals : ℕ) : Except Unread ℕ :=
  let s := trim s
  if s.isEmpty then .error (.format "empty decimal")
  else
    let (int, frac) := halves s
    if !int.all Char.isDigit || !frac.all Char.isDigit then
      .error (.format ("invalid decimal `" ++ String.ofList s ++ "`"))
    else if decimals < frac.length then
      .error (.format ("`" ++ String.ofList s ++ "` has more than " ++ toString decimals ++ " fractional digits"))
    else scaleHalves s int frac decimals

/-! ### Writing -/

/-- `{:0width$}` of a number. -/
def padded (width n : ℕ) : List Char := (Nat.toDigits 10 n).leftpad width '0'

/-- Atoms as a decimal token amount with up to `maxFrac` digits. -/
def formatAtoms (atoms : ℤ) (decimals maxFrac : ℕ) : Checked (List Char) := do
  let a := atoms.natAbs
  let scale ← Checked.pow 128 10 decimals
  let int := Nat.toDigits 10 (a / scale)
  let frac := (padded decimals (a % scale)).take (min maxFrac decimals)
  let sign := if atoms < 0 then ['-'] else []
  pure (if frac.isEmpty then sign ++ int else sign ++ int ++ '.' :: frac)

/-! ### Decimals -/

/-- The text is a decimal: digits around at most one point, no more than `d`
behind it, and at least one in all; and `v` of its smallest unit, the `d`th
digit behind the point, is the same number. -/
def IsDecimal (s : List Char) (d v : ℕ) : Prop :=
  ∃ whole part : List Char, (s = whole ++ '.' :: part ∨ s = whole ∧ part = []) ∧
    (∀ c ∈ whole ++ part, c.isDigit = true) ∧ whole ++ part ≠ [] ∧ part.length ≤ d ∧
    v * 10 ^ part.length = number (whole ++ part) * 10 ^ d

section Decimals

variable {s w p : List Char} {d v v' : ℕ}

theorem point_not_digit {w : List Char} (h : ∀ c ∈ w, c.isDigit = true) : '.' ∉ w := fun hm =>
  absurd (h _ hm) (by decide)

theorem halves_append (h : '.' ∉ w) : halves (w ++ '.' :: p) = (w, p) := by simp [halves, splitOnce_append h]

theorem halves_none (h : '.' ∉ w) : halves w = (w, []) := by simp [halves, splitOnce_none h]

theorem eq_of_halves (s : List Char) :
    s = (halves s).1 ++ '.' :: (halves s).2 ∨ s = (halves s).1 ∧ (halves s).2 = [] := by
  unfold halves
  cases h : splitOnce '.' s with
  | none => exact .inr ⟨rfl, rfl⟩
  | some r => exact .inl (splitOnce_eq_some h)

/-- What the halves stand for in units of the `d`th digit behind the point. -/
def worth (w p : List Char) (d : ℕ) : ℕ := number w * 10 ^ d + number p * 10 ^ (d - p.length)

theorem worth_mul (h : p.length ≤ d) : worth w p d * 10 ^ p.length = number (w ++ p) * 10 ^ d := by
  have hpow : 10 ^ (d - p.length) * 10 ^ p.length = 10 ^ d := by rw [← pow_add, Nat.sub_add_cancel h]
  calc worth w p d * 10 ^ p.length
      = number w * 10 ^ p.length * 10 ^ d + number p * (10 ^ (d - p.length) * 10 ^ p.length) := by
        unfold worth
        ring
    _ = number (w ++ p) * 10 ^ d := by
        rw [hpow, number_append]
        ring

/-- A text is read at its first point. -/
theorem isDecimal_iff : IsDecimal s d v ↔
    (∀ c ∈ (halves s).1, c.isDigit = true) ∧ (∀ c ∈ (halves s).2, c.isDigit = true) ∧
      (halves s).1 ++ (halves s).2 ≠ [] ∧ (halves s).2.length ≤ d ∧ v = worth (halves s).1 (halves s).2 d := by
  constructor
  · rintro ⟨w, p, hs, hdigit, hne, hlen, hv⟩
    rw [List.forall_mem_append] at hdigit
    have hpoint := point_not_digit hdigit.1
    have hhalves : halves s = (w, p) := by
      rcases hs with rfl | ⟨rfl, rfl⟩
      · exact halves_append hpoint
      · exact halves_none hpoint
    rw [hhalves]
    refine ⟨hdigit.1, hdigit.2, hne, hlen, ?_⟩
    rw [← worth_mul hlen] at hv
    exact Nat.eq_of_mul_eq_mul_right (by positivity) hv
  · rintro ⟨hw, hp, hne, hlen, rfl⟩
    exact ⟨_, _, eq_of_halves s, List.forall_mem_append.mpr ⟨hw, hp⟩, hne, hlen, worth_mul hlen⟩

/-- A decimal has one value. -/
theorem IsDecimal.unique (h : IsDecimal s d v) (h' : IsDecimal s d v') : v = v' := by
  rw [isDecimal_iff] at h h'
  rw [h.2.2.2.2, h'.2.2.2.2]

/-- Halves of digits are a decimal unless the text is but a point. -/
theorem halves_ne_nil (h : s ≠ []) (hpoint : s ≠ ['.']) : (halves s).1 ++ (halves s).2 ≠ [] := by
  intro hnil
  obtain ⟨h₁, h₂⟩ := List.append_eq_nil_iff.mp hnil
  rcases eq_of_halves s with he | ⟨he, -⟩
  · exact hpoint (by rw [he, h₁, h₂, List.nil_append])
  · exact h (he.trans h₁)

end Decimals

/-! ### What is read -/

section Reading

variable {s w p : List Char} {d v n : ℕ}

theorem readHalf_eq (w : List Char) : readHalf w =
    if number w < 2 ^ 128 then .ok (number w) else .error (.format "number too large to fit in target type") := by
  unfold readHalf parseUnsigned
  cases w with
  | nil => rfl
  | cons c w =>
    simp only [List.isEmpty_cons, Bool.false_eq_true, if_false]
    split <;> rfl

theorem arithmetic_ok {x : ℕ} (h : x < 2 ^ 128) : arithmetic x = .ok x := if_pos h

theorem pow_ten_lt (h : d ≤ 38) : 10 ^ d < 2 ^ 128 :=
  calc 10 ^ d ≤ 10 ^ 38 := Nat.pow_le_pow_right (by decide) h
    _ < 2 ^ 128 := by norm_num

/-- A fraction is less than one. -/
theorem fraction_lt (hp : ∀ c ∈ p, c.isDigit = true) (hlen : p.length ≤ d) :
    number p * 10 ^ (d - p.length) < 10 ^ d :=
  calc number p * 10 ^ (d - p.length) < 10 ^ p.length * 10 ^ (d - p.length) :=
        Nat.mul_lt_mul_of_pos_right (number_lt hp) (by positivity)
    _ = 10 ^ d := by rw [← pow_add, Nat.add_sub_cancel' hlen]

/-- The halves are scaled to what they are worth, where it fits. -/
theorem scaleHalves_eq (s w : List Char) (hp : ∀ c ∈ p, c.isDigit = true) (hlen : p.length ≤ d) (hd : d ≤ 38) :
    ∃ e, scaleHalves s w p d = if worth w p d < 2 ^ 64 then .ok (worth w p d) else .error (.format e) := by
  have hfrac := (fraction_lt hp hlen).trans (pow_ten_lt hd)
  have hp128 : number p < 2 ^ 128 := (Nat.le_mul_of_pos_right _ (by positivity)).trans_lt hfrac
  have hscale : 10 ^ (d - p.length) < 2 ^ 128 := pow_ten_lt ((Nat.sub_le ..).trans hd)
  unfold scaleHalves
  rw [readHalf_eq w, readHalf_eq p, if_pos hp128, arithmetic_ok (pow_ten_lt hd), arithmetic_ok hscale]
  by_cases hw : number w < 2 ^ 128
  · rw [if_pos hw]
    simp only [bind, Except.bind, arithmetic_ok hfrac]
    change ∃ e, (if 2 ^ 128 ≤ worth w p d then _ else if 2 ^ 64 ≤ worth w p d then _ else _) = _
    by_cases h128 : 2 ^ 128 ≤ worth w p d
    · exact ⟨_, by rw [if_pos h128, if_neg (by omega)]⟩
    · by_cases h64 : 2 ^ 64 ≤ worth w p d
      · exact ⟨_, by rw [if_neg h128, if_pos h64, if_neg (by omega)]⟩
      · refine ⟨"", ?_⟩
        rw [if_neg h128, if_neg h64, if_pos (by omega)]
        rfl
  · rw [if_neg hw]
    have hbig : ¬worth w p d < 2 ^ 64 := by
      have hle : number w ≤ number w * 10 ^ d := Nat.le_mul_of_pos_right _ (by positivity)
      unfold worth
      omega
    exact ⟨_, by rw [if_neg hbig]; rfl⟩

/-- **What `parse_decimal` reads.** It gives what the text between the white space
is worth, where that is a decimal that fits, and otherwise says why not. -/
theorem parseDecimal_cases (s : List Char) (hd : d ≤ 38) (hpoint : trim s ≠ ['.']) :
    (∃ v, parseDecimal s d = .ok v ∧ IsDecimal (trim s) d v ∧ v < 2 ^ 64) ∨
      (∃ e, parseDecimal s d = .error (.format e)) ∧ ∀ v, IsDecimal (trim s) d v → 2 ^ 64 ≤ v := by
  unfold parseDecimal
  generalize trim s = t at hpoint
  by_cases hnil : t = []
  · subst hnil
    refine .inr ⟨⟨_, rfl⟩, fun v h => ?_⟩
    exact absurd (isDecimal_iff.mp h).2.2.1 (by simp [halves, splitOnce])
  have hne := halves_ne_nil hnil hpoint
  simp only [List.isEmpty_iff, hnil, if_false]
  by_cases hdigit : (!(halves t).1.all Char.isDigit || !(halves t).2.all Char.isDigit) = true
  · rw [if_pos hdigit]
    refine .inr ⟨⟨_, rfl⟩, fun v h => ?_⟩
    have h' := isDecimal_iff.mp h
    rw [List.all_eq_true.mpr h'.1, List.all_eq_true.mpr h'.2.1] at hdigit
    exact absurd hdigit (by decide)
  rw [if_neg hdigit]
  simp only [Bool.or_eq_true, Bool.not_eq_true', not_or, Bool.not_eq_false, List.all_eq_true] at hdigit
  by_cases hlen : d < (halves t).2.length
  · rw [if_pos hlen]
    exact .inr ⟨⟨_, rfl⟩, fun v h => absurd (isDecimal_iff.mp h).2.2.2.1 (by omega)⟩
  rw [if_neg hlen]
  obtain ⟨e, he⟩ := scaleHalves_eq t (halves t).1 hdigit.2 (not_lt.mp hlen) hd
  rw [he]
  by_cases h64 : worth (halves t).1 (halves t).2 d < 2 ^ 64
  · rw [if_pos h64]
    exact .inl ⟨_, rfl, isDecimal_iff.mpr ⟨hdigit.1, hdigit.2, hne, not_lt.mp hlen, rfl⟩, h64⟩
  · rw [if_neg h64]
    exact .inr ⟨⟨e, rfl⟩, fun v h => (isDecimal_iff.mp h).2.2.2.2 ▸ not_lt.mp h64⟩

/-- No power of ten past the 38th fits. -/
theorem parseDecimal_range (h : parseDecimal s d = .ok v) : d ≤ 38 := by
  by_contra hd
  have hpow : ¬10 ^ d < 2 ^ 128 := by
    have hle : 10 ^ 39 ≤ 10 ^ d := Nat.pow_le_pow_right (by decide) (by omega)
    omega
  unfold parseDecimal scaleHalves arithmetic at h
  simp only [hpow, if_false] at h
  split at h
  · exact absurd h (by simp)
  split at h
  · exact absurd h (by simp)
  split at h <;> exact absurd h (by simp [bind, Except.bind])

/-- Whatever is read is its exact value. -/
theorem parseDecimal_sound (hpoint : trim s ≠ ['.']) (h : parseDecimal s d = .ok v) :
    IsDecimal (trim s) d v ∧ v < 2 ^ 64 := by
  rcases parseDecimal_cases s (parseDecimal_range h) hpoint with ⟨v', h', hdec, hlt⟩ | ⟨⟨e, h'⟩, -⟩
  · obtain rfl := Except.ok.inj (h'.symm.trans h)
    exact ⟨hdec, hlt⟩
  · exact absurd (h'.symm.trans h) (by simp)

theorem not_isDecimal_point : ¬IsDecimal ['.'] d v := fun h =>
  (isDecimal_iff.mp h).2.2.1 (by simp [halves, splitOnce])

theorem parseDecimal_complete (hd : d ≤ 38) (h : IsDecimal (trim s) d v) (hv : v < 2 ^ 64) :
    parseDecimal s d = .ok v := by
  have hpoint : trim s ≠ ['.'] := fun he => not_isDecimal_point (he ▸ h)
  rcases parseDecimal_cases s hd hpoint with ⟨v', h', hdec, -⟩ | ⟨-, hbig⟩
  · rw [h', hdec.unique h]
  · exact absurd (hbig v h) (not_le.mpr hv)

theorem parseDecimal_ne_panic (hd : d ≤ 38) (hpoint : trim s ≠ ['.']) : parseDecimal s d ≠ .error .panic := by
  rcases parseDecimal_cases s hd hpoint with ⟨v, h, -⟩ | ⟨⟨e, h⟩, -⟩
  · rw [h]
    exact nofun
  · rw [h]
    simp

end Reading

/-! ### What is written -/

section Writing

variable {n d : ℕ}

theorem padded_digit (width n : ℕ) : ∀ c ∈ padded width n, c.isDigit = true := by
  intro c hc
  unfold padded List.leftpad at hc
  rcases List.mem_append.mp hc with hc | hc
  · rw [(List.mem_replicate.mp hc).2]
    rfl
  · exact Nat.isDigit_of_mem_toDigits (by decide) (by decide) hc

theorem number_padded (width n : ℕ) : number (padded width n) = n := by
  unfold padded List.leftpad
  rw [number_append, number_replicate, number_toDigits, Nat.zero_mul, Nat.zero_add]

theorem padded_ne_nil (width n : ℕ) : padded width n ≠ [] := fun h => by
  unfold padded List.leftpad at h
  exact Nat.toDigits_ne_nil (List.append_eq_nil_iff.mp h).2

theorem length_padded (h : n < 10 ^ d) (hd : 0 < d) : (padded d n).length = d := by
  unfold padded
  rw [List.length_leftpad]
  exact max_eq_left ((Nat.length_toDigits_le_iff (by decide) hd).mpr h)

/-- A decimal has no white space. -/
theorem IsDecimal.trim {s : List Char} {v : ℕ} (h : IsDecimal s d v) : trim s = s := by
  obtain ⟨w, p, hs, hdigit, -⟩ := h
  rw [List.forall_mem_append] at hdigit
  refine trim_eq_self fun c hc => ?_
  have hcases : c ∈ w ∨ c = '.' ∨ c ∈ p := by
    rcases hs with rfl | ⟨rfl, rfl⟩
    · simpa using hc
    · exact .inl hc
  rcases hcases with hw | rfl | hp
  · exact isWhitespace_digit (hdigit.1 c hw)
  · decide
  · exact isWhitespace_digit (hdigit.2 c hp)

/-- Written with all its digits, an amount is a decimal that is worth it. -/
theorem formatAtoms_isDecimal (n : ℕ) (hd : d ≤ 38) : ∃ r, formatAtoms n d d = .ok r ∧ IsDecimal r d n := by
  have hpow : Checked.pow 128 10 d = .ok (10 ^ d) := if_pos (pow_ten_lt hd)
  have hint := fun c (hc : c ∈ Nat.toDigits 10 (n / 10 ^ d)) => Nat.isDigit_of_mem_toDigits (by decide) (by decide) hc
  have hsign : ¬(n : ℤ) < 0 := not_lt.mpr (Int.natCast_nonneg n)
  unfold formatAtoms
  rw [hpow]
  simp only [Checked.ok_bind, Checked.pure_eq_ok, Int.natAbs_natCast, if_neg hsign, List.nil_append, min_self]
  refine ⟨_, rfl, ?_⟩
  rcases Nat.eq_zero_or_pos d with rfl | hpos
  · refine ⟨_, [], .inr ⟨rfl, rfl⟩, ?_, ?_, le_rfl, ?_⟩
    · simpa using hint
    · simp
    · simp
  · have hmod : n % 10 ^ d < 10 ^ d := Nat.mod_lt _ (by positivity)
    have hlen := length_padded hmod hpos
    have htake : (padded d (n % 10 ^ d)).take d = padded d (n % 10 ^ d) := List.take_of_length_le hlen.le
    have hne : (padded d (n % 10 ^ d)).isEmpty = false := by
      rw [List.isEmpty_eq_false_iff, ← List.length_pos_iff, hlen]
      exact hpos
    simp only [htake, hne, Bool.false_eq_true, if_false]
    refine ⟨_, _, .inl rfl, List.forall_mem_append.mpr ⟨hint, padded_digit d _⟩, ?_, hlen.le, ?_⟩
    · simp [Nat.toDigits_ne_nil]
    · rw [number_append, number_toDigits, number_padded, hlen, Nat.div_add_mod']

end Writing

end MobiusSearcher
