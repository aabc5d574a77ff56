/-
# One reading of an amount

The wallet page reads the amount of a transfer with `atoms`, the rest of the
program with `parse_decimal`, and both write it with `format_atoms`. An amount
is a decimal (`IsDecimal`): each of the two readers takes the decimals that fit
64 bits and no other text, for what they are worth, so that they agree. The
white space around an amount is no part of it: `parse_decimal` takes it off
itself, and the page before it asks `atoms`.

A lone point, which the page refuses, is left aside, as is what is refused of an amount
of so many decimals that a power of ten leaves its type.

Key theorems: `Purse.atoms_sound`, `Purse.atoms_complete`, `Purse.amounts_agree`.
-/
import MobiusSearcher.Purse.Check

namespace MobiusSearcher
namespace Purse

open Text

variable {s : List Char} {d v : ℕ}

theorem pow_ten_lt (h : d ≤ 19) : 10 ^ d < 2 ^ 64 :=
  calc 10 ^ d ≤ 10 ^ 19 := Nat.pow_le_pow_right (by decide) h
    _ < 2 ^ 64 := by norm_num

theorem parseUnsigned_toOption {w : List Char} (h : w ≠ []) :
    (parseUnsigned 64 w).toOption = if number w < 2 ^ 64 then some (number w) else none := by
  unfold parseUnsigned
  simp only [List.isEmpty_iff, h, if_false]
  split <;> rfl

theorem number_rightpad (d : ℕ) (p : List Char) : number (p.rightpad d '0') = number p * 10 ^ (d - p.length) := by
  unfold List.rightpad
  rw [number_append, number_replicate, List.length_replicate, Nat.add_zero]

/-- In no other decimals is anything read: with none at all the page has no text to
read behind the point, with more than 19 the power of ten leaves its type. -/
theorem atoms_range (h : atoms s d = .ok v) : 1 ≤ d ∧ d ≤ 19 := by
  unfold atoms scaleParts at h
  simp only at h
  split at h
  · exact absurd h Checked.none_ne_ok
  rename_i hgood
  simp only [Bool.or_eq_true, decide_eq_true_eq, not_or, not_lt] at hgood
  obtain ⟨whole, -, h⟩ := Checked.bind_eq_ok.mp h
  obtain ⟨part, hpart, h⟩ := Checked.bind_eq_ok.mp h
  obtain ⟨scale, hscale, -⟩ := Checked.bind_eq_ok.mp h
  constructor
  · by_contra hzero
    obtain rfl : d = 0 := by omega
    have hnil : (halves s).2 = [] := List.length_eq_zero_iff.mp (Nat.le_zero.mp hgood.2)
    rw [hnil] at hpart
    exact absurd hpart Checked.none_ne_ok
  · by_contra hbig
    have hle : 10 ^ 20 ≤ 10 ^ d := Nat.pow_le_pow_right (by decide) (by omega)
    have hlt := (Checked.pow_eq_ok.mp hscale).1
    omega

theorem readWhole_eq (w : List Char) : readWhole w = if number w < 2 ^ 64 then .ok (number w) else .none := by
  unfold readWhole
  cases w with
  | nil => rfl
  | cons c w =>
    rw [parseUnsigned_toOption (List.cons_ne_nil c w)]
    simp only [List.isEmpty_cons, Bool.false_eq_true, if_false]
    split <;> rfl

/-- The parts are scaled to what they are worth, where it fits. -/
theorem scaleParts_eq (w : List Char) {p : List Char} (hp : ∀ c ∈ p, c.isDigit = true) (hlen : p.length ≤ d)
    (h1 : 1 ≤ d) (h19 : d ≤ 19) :
    scaleParts w p d = if worth w p d < 2 ^ 64 then .ok (worth w p d) else .none := by
  have hpow := pow_ten_lt h19
  have hfrac := (fraction_lt hp hlen).trans hpow
  have hpart : (parseUnsigned 64 (p.rightpad d '0')).toOption = some (number p * 10 ^ (d - p.length)) := by
    have hne : p.rightpad d '0' ≠ [] := by
      rw [← List.length_pos_iff, List.length_rightpad]
      exact h1.trans (le_max_left ..)
    rw [parseUnsigned_toOption hne, number_rightpad, if_pos hfrac]
  unfold scaleParts worth
  rw [readWhole_eq, hpart, show Checked.pow 64 10 d = .ok (10 ^ d) from if_pos hpow]
  by_cases hw : number w < 2 ^ 64
  · rw [if_pos hw]
    simp only [Checked.ok_bind, Checked.ofOption]
    unfold Checked.fit Checked.checkedAdd
    by_cases hprod : number w * 10 ^ d < 2 ^ 64
    · rw [if_pos hprod]
      rfl
    · rw [if_neg hprod, if_neg (by omega)]
      rfl
  · have hle : number w ≤ number w * 10 ^ d := Nat.le_mul_of_pos_right _ (by positivity)
    rw [if_neg hw, if_neg (by omega)]
    rfl

/-- What the page reads: a decimal that fits, for what it is worth, and nothing else. -/
theorem atoms_cases (s : List Char) (h1 : 1 ≤ d) (h19 : d ≤ 19) :
    (∃ v, atoms s d = .ok v ∧ IsDecimal s d v ∧ v < 2 ^ 64) ∨
      atoms s d = .none ∧ ∀ v, IsDecimal s d v → 2 ^ 64 ≤ v := by
  unfold atoms
  simp only
  split
  · rename_i hbad
    refine .inr ⟨rfl, fun v h => ?_⟩
    obtain ⟨hw, hp, hne, hlen, -⟩ := isDecimal_iff.mp h
    simp only [Bool.or_eq_true, Bool.and_eq_true, List.isEmpty_iff, Bool.not_eq_true', decide_eq_true_eq,
      List.all_eq_true.mpr hw, List.all_eq_true.mpr hp, Bool.true_eq_false, or_false] at hbad
    rcases hbad with hnil | hlong
    · exact absurd (List.append_eq_nil_iff.mpr hnil) hne
    · omega
  · rename_i hgood
    simp only [Bool.or_eq_true, Bool.and_eq_true, List.isEmpty_iff, Bool.not_eq_true', decide_eq_true_eq, not_or,
      Bool.not_eq_false, List.all_eq_true, not_lt] at hgood
    obtain ⟨⟨⟨hne, hw⟩, hp⟩, hlen⟩ := hgood
    rw [scaleParts_eq _ hp hlen h1 h19]
    by_cases h64 : worth (halves s).1 (halves s).2 d < 2 ^ 64
    · rw [if_pos h64]
      exact .inl ⟨_, rfl, isDecimal_iff.mpr ⟨hw, hp, mt List.append_eq_nil_iff.mp hne, hlen, rfl⟩, h64⟩
    · rw [if_neg h64]
      exact .inr ⟨rfl, fun v h => (isDecimal_iff.mp h).2.2.2.2 ▸ not_lt.mp h64⟩

theorem atoms_not_fails (s : List Char) (h1 : 1 ≤ d) (h19 : d ≤ 19) : ¬(atoms s d).Fails := by
  rcases atoms_cases s h1 h19 with ⟨v, h, -⟩ | ⟨h, -⟩ <;> simp [h]

/-- Whatever the page reads is its exact value. -/
theorem atoms_sound (h : atoms s d = .ok v) : IsDecimal s d v ∧ v < 2 ^ 64 := by
  obtain ⟨h1, h19⟩ := atoms_range h
  rcases atoms_cases s h1 h19 with ⟨v', h', hdec, hlt⟩ | ⟨h', -⟩
  · obtain rfl := Except.ok.inj (h'.symm.trans h)
    exact ⟨hdec, hlt⟩
  · exact absurd (h'.symm.trans h) Checked.none_ne_ok

theorem atoms_complete (h1 : 1 ≤ d) (h19 : d ≤ 19) (h : IsDecimal s d v) (hv : v < 2 ^ 64) : atoms s d = .ok v := by
  rcases atoms_cases s h1 h19 with ⟨v', h', hdec, -⟩ | ⟨-, hbig⟩
  · rw [h', hdec.unique h]
  · exact absurd (hbig v h) (not_le.mpr hv)

/-- The two assets of the page are counted in decimals it reads without failing. -/
theorem asset_decimals (a : Asset) : 1 ≤ a.decimals ∧ a.decimals ≤ 19 := by cases a <;> decide

/-- `parse_decimal` takes the space before a number off, and `atoms` refuses it. -/
theorem space_read_once : parseDecimal " 1".toList 6 = .ok 1000000 ∧ atoms " 1".toList 6 = .none := by
  decide +kernel

/-- The two readers give the same answer, once the white space is off. -/
theorem readers_agree (s : List Char) (h1 : 1 ≤ d) (h19 : d ≤ 19) (hpoint : trim s ≠ ['.']) :
    (parseDecimal s d).toOption = (atoms (trim s) d).toOption := by
  rcases parseDecimal_cases s (h19.trans (by decide)) hpoint with ⟨v, h, hdec, hv⟩ | ⟨⟨e, h⟩, hbig⟩
  · rw [h, atoms_complete h1 h19 hdec hv]
    rfl
  · rcases atoms_cases (trim s) h1 h19 with ⟨v, -, hdec, hv⟩ | ⟨h', -⟩
    · exact absurd (hbig v hdec) (not_le.mpr hv)
    · rw [h, h']
      rfl

/-- **Amounts are read exactly, by both readers alike, and round-trip.** -/
theorem amounts_agree (s : List Char) (d v : ℕ) :
    (trim s ≠ ['.'] → parseDecimal s d = .ok v → IsDecimal (trim s) d v ∧ v < 2 ^ 64) ∧
    (atoms s d = .ok v → IsDecimal s d v ∧ v < 2 ^ 64) ∧
    (d ≤ 38 → (IsDecimal (trim s) d v → v < 2 ^ 64 → parseDecimal s d = .ok v) ∧
      (trim s ≠ ['.'] → parseDecimal s d ≠ .error .panic)) ∧
    (1 ≤ d → d ≤ 19 → (IsDecimal s d v → v < 2 ^ 64 → atoms s d = .ok v) ∧ ¬(atoms s d).Fails ∧
      (trim s ≠ ['.'] → (parseDecimal s d).toOption = (atoms (trim s) d).toOption)) ∧
    ∀ n : ℕ, n < 2 ^ 64 → d ≤ 38 → ∃ r, formatAtoms n d d = .ok r ∧ IsDecimal r d n ∧ parseDecimal r d = .ok n ∧
      (1 ≤ d → d ≤ 19 → atoms r d = .ok n) := by
  refine ⟨fun hpoint h => parseDecimal_sound hpoint h, atoms_sound, fun h38 => ⟨?_, ?_⟩, fun h1 h19 => ?_, ?_⟩
  · exact parseDecimal_complete h38
  · exact parseDecimal_ne_panic h38
  · exact ⟨atoms_complete h1 h19, atoms_not_fails s h1 h19, readers_agree s h1 h19⟩
  · intro n hn h38
    obtain ⟨r, hr, hdec⟩ := formatAtoms_isDecimal n h38
    refine ⟨r, hr, hdec, parseDecimal_complete h38 (hdec.trim.symm ▸ hdec) hn, fun h1 h19 => ?_⟩
    exact atoms_complete h1 h19 hdec hn

end Purse
end MobiusSearcher
