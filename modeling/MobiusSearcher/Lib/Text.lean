/-
# Texts

A text is its characters. What is white space around it, what stands before and
behind the first point, and the number its digits stand for.

Key definitions: `Text.Unread`, `Text.trim`, `Text.splitOnce`, `Text.number`.
Key theorems: `Text.splitOnce_append`, `Text.trim_eq_self`, `Text.number_append`,
`Text.number_lt`.
-/
import Mathlib.Tactic

namespace Text

/-- Why nothing was read from a text: it was refused, with a message, or the reading panicked. -/
inductive Unread
  | format (text : String)
  | panic
  deriving DecidableEq, Repr

/-! ### White space -/

/-- Unicode's `White_Space`. -/
def isWhitespace (c : Char) : Bool :=
  (9 ≤ c.toNat && c.toNat ≤ 13) || c.toNat == 0x20 || c.toNat == 0x85 || c.toNat == 0xa0 || c.toNat == 0x1680 ||
    (0x2000 ≤ c.toNat && c.toNat ≤ 0x200a) || c.toNat == 0x2028 || c.toNat == 0x2029 || c.toNat == 0x202f ||
    c.toNat == 0x205f || c.toNat == 0x3000

def trim (s : List Char) : List Char := ((s.dropWhile isWhitespace).reverse.dropWhile isWhitespace).reverse

theorem trim_eq_self {s : List Char} (h : ∀ c ∈ s, isWhitespace c = false) : trim s = s := by
  have hdrop : ∀ {l : List Char}, (∀ c ∈ l, isWhitespace c = false) → l.dropWhile isWhitespace = l := by
    intro l hl
    cases l with
    | nil => rfl
    | cons c l => exact List.dropWhile_cons_of_neg (by simp [hl c List.mem_cons_self])
  unfold trim
  rw [hdrop h, hdrop fun c hc => h c (List.mem_reverse.mp hc), List.reverse_reverse]

/-! ### Splitting -/

/-- What stands before the first `c`, and what behind it. -/
def splitOnce (c : Char) : List Char → Option (List Char × List Char)
  | [] => none
  | x :: xs => if x = c then some ([], xs) else (splitOnce c xs).map fun r => (x :: r.1, r.2)

theorem splitOnce_append {c : Char} {a b : List Char} (h : c ∉ a) : splitOnce c (a ++ c :: b) = some (a, b) := by
  induction a with
  | nil => simp [splitOnce]
  | cons x a ih =>
    rw [List.mem_cons, not_or] at h
    simp [splitOnce, Ne.symm h.1, ih h.2]

theorem splitOnce_none {c : Char} {s : List Char} (h : c ∉ s) : splitOnce c s = none := by
  induction s with
  | nil => rfl
  | cons x s ih =>
    rw [List.mem_cons, not_or] at h
    simp [splitOnce, Ne.symm h.1, ih h.2]

theorem splitOnce_eq_some {c : Char} {s a b : List Char} (h : splitOnce c s = some (a, b)) : s = a ++ c :: b := by
  induction s generalizing a b with
  | nil => exact nomatch h
  | cons x s ih =>
    unfold splitOnce at h
    split at h
    · rename_i he
      obtain ⟨rfl, rfl⟩ := Prod.mk.inj (Option.some.inj h)
      rw [he, List.nil_append]
    · obtain ⟨⟨a', b'⟩, hr, he⟩ := Option.map_eq_some_iff.mp h
      obtain ⟨rfl, rfl⟩ := Prod.mk.inj he
      rw [ih hr, List.cons_append]

/-! ### Numbers in decimal -/

/-- The number that digits stand for. -/
def number (cs : List Char) : ℕ := Nat.ofDigitChars 10 cs 0

@[simp] theorem number_nil : number [] = 0 := Nat.ofDigitChars_nil

theorem number_append (a b : List Char) : number (a ++ b) = number a * 10 ^ b.length + number b := by
  unfold number
  rw [Nat.ofDigitChars_append, Nat.ofDigitChars_eq_ofDigitChars_zero, Nat.mul_comm]

theorem number_replicate (n : ℕ) : number (List.replicate n '0') = 0 := by
  unfold number
  rw [Nat.ofDigitChars_replicate_zero, Nat.mul_zero]

@[simp] theorem number_toDigits (n : ℕ) : number (Nat.toDigits 10 n) = n := Nat.ofDigitChars_ten_toDigits

theorem digit_range {c : Char} (h : c.isDigit = true) : 48 ≤ c.toNat ∧ c.toNat ≤ 57 := Char.isDigit_iff_toNat.mp h

theorem number_lt {cs : List Char} (h : ∀ c ∈ cs, c.isDigit = true) : number cs < 10 ^ cs.length := by
  induction cs using List.reverseRecOn with
  | nil => simp
  | append_singleton cs c ih =>
    rw [List.forall_mem_append, List.forall_mem_singleton] at h
    have hc := digit_range h.2
    have hone : number [c] = c.toNat - 48 := by simp [number, Nat.ofDigitChars_cons]
    have := ih h.1
    rw [number_append, hone, List.length_append, List.length_singleton, pow_one, pow_succ]
    omega

/-- A digit is no white space. -/
theorem isWhitespace_digit {c : Char} (h : c.isDigit = true) : isWhitespace c = false := by
  have h' := digit_range h
  unfold isWhitespace
  simp only [Bool.or_eq_false_iff, Bool.and_eq_false_iff, decide_eq_false_iff_not, beq_eq_false_iff_ne]
  omega

end Text
