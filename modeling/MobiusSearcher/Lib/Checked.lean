/-
# Computations that can give no value, or fail

A computation gives a value, gives none (an early return), or fails: an
arithmetic operation left the range of its type, a divisor was zero. The
operations on machine integers are named by what they do then: the plain ones
fail, as they do in a build with overflow checks, and the `checked` ones give
no value.

Key definitions: `Checked`, `Checked.add`, `Checked.int`, `Checked.checkedAdd`,
`Checked.Fails`.
Key theorems: `Checked.bind_eq_ok`, `Checked.fails_bind`.
-/
import Mathlib.Tactic

/-- Why a computation gives no value. -/
inductive Halt
  | none
  | panic
  deriving DecidableEq, Repr

/-- A value, or why there is none. -/
abbrev Checked (α : Type) := Except Halt α

namespace Checked

variable {α β : Type}

def none : Checked α := .error .none

def panic : Checked α := .error .panic

def ofOption : Option α → Checked α
  | .some a => .ok a
  | .none => none

/-- The value of a function that has none where it fails. -/
def orPanic : Option α → Checked α
  | .some a => .ok a
  | .none => panic

/-- It does not give a value: it fails. -/
def Fails (x : Checked α) : Prop := x = panic

instance (x : Checked α) : Decidable x.Fails :=
  match x with
  | .ok _ => .isFalse nofun
  | .error .none => .isFalse nofun
  | .error .panic => .isTrue rfl

/-! ### Machine integers -/

def add (w a b : ℕ) : Checked ℕ := if a + b < 2 ^ w then .ok (a + b) else panic

def sub (a b : ℕ) : Checked ℕ := if b ≤ a then .ok (a - b) else panic

def mul (w a b : ℕ) : Checked ℕ := if a * b < 2 ^ w then .ok (a * b) else panic

def pow (w a n : ℕ) : Checked ℕ := if a ^ n < 2 ^ w then .ok (a ^ n) else panic

/-- The value of an operation on signed integers. -/
def int (w : ℕ) (x : ℤ) : Checked ℤ := if -2 ^ (w - 1) ≤ x ∧ x < 2 ^ (w - 1) then .ok x else panic

/-- Shifted left, the bits that leave the type lost. -/
def shl (w a n : ℕ) : ℕ := a * 2 ^ n % 2 ^ w

def checkedAdd (w a b : ℕ) : Checked ℕ := if a + b < 2 ^ w then .ok (a + b) else none

def checkedSub (a b : ℕ) : Checked ℕ := if b ≤ a then .ok (a - b) else none

/-- An unsigned integer and a signed one. -/
def checkedAddSigned (w a : ℕ) (x : ℤ) : Checked ℕ :=
  if 0 ≤ a + x ∧ a + x < 2 ^ w then .ok (a + x).toNat else none

/-- All but the least signed integer can be negated. -/
def checkedNeg (w : ℕ) (x : ℤ) : Checked ℤ := if x = -2 ^ (w - 1) then none else .ok (-x)

/-- The value, if the type has it. -/
def fit (w a : ℕ) : Checked ℕ := if a < 2 ^ w then .ok a else none

/-! ### Results -/

theorem bind_eq_ok {x : Checked α} {f : α → Checked β} {b : β} :
    (x >>= f) = .ok b ↔ ∃ a, x = .ok a ∧ f a = .ok b := by
  cases x with
  | error e => exact ⟨nofun, fun ⟨_, h, _⟩ => nomatch h⟩
  | ok a => exact ⟨fun h => ⟨a, rfl, h⟩, fun ⟨_, h, hf⟩ => by cases h; exact hf⟩

/-- Something fails when its first part does, or what follows it. -/
theorem fails_bind {x : Checked α} {f : α → Checked β} :
    (x >>= f).Fails ↔ x.Fails ∨ ∃ a, x = .ok a ∧ (f a).Fails := by
  cases x with
  | ok a =>
    refine ⟨fun h => .inr ⟨a, rfl, h⟩, ?_⟩
    rintro (h | ⟨_, h, hf⟩)
    · exact nomatch h
    · cases h
      exact hf
  | error e =>
    refine ⟨fun h => .inl ?_, ?_⟩
    · cases e with
      | none => exact nomatch h
      | panic => rfl
    · rintro (h | ⟨_, h, -⟩)
      · cases h
        rfl
      · exact nomatch h

/-- After a part that does not fail. -/
theorem fails_bind_of {x : Checked α} {f : α → Checked β} (hx : ¬x.Fails) :
    (x >>= f).Fails ↔ ∃ a, x = .ok a ∧ (f a).Fails := by
  rw [fails_bind]
  exact ⟨fun h => h.resolve_left hx, .inr⟩

@[simp] theorem ok_bind (a : α) (f : α → Checked β) : ((.ok a : Checked α) >>= f) = f a := rfl

@[simp] theorem pure_eq_ok (a : α) : (pure a : Checked α) = .ok a := rfl

@[simp] theorem none_bind (f : α → Checked β) : ((none : Checked α) >>= f) = none := rfl

@[simp] theorem panic_bind (f : α → Checked β) : ((panic : Checked α) >>= f) = panic := rfl

@[simp] theorem not_fails_ok (a : α) : ¬Fails (.ok a : Checked α) := nofun

@[simp] theorem not_fails_none : ¬Fails (none : Checked α) := nofun

@[simp] theorem fails_panic : Fails (panic : Checked α) := rfl

@[simp] theorem none_ne_ok {a : α} : (none : Checked α) ≠ .ok a := nofun

@[simp] theorem panic_ne_ok {a : α} : (panic : Checked α) ≠ .ok a := nofun

theorem of_if_eq_ok {c : Prop} [Decidable c] {a b : α} {e : Checked α} (he : ∀ b, e ≠ .ok b) :
    (if c then .ok a else e) = .ok b ↔ c ∧ b = a := by
  by_cases h : c
  · rw [if_pos h]
    exact ⟨fun hok => ⟨h, (Except.ok.inj hok).symm⟩, fun hok => congrArg Except.ok hok.2.symm⟩
  · rw [if_neg h]
    exact ⟨fun hok => absurd hok (he b), fun hok => absurd hok.1 h⟩

theorem add_eq_ok {w a b c : ℕ} : add w a b = .ok c ↔ a + b < 2 ^ w ∧ c = a + b := of_if_eq_ok fun _ => panic_ne_ok

theorem sub_eq_ok {a b c : ℕ} : sub a b = .ok c ↔ b ≤ a ∧ c = a - b := of_if_eq_ok fun _ => panic_ne_ok

theorem pow_eq_ok {w a n c : ℕ} : pow w a n = .ok c ↔ a ^ n < 2 ^ w ∧ c = a ^ n := of_if_eq_ok fun _ => panic_ne_ok

theorem int_eq_ok {w : ℕ} {x y : ℤ} : int w x = .ok y ↔ (-2 ^ (w - 1) ≤ x ∧ x < 2 ^ (w - 1)) ∧ y = x :=
  of_if_eq_ok fun _ => panic_ne_ok

theorem checkedSub_eq_ok {a b c : ℕ} : checkedSub a b = .ok c ↔ b ≤ a ∧ c = a - b := of_if_eq_ok fun _ => none_ne_ok

theorem fit_eq_ok {w a b : ℕ} : fit w a = .ok b ↔ a < 2 ^ w ∧ b = a := of_if_eq_ok fun _ => none_ne_ok

theorem ofOption_eq_ok {x : Option α} {a : α} : ofOption x = .ok a ↔ x = some a := by
  cases x with
  | none => exact ⟨nofun, nofun⟩
  | some b => exact ⟨fun h => congrArg _ (Except.ok.inj h), fun h => congrArg _ (Option.some.inj h)⟩

theorem orPanic_eq_ok {x : Option α} {a : α} : orPanic x = .ok a ↔ x = some a := by
  cases x with
  | none => exact ⟨nofun, nofun⟩
  | some b => exact ⟨fun h => congrArg _ (Except.ok.inj h), fun h => congrArg _ (Option.some.inj h)⟩

theorem checkedNeg_eq_ok {w : ℕ} {x y : ℤ} : checkedNeg w x = .ok y ↔ x ≠ -2 ^ (w - 1) ∧ y = -x := by
  unfold checkedNeg
  rw [← ite_not]
  exact of_if_eq_ok fun _ => none_ne_ok

theorem checkedAddSigned_eq_ok {w a b : ℕ} {x : ℤ} :
    checkedAddSigned w a x = .ok b ↔ (b : ℤ) = a + x ∧ b < 2 ^ w := by
  refine (of_if_eq_ok fun _ => none_ne_ok).trans ?_
  constructor
  · rintro ⟨⟨h₁, h₂⟩, rfl⟩
    have hcast : ((a + x).toNat : ℤ) = a + x := Int.toNat_of_nonneg h₁
    refine ⟨hcast, ?_⟩
    rw [← hcast] at h₂
    exact_mod_cast h₂
  · rintro ⟨h₁, h₂⟩
    rw [← h₁]
    exact ⟨⟨Int.natCast_nonneg b, by exact_mod_cast h₂⟩, (Int.toNat_natCast b).symm⟩

theorem add_ok {w a b : ℕ} (h : a + b < 2 ^ w) : add w a b = .ok (a + b) := if_pos h

theorem sub_ok {a b : ℕ} (h : b ≤ a) : sub a b = .ok (a - b) := if_pos h

theorem mul_ok {w a b : ℕ} (h : a * b < 2 ^ w) : mul w a b = .ok (a * b) := if_pos h

theorem int_ok {w : ℕ} {x : ℤ} (h₁ : -2 ^ (w - 1) ≤ x) (h₂ : x < 2 ^ (w - 1)) : int w x = .ok x := if_pos ⟨h₁, h₂⟩

/-! ### What fails -/

theorem if_fails {c : Prop} [Decidable c] {a : α} : (if c then .ok a else panic : Checked α).Fails ↔ ¬c := by
  by_cases h : c
  · rw [if_pos h]
    exact ⟨fun hf => absurd hf (not_fails_ok a), fun hn => absurd h hn⟩
  · rw [if_neg h]
    exact ⟨fun _ => h, fun _ => rfl⟩

theorem add_fails {w a b : ℕ} : (add w a b).Fails ↔ ¬a + b < 2 ^ w := if_fails

theorem sub_fails {a b : ℕ} : (sub a b).Fails ↔ ¬b ≤ a := if_fails

theorem mul_fails {w a b : ℕ} : (mul w a b).Fails ↔ ¬a * b < 2 ^ w := if_fails

theorem pow_fails {w a n : ℕ} : (pow w a n).Fails ↔ ¬a ^ n < 2 ^ w := if_fails

theorem int_fails {w : ℕ} {x : ℤ} : (int w x).Fails ↔ ¬(-2 ^ (w - 1) ≤ x ∧ x < 2 ^ (w - 1)) := if_fails

theorem if_none_not_fails {c : Prop} [Decidable c] {a : α} : ¬(if c then .ok a else none : Checked α).Fails := by
  by_cases h : c
  · rw [if_pos h]
    exact not_fails_ok a
  · rw [if_neg h]
    exact not_fails_none

theorem fit_not_fails {w a : ℕ} : ¬(fit w a).Fails := if_none_not_fails

theorem checkedSub_not_fails {a b : ℕ} : ¬(checkedSub a b).Fails := if_none_not_fails

theorem checkedAddSigned_not_fails {w a : ℕ} {x : ℤ} : ¬(checkedAddSigned w a x).Fails := if_none_not_fails

theorem checkedNeg_not_fails {w : ℕ} {x : ℤ} : ¬(checkedNeg w x).Fails := by
  unfold checkedNeg
  rw [← ite_not]
  exact if_none_not_fails

theorem ofOption_not_fails {x : Option α} : ¬(ofOption x).Fails := by
  cases x with
  | none => exact not_fails_none
  | some a => exact not_fails_ok a

/-- A list mapped in order fails where something fails and all before it gave a value. -/
theorem mapM_fails_iff {f : α → Checked β} : ∀ {as : List α}, (as.mapM f).Fails ↔
    ∃ l₁ a l₂, as = l₁ ++ a :: l₂ ∧ (∀ b ∈ l₁, ∃ c, f b = .ok c) ∧ (f a).Fails
  | [] => by
    rw [List.mapM_nil]
    refine ⟨fun h => absurd h (not_fails_ok _), ?_⟩
    rintro ⟨l₁, a, l₂, h, -⟩
    exact absurd h (by simp)
  | x :: xs => by
    rw [List.mapM_cons, fails_bind]
    have hrest : ∀ b, (xs.mapM f >>= fun bs => pure (b :: bs) : Checked (List β)).Fails ↔ (xs.mapM f).Fails := by
      intro b
      rw [fails_bind]
      refine ⟨fun h => ?_, .inl⟩
      rcases h with h | ⟨bs, -, h⟩
      · exact h
      · exact absurd h (not_fails_ok _)
    constructor
    · rintro (h | ⟨b, hb, h⟩)
      · exact ⟨[], x, xs, rfl, fun b hb => absurd hb List.not_mem_nil, h⟩
      · obtain ⟨l₁, a, l₂, rfl, hall, hf⟩ := mapM_fails_iff.mp ((hrest b).mp h)
        refine ⟨x :: l₁, a, l₂, rfl, fun c hc => ?_, hf⟩
        rcases List.mem_cons.mp hc with rfl | hc
        · exact ⟨b, hb⟩
        · exact hall c hc
    · rintro ⟨l₁, a, l₂, hsplit, hall, hf⟩
      cases l₁ with
      | nil =>
        obtain ⟨rfl, rfl⟩ := List.cons.inj hsplit
        exact .inl hf
      | cons y ys =>
        obtain ⟨rfl, rfl⟩ := List.cons.inj hsplit
        obtain ⟨b, hb⟩ := hall x (List.mem_cons_self ..)
        refine .inr ⟨b, hb, (hrest b).mpr (mapM_fails_iff.mpr ?_)⟩
        exact ⟨ys, a, l₂, rfl, fun c hc => hall c (List.mem_cons_of_mem x hc), hf⟩

/-- Where every element gives a value or fails, a list mapped fails where any does. -/
theorem mapM_fails_iff_exists {f : α → Checked β} : ∀ {as : List α}, (∀ a ∈ as, (∃ b, f a = .ok b) ∨ (f a).Fails) →
    ((as.mapM f).Fails ↔ ∃ a ∈ as, (f a).Fails)
  | [], _ => by
    rw [List.mapM_nil]
    exact ⟨fun h => absurd h (not_fails_ok _), fun ⟨_, h, _⟩ => absurd h List.not_mem_nil⟩
  | x :: xs, htotal => by
    have ih := mapM_fails_iff_exists (f := f) fun a ha => htotal a (List.mem_cons_of_mem x ha)
    rw [List.mapM_cons, fails_bind]
    constructor
    · rintro (h | ⟨b, -, h⟩)
      · exact ⟨x, List.mem_cons_self .., h⟩
      · rw [fails_bind] at h
        rcases h with h | ⟨bs, -, h⟩
        · obtain ⟨a, ha, hf⟩ := ih.mp h
          exact ⟨a, List.mem_cons_of_mem x ha, hf⟩
        · exact absurd h (not_fails_ok _)
    · rintro ⟨a, ha, hf⟩
      rcases htotal x (List.mem_cons_self ..) with ⟨b, hb⟩ | hx
      · rcases List.mem_cons.mp ha with rfl | ha
        · rw [hb] at hf
          exact absurd hf (not_fails_ok b)
        · exact .inr ⟨b, hb, fails_bind.mpr (.inl (ih.mpr ⟨a, ha, hf⟩))⟩
      · exact .inl hx

end Checked
