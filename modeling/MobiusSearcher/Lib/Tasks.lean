/-
# Tasks that share a world

Programs that run side by side in one world: each waits at a question, and any
of them may be answered next. A task is known by its place in the order the
tasks were begun in.

`Tasks.safe` is the rule for reasoning about them one at a time. Of the other
tasks a task needs to know only what they leave as it is (`rely`); what it
asks must in turn keep the invariant and what the others rely on. Its program
is then sound by itself, with every answer preceded by whatever the others may
do.

Key definitions: `Tasks`, `Tasks.Moves`, `Tasks.Rules`.
Key theorems: `Tasks.safe`, `Tasks.reach_played`.
-/
import MobiusSearcher.Lib.Prog

/-- Tasks, each begun by a call. -/
structure Tasks {ε : Type} (ans : ε → Type) (W C : Type) where
  prog : C → Prog ans Unit
  /-- The answers to a task's question. -/
  answers : ℕ → W → (o : ε) → ans o → W → Prop

namespace Tasks

variable {ε : Type} {ans : ε → Type} {W C : Type}

/-- The world, and where each task is. -/
abbrev Status (ans : ε → Type) (W : Type) := W × List (Prog ans Unit)

inductive Moves (s : Tasks ans W C) : Status ans W → Status ans W → Prop
  | call {w : W} {ts : List (Prog ans Unit)} (c : C) : Moves s (w, ts) (w, ts ++ [s.prog c])
  | answer {w w' : W} {ts : List (Prog ans Unit)} {i : ℕ} {o : ε} {k : ans o → Prog ans Unit} (a : ans o) :
      ts[i]? = some (.ask o k) → s.answers i w o a w' → Moves s (w, ts) (w', ts.set i (k a))

/-- The tasks come from the world `w₀`, where none has begun, to the state. -/
def Reach (s : Tasks ans W C) (w₀ : W) (t : Status ans W) : Prop := Relation.ReflTransGen s.Moves (w₀, []) t

/-- Reasoning about one task at a time: the invariant, what a task relies on
the others for, what is known of one that has not begun, and what holds at its
questions. -/
structure Rules (s : Tasks ans W C) (inv : W → Prop) (rely : ℕ → W → W → Prop) (fresh : ℕ → W → Prop)
    (asks : ℕ → W → ε → Prop) : Prop where
  refl : ∀ i w, rely i w w
  trans : ∀ {i w₁ w₂ w₃}, rely i w₁ w₂ → rely i w₂ w₃ → rely i w₁ w₃
  fresh : ∀ {i w w'}, fresh i w → rely i w w' → fresh i w'
  stable : ∀ {i w w' o}, asks i w o → rely i w w' → inv w' → asks i w' o
  step : ∀ {i w o a w'}, inv w → asks i w o → s.answers i w o a w' → inv w' ∧ ∀ j, j ≠ i → rely j w w'

/-- An answer, after whatever the other tasks did. -/
def among (s : Tasks ans W C) (inv : W → Prop) (rely : ℕ → W → W → Prop) (i : ℕ) (w : W) (o : ε) (a : ans o) (w' : W) :
    Prop := ∃ w₁, rely i w w₁ ∧ inv w₁ ∧ s.answers i w₁ o a w'

variable {s : Tasks ans W C} {inv : W → Prop} {rely : ℕ → W → W → Prop} {fresh : ℕ → W → Prop}
  {asks : ℕ → W → ε → Prop}

/-- Task `i`, whose program is `p`, is sound among the others. -/
def Holds (s : Tasks ans W C) (inv : W → Prop) (rely : ℕ → W → W → Prop) (asks : ℕ → W → ε → Prop) (i : ℕ)
    (p : Prog ans Unit) (w : W) : Prop := p.Sound (s.among inv rely i) (asks i) (fun _ _ => True) w

theorem Holds.meanwhile (hr : s.Rules inv rely fresh asks) {i : ℕ} {w w' : W} (h : rely i w w') (hi : inv w') :
    ∀ {p : Prog ans Unit}, s.Holds inv rely asks i p w → s.Holds inv rely asks i p w'
  | .ret _, _ => trivial
  | .ask _ _, ⟨hp, hk⟩ => by
    refine ⟨hr.stable hp h hi, ?_⟩
    rintro a w'' ⟨w₁, hw₁, hi₁, ha⟩
    exact hk a w'' ⟨w₁, hr.trans h hw₁, hi₁, ha⟩

/-- **The induction over the runs of tasks that share a world.** -/
theorem safe (hr : s.Rules inv rely fresh asks) {w₀ : W} (h0 : inv w₀) (hf : ∀ i, fresh i w₀)
    (hcall : ∀ c i w, inv w → fresh i w → s.Holds inv rely asks i (s.prog c) w) {t : Status ans W}
    (h : s.Reach w₀ t) :
    inv t.1 ∧ (∀ i p, t.2[i]? = some p → s.Holds inv rely asks i p t.1) ∧ ∀ i, t.2.length ≤ i → fresh i t.1 := by
  induction h with
  | refl => exact ⟨h0, nofun, fun i _ => hf i⟩
  | tail _ hm ih =>
    obtain ⟨hi, hs, hn⟩ := ih
    cases hm with
    | @call w ts c =>
      refine ⟨hi, fun i p hp => ?_, fun i hle => hn i ?_⟩
      · rcases Nat.lt_trichotomy i ts.length with hlt | rfl | hgt
        · exact hs i p (by rwa [List.getElem?_append_left hlt] at hp)
        · simp only [List.getElem?_concat_length, Option.some.injEq] at hp
          subst hp
          exact hcall c _ w hi (hn _ le_rfl)
        · rw [List.getElem?_eq_none (by simp only [List.length_append, List.length_singleton]; omega)] at hp
          exact nomatch hp
      · simp only [List.length_append, List.length_singleton] at hle
        exact Nat.le_of_succ_le hle
    | @answer w w' ts i o k a hti ha =>
      obtain ⟨hp, hk⟩ := hs i _ hti
      obtain ⟨hi', hrely⟩ := hr.step hi hp ha
      have hlt : i < ts.length := (List.getElem?_eq_some_iff.mp hti).1
      refine ⟨hi', fun j p hj => ?_, fun j hle => ?_⟩
      · by_cases hji : j = i
        · subst hji
          simp only [List.getElem?_set_self hlt, Option.some.injEq] at hj
          subst hj
          exact hk a w' ⟨w, hr.refl j w, hi, ha⟩
        · simp only [List.getElem?_set_ne (Ne.symm hji)] at hj
          exact Holds.meanwhile hr (hrely j hji) hi' (hs j p hj)
      · simp only [List.length_set] at hle
        exact hr.fresh (hn j hle) (hrely j (by omega))

/-! ### Computed runs -/

/-- A call is made, or task `i` is answered as `r` says. -/
inductive Turn (C R : Type)
  | call (c : C)
  | answer (i : ℕ) (r : R)

variable {R : Type}

/-- The turns, one after another. -/
def played (s : Tasks ans W C) (reply : R → ℕ → W → (o : ε) → ans o × W) : List (Turn C R) → Status ans W → Status ans W
  | [], t => t
  | .call c :: rest, (w, ts) => s.played reply rest (w, ts ++ [s.prog c])
  | .answer i r :: rest, (w, ts) =>
    match ts[i]? with
    | some (.ask o k) => s.played reply rest ((reply r i w o).2, ts.set i (k (reply r i w o).1))
    | _ => s.played reply rest (w, ts)

theorem reach_played {reply : R → ℕ → W → (o : ε) → ans o × W}
    (hr : ∀ r i w o, s.answers i w o (reply r i w o).1 (reply r i w o).2) {w₀ : W} :
    ∀ (turns : List (Turn C R)) {t : Status ans W}, s.Reach w₀ t → s.Reach w₀ (s.played reply turns t)
  | [], _, h => h
  | .call c :: rest, (_, _), h => reach_played hr rest (h.tail (.call c))
  | .answer i r :: rest, (w, ts), h => by
    unfold played
    split
    · rename_i o k hti
      exact reach_played hr rest (h.tail (.answer _ hti (hr r i w o)))
    · exact reach_played hr rest h

end Tasks
