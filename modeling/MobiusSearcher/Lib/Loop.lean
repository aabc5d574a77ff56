/-
# Loops that can give no value

A `while` loop over checked computations: a turn gives the next state and
whether it broke off, or gives no value, or fails. What a loop that comes to
an end is known by is proved here once: its result by cases (`run_eq_ok`),
what every turn keeps (`run_inv`), how its result compares with another's
(`run_pair`), and that it fails only at a turn that does (`run_fails`).

Key definitions: `Loop`, `Loop.run`, `Loop.Reaches`.
Key theorems: `Loop.run_eq_ok`, `Loop.run_inv`, `Loop.run_pair`, `Loop.run_fails_iff`.
-/
import MobiusSearcher.Lib.Checked

structure Loop (σ : Type) where
  done : σ → Bool
  /-- The state after a turn, and whether the loop ends there. -/
  turn : σ → Checked (σ × Bool)
  size : σ → ℕ
  descends : ∀ {s s' : σ}, done s = false → turn s = .ok (s', false) → size s' < size s

namespace Loop

variable {σ τ : Type} (L : Loop σ)

/-- The loop, from the state at the head of a turn. -/
def run (s : σ) : Checked σ :=
  match _hs : L.done s with
  | true => .ok s
  | false =>
    match _h : L.turn s with
    | .error e => .error e
    | .ok (s', true) => .ok s'
    | .ok (s', false) => run s'
  termination_by L.size s
  decreasing_by exact L.descends _hs _h

variable {L} {s s' : σ}

theorem run_done (h : L.done s = true) : L.run s = .ok s := by
  rw [run]
  split
  · rfl
  · rename_i hs
    rw [h] at hs
    exact absurd hs (by decide)

/-- A turn, and the loop from where it leads. -/
theorem run_turn (h : L.done s = false) :
    L.run s = L.turn s >>= fun r => if r.2 then .ok r.1 else L.run r.1 := by
  rw [run]
  split
  · rename_i hs
    rw [h] at hs
    exact absurd hs (by decide)
  · split
    · rename_i e he
      rw [he]
      rfl
    · rename_i v hv
      rw [hv]
      rfl
    · rename_i v hv
      rw [hv]
      rfl

/-- A loop that gives a value: no turn, one that breaks off, or one more and
a loop from there. -/
theorem run_eq_ok : L.run s = .ok s' ↔
    (L.done s = true ∧ s' = s) ∨ (L.done s = false ∧
      (L.turn s = .ok (s', true) ∨ ∃ v, L.turn s = .ok (v, false) ∧ L.run v = .ok s')) := by
  cases hs : L.done s with
  | true =>
    rw [run_done hs]
    constructor
    · exact fun h => .inl ⟨rfl, (Except.ok.inj h).symm⟩
    · rintro (⟨-, rfl⟩ | ⟨h, -⟩)
      · rfl
      · exact absurd h (by decide)
  | false =>
    rw [run_turn hs, Checked.bind_eq_ok]
    constructor
    · rintro ⟨⟨v, broke⟩, hv, h⟩
      cases broke with
      | true =>
        obtain rfl := Except.ok.inj h
        exact .inr ⟨rfl, .inl hv⟩
      | false => exact .inr ⟨rfl, .inr ⟨v, hv, h⟩⟩
    · rintro (⟨h, -⟩ | ⟨-, h | ⟨v, hv, h⟩⟩)
      · exact absurd h (by decide)
      · exact ⟨_, h, rfl⟩
      · exact ⟨_, hv, h⟩

/-- Induction over a loop that gives a value, from its end. -/
theorem run_induct {P : σ → σ → Prop} (hdone : ∀ s, L.done s = true → P s s)
    (hbroke : ∀ s s', L.done s = false → L.turn s = .ok (s', true) → P s s')
    (hagain : ∀ s v s', L.done s = false → L.turn s = .ok (v, false) → L.run v = .ok s' → P v s' → P s s')
    (h : L.run s = .ok s') : P s s' := by
  induction hn : L.size s using Nat.strong_induction_on generalizing s with
  | _ n ih =>
    rcases run_eq_ok.mp h with ⟨hs, rfl⟩ | ⟨hs, hend | ⟨v, hv, hrest⟩⟩
    · exact hdone _ hs
    · exact hbroke s s' hs hend
    · refine hagain s v s' hs hv hrest (ih (L.size v) ?_ hrest rfl)
      rw [← hn]
      exact L.descends hs hv

/-- **A fact that every turn keeps holds at the end.** -/
theorem run_inv {I : σ → Prop}
    (hturn : ∀ {v v' : σ} {broke : Bool}, I v → L.done v = false → L.turn v = .ok (v', broke) → I v')
    (hs : I s) (h : L.run s = .ok s') : I s' := by
  refine run_induct (P := fun s s' => I s → I s') ?_ ?_ ?_ h hs
  · exact fun _ _ h => h
  · exact fun _ _ hnot hv h => hturn h hnot hv
  · exact fun _ _ _ hnot hv _ ih h => ih (hturn h hnot hv)

/-- **Two loops in lock step.** As long as the first one goes on, so does the
second, and the two stay related; where the first ends, their results are. -/
theorem run_pair {M : Loop τ} {t t' : τ} {R Q : σ → τ → Prop}
    (hdone : ∀ {s : σ} {t t' : τ}, R s t → L.done s = true → M.run t = .ok t' → Q s t')
    (hbroke : ∀ {s s' : σ} {t t' : τ}, R s t → L.done s = false → L.turn s = .ok (s', true) → M.run t = .ok t' → Q s' t')
    (hagain : ∀ {s s' : σ} {t t' : τ}, R s t → L.done s = false → L.turn s = .ok (s', false) → M.run t = .ok t' →
      ∃ u, M.run u = .ok t' ∧ R s' u)
    (hst : R s t) (h : L.run s = .ok s') (ht : M.run t = .ok t') : Q s' t' := by
  refine run_induct (P := fun s s' => ∀ t, R s t → M.run t = .ok t' → Q s' t') ?_ ?_ ?_ h t hst ht
  · exact fun _ hs _ hr hm => hdone hr hs hm
  · exact fun _ _ hs hv _ hr hm => hbroke hr hs hv hm
  · intro s v s' hs hv _ ih t hr hm
    obtain ⟨u, hu, hrel⟩ := hagain hr hs hv hm
    exact ih u hrel hu

/-! ### Failing -/

/-- The states at the heads of its turns. -/
inductive Reaches (L : Loop σ) (s : σ) : σ → Prop
  | here : Reaches L s s
  | turn {v v' : σ} : Reaches L s v → L.done v = false → L.turn v = .ok (v', false) → Reaches L s v'

theorem Reaches.trans {v : σ} (h : L.Reaches s s') (h' : L.Reaches s' v) : L.Reaches s v := by
  induction h' with
  | here => exact h
  | turn _ hd ht ih => exact .turn ih hd ht

/-- What every turn that goes on keeps holds at every head. -/
theorem Reaches.inv {I : σ → Prop} (hturn : ∀ {v v' : σ}, I v → L.done v = false → L.turn v = .ok (v', false) → I v')
    (hs : I s) (h : L.Reaches s s') : I s' := by
  induction h with
  | here => exact hs
  | turn _ hd ht ih => exact hturn ih hd ht

/-- **A loop fails exactly if a turn it comes to does.** -/
theorem run_fails_iff : (L.run s).Fails ↔ ∃ v, L.Reaches s v ∧ L.done v = false ∧ (L.turn v).Fails := by
  constructor
  · intro h
    induction hn : L.size s using Nat.strong_induction_on generalizing s with
    | _ n ih =>
      cases hs : L.done s with
      | true =>
        rw [run_done hs] at h
        exact absurd h (Checked.not_fails_ok s)
      | false =>
        rw [run_turn hs, Checked.fails_bind] at h
        rcases h with h | ⟨⟨v, broke⟩, hv, h⟩
        · exact ⟨s, .here, hs, h⟩
        · cases broke with
          | true => exact absurd h (Checked.not_fails_ok v)
          | false =>
            obtain ⟨u, hu, hd, hf⟩ := ih (L.size v) (by rw [← hn]; exact L.descends hs hv) h rfl
            exact ⟨u, (Reaches.turn .here hs hv).trans hu, hd, hf⟩
  · rintro ⟨v, hreach, hd, hf⟩
    have hback : ∀ {u}, L.Reaches s u → (L.run u).Fails → (L.run s).Fails := by
      intro u hu
      induction hu with
      | here => exact id
      | turn _ hd ht ih =>
        intro h
        apply ih
        rw [run_turn hd, ht]
        exact h
    apply hback hreach
    rw [run_turn hd, Checked.fails_bind]
    exact .inl hf

end Loop
