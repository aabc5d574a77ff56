/-
# Runs of a step relation, with their history

`Run step s es t`: the events `es`, in order, lead from `s` to `t`. A run is
extended at its end, so an invariant may speak of the events so far
(`Run.history`); `Run.invariant` is the case that does not. A run whose
steps all meet a condition is a run of the step relation restricted to it
(`Run.mono` forgets the condition).

Key definition: `Run`.
Key theorems: `Run.history`, `Run.invariant`, `Run.split`.
-/
import Mathlib.Tactic

variable {σ ε : Type*}

/-- The events `es`, in order, lead from `s` to the last state. -/
inductive Run (step : σ → ε → σ → Prop) (s : σ) : List ε → σ → Prop
  | nil : Run step s [] s
  | snoc {es : List ε} {t u : σ} {e : ε} : Run step s es t → step t e u → Run step s (es ++ [e]) u

namespace Run

variable {step step' : σ → ε → σ → Prop} {s t u : σ} {es fs : List ε}

/-- What holds at the start and is kept by every step of the run holds at
its end; it may read the history. -/
theorem history {P : List ε → σ → Prop} (h0 : P [] s)
    (hs : ∀ es t e u, Run step s es t → P es t → step t e u → P (es ++ [e]) u)
    (h : Run step s es t) : P es t := by
  induction h with
  | nil => exact h0
  | snoc hr hst ih => exact hs _ _ _ _ hr ih hst

/-- An invariant of the states. -/
theorem invariant {P : σ → Prop} (h0 : P s) (hs : ∀ t e u, P t → step t e u → P u)
    (h : Run step s es t) : P t :=
  h.history (P := fun _ => P) h0 fun _ t e u _ => hs t e u

theorem mono (hle : ∀ t e u, step t e u → step' t e u) (h : Run step s es t) :
    Run step' s es t := by
  induction h with
  | nil => exact .nil
  | snoc _ hst ih => exact ih.snoc (hle _ _ _ hst)

theorem mono_mem (h : Run step s es t) (hle : ∀ e ∈ es, ∀ t u, step t e u → step' t e u) : Run step' s es t := by
  induction h with
  | nil => exact .nil
  | snoc _ hst ih =>
    exact (ih fun e he => hle e (List.mem_append_left _ he)).snoc (hle _ (by simp) _ _ hst)

theorem append (h : Run step s es t) (h' : Run step t fs u) : Run step s (es ++ fs) u := by
  induction h' with
  | nil => simpa using h
  | snoc _ hst ih => rw [← List.append_assoc]; exact ih.snoc hst

theorem single {e : ε} (h : step s e t) : Run step s [e] t := Run.nil.snoc h

/-- The last step of a run. -/
theorem last {e : ε} (h : Run step s (es ++ [e]) u) : ∃ t, Run step s es t ∧ step t e u := by
  generalize hfs : es ++ [e] = fs at h
  cases h with
  | nil => simp at hfs
  | snoc hr hst =>
    obtain ⟨rfl, h1⟩ := List.append_inj' hfs rfl
    obtain rfl : e = _ := by simpa using h1
    exact ⟨_, hr, hst⟩

/-- A run over `es ++ fs` passes through a state after `es`. -/
theorem split (h : Run step s (es ++ fs) u) : ∃ t, Run step s es t ∧ Run step t fs u := by
  induction fs using List.reverseRecOn generalizing u with
  | nil => exact ⟨u, by simpa using h, .nil⟩
  | append_singleton fs e ih =>
    rw [← List.append_assoc] at h
    obtain ⟨v, hv, hst⟩ := h.last
    obtain ⟨t, h1, h2⟩ := ih hv
    exact ⟨t, h1, h2.snoc hst⟩

/-- A run of a function, computed. -/
theorem of_foldlM {f : σ → ε → Option σ} : ∀ {es : List ε} {s t : σ}, es.foldlM f s = some t →
    Run (fun s e t => f s e = some t) s es t := by
  intro es
  induction es using List.reverseRecOn with
  | nil =>
    intro s t h
    obtain rfl : s = t := by simpa using h
    exact .nil
  | append_singleton es e ih =>
    intro s t h
    rw [List.foldlM_append] at h
    obtain ⟨u, hu, he⟩ := Option.bind_eq_some_iff.mp h
    exact (ih hu).snoc (by simpa using he)

end Run
