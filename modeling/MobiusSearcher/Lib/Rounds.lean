/-
# Loops that read as they go

A loop each round of which reads something from outside, and then goes on from
a new state or ends with a result. When every round that goes on leads down a
well-founded relation, the loop ends after finitely many rounds, whatever it
reads; when a fact is kept by rounds that all go on, it never does.

Key definition: `rounds`.
Key theorems: `rounds_end`, `rounds_never`.
-/
import Mathlib.Tactic

namespace Rounds

variable {ι σ τ : Type*}

/-- The result of the loop and the state it ends in, when it ends within `n` rounds. -/
def rounds (turn : ι → σ → σ × Option τ) : ℕ → (ℕ → ι) → σ → Option (σ × τ)
  | 0, _, _ => none
  | n + 1, reads, s =>
    match turn (reads 0) s with
    | (s, some r) => some (s, r)
    | (s, none) => rounds turn n (fun i => reads (i + 1)) s

variable {turn : ι → σ → σ × Option τ} {A : ι → Prop} {I : σ → Prop}

/-- **A loop whose rounds lead down ends**, with a result its last round vouches for. -/
theorem rounds_end {α : Type*} {lt : α → α → Prop} (hwf : WellFounded lt) (measure : σ → α) {P : τ → Prop}
    (hresult : ∀ i s s' r, A i → I s → turn i s = (s', some r) → P r)
    (hdown : ∀ i s s', A i → I s → turn i s = (s', none) → I s' ∧ lt (measure s') (measure s))
    {s : σ} (hs : I s) {reads : ℕ → ι} (hreads : ∀ n, A (reads n)) :
    ∃ n s' r, rounds turn n reads s = some (s', r) ∧ P r := by
  induction hm : measure s using hwf.induction generalizing s reads with
  | _ m ih =>
    subst hm
    rcases ht : turn (reads 0) s with ⟨s', _ | r⟩
    · obtain ⟨hs', hlt⟩ := hdown _ _ _ (hreads 0) hs ht
      obtain ⟨n, u, r, hn, hr⟩ := ih _ hlt hs' (fun n => hreads (n + 1)) rfl
      refine ⟨n + 1, u, r, ?_, hr⟩
      rw [rounds, ht]
      exact hn
    · refine ⟨1, s', r, ?_, hresult _ _ _ _ (hreads 0) hs ht⟩
      rw [rounds, ht]

/-- **A loop that is kept going never ends.** -/
theorem rounds_never (hon : ∀ i s, A i → I s → I (turn i s).1 ∧ (turn i s).2 = none) :
    ∀ (n : ℕ) {s : σ} {reads : ℕ → ι}, I s → (∀ n, A (reads n)) → rounds turn n reads s = none
  | 0, _, _, _, _ => rfl
  | n + 1, s, reads, hs, hreads => by
    obtain ⟨hs', hnone⟩ := hon _ _ (hreads 0) hs
    rcases ht : turn (reads 0) s with ⟨s', r⟩
    rw [ht] at hs' hnone
    obtain rfl : r = none := hnone
    rw [rounds, ht]
    exact rounds_never hon n hs' fun n => hreads (n + 1)

end Rounds
