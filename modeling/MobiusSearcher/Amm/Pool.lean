/-
# Pools of either kind

`Pool::swap` of `crates/market/src/amm/mod.rs`, and what holds of it whichever
kind the pool is: more of a token in never gives less of the other.

Key definitions: `Pool`, `Pool.swap`.
Key theorem: `swaps_are_monotone`.
-/
import MobiusSearcher.Amm.Bins
import MobiusSearcher.Amm.Monotone

namespace MobiusSearcher
namespace Amm

/-- One pool at one moment, whichever kind it is. -/
inductive Pool
  | clmm (p : Clmm)
  | dlmm (p : Dlmm)

/-- What selling exactly `amountIn` of the pool's first token (`aToB`) or of
its second returns, at unix time `now`. -/
def Pool.swap (pool : Pool) (aToB : Bool) (amountIn : ℕ) (now : ℤ) : Checked ℕ :=
  match pool with
  | .clmm p => do
    let s ← p.swap aToB amountIn
    pure s.amountOut
  | .dlmm p => do
    let s ← p.swap aToB amountIn now
    pure s.amountOut

/-- **Swaps are monotone**, and bins give no more than they hold: what comes
out of a swap through bins is at most the sum of them, and what goes into
them, fees included, is the amount. -/
theorem swaps_are_monotone {pool : Pool} {aToB : Bool} {now : ℤ} {y b : ℕ} (hy : y < 2 ^ 64)
    (hb : pool.swap aToB y now = .ok b) :
    (∀ x a, x ≤ y → pool.swap aToB x now = .ok a → a ≤ b) ∧
    ∀ p, pool = .dlmm p → b ≤ p.held aToB ∧
      ∃ refs w, p.references now = .ok refs ∧ (p.loop aToB refs).run (p.start y) = .ok w ∧
        (w.visits.map fun v => v.input + v.fee).sum = y ∧ (w.visits.map Dlmm.Visit.got).sum = b ∧
        ∀ v ∈ w.visits, p.bins.lookup v.id = some v.bin ∧ v.got ≤ Dlmm.available aToB v.bin := by
  constructor
  · intro x a hxy ha
    unfold Pool.swap at ha hb
    cases pool with
    | clmm p =>
      obtain ⟨s, hs, ha⟩ := Checked.bind_eq_ok.mp ha
      obtain ⟨s', hs', hb⟩ := Checked.bind_eq_ok.mp hb
      rw [← Except.ok.inj ha, ← Except.ok.inj hb]
      exact Clmm.swap_mono hxy hy hs hs'
    | dlmm p =>
      obtain ⟨s, hs, ha⟩ := Checked.bind_eq_ok.mp ha
      obtain ⟨s', hs', hb⟩ := Checked.bind_eq_ok.mp hb
      rw [← Except.ok.inj ha, ← Except.ok.inj hb]
      exact Dlmm.swap_mono hxy hy hs hs'
  · rintro p rfl
    obtain ⟨s, hs, hb⟩ := Checked.bind_eq_ok.mp hb
    obtain rfl := Except.ok.inj hb
    obtain ⟨refs, w, hrefs, hw, hout, -⟩ := Dlmm.swap_eq_ok hs
    have hrec : Dlmm.Recorded p aToB y w :=
      Loop.run_inv (fun hv hdone hturn => Dlmm.Recorded.turn hv (of_decide_eq_false hdone) hturn)
        (Dlmm.recorded_start p aToB hy) hw
    refine ⟨hout.trans_le hrec.out_le, refs, w, hrefs, hw, ?_, hrec.out.trans hout.symm, hrec.held⟩
    have hinput := hrec.input
    rw [Dlmm.run_spent hw] at hinput
    exact hinput

/-- Two bins a basis point apart: a sale that empties the first one. -/
theorem swaps_are_monotone_two_bins :
    let p : Dlmm := ⟨0, 1, 10000, 0, 0, 0, 0, 30, 600, 5000, 0, 0, 0, 0,
      (AList.singleton (-1) ⟨0, 10 ^ 9, 36889799101064155792, by decide, by decide, by decide⟩).insert 0
        ⟨10 ^ 9, 10 ^ 9, 2 ^ 65, by decide, by decide, by decide⟩⟩
    1999800 ≤ 1399820015 ∧ 1399820015 ≤ p.held true := by
  intro p
  have h : (Pool.dlmm p).swap true 700000000 1000 = .ok 1399820015 := by decide +kernel
  obtain ⟨hmono, hbins⟩ := swaps_are_monotone (by norm_num) h
  exact ⟨hmono 1000000 1999800 (by norm_num) (by decide +kernel), (hbins p rfl).1⟩

end Amm
end MobiusSearcher
