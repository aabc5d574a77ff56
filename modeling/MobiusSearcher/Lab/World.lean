/-
# The trader's world

What the trader's questions are answered by: the state in memory and the one
written down, and the chain, which answers as it likes (`Chain`). A program
that is stopped starts again from what was written. Beside each of the two
states stand the swaps that were accounted for in it (`applied`, `kept`).

`desk d ch K` is the shell that makes the calls of `lab/mod.rs`; `K` is a
condition on the questions of the runs considered.

Key definitions: `Chain`, `World`, `World.answers`, `desk`.
Key theorems: the rules `sound_state` … `sound_swap`, one for each question.
-/
import MobiusSearcher.Lab.Trader

namespace MobiusSearcher
namespace Lab

open FloatOps

/-- A wallet, a venue and a clock: what they answer, and what may happen
meanwhile. A swap is given with the open swap of the state it is sent from. -/
structure Chain (F X : Type) where
  balances : X → Option Wallet → X → Prop
  swap : X → Option (Pending F) → Bool → ℕ → ℕ → Sent → X → Prop
  now : X → ℤ → X → Prop
  passes : X → X → Prop

/-- A chain that may do anything. -/
def anyChain (F : Type) : Chain F Unit :=
  ⟨fun _ _ _ => True, fun _ _ _ _ _ _ _ => True, fun _ _ _ => True, fun _ _ => True⟩

structure World (F X : Type) where
  mem : State F
  disk : State F
  /-- The swaps accounted for in memory, with the wallet that showed them. -/
  applied : List (Pending F × Wallet)
  /-- Those accounted for in what is written down. -/
  kept : List (Pending F × Wallet)
  chain : X

variable {F X : Type} [FloatOps F]

/-- What a question is answered, and what becomes of the world. -/
def World.answers (live : Live F) (ch : Chain F X) (w : World F X) : (o : Op F) → o.Ans → World F X → Prop
  | .state, a, w' => a = w.mem ∧ w' = w
  | .set s, _, w' => w' = { w with mem := s }
  | .hold p, _, w' => w' = { w with mem := { w.mem with pending := some p } }
  | .release, _, w' => w' = { w with mem := { w.mem with pending := none } }
  | .settle p wallet lastLook, a, w' =>
    a = (w.mem.settle live p wallet lastLook).2 ∧
    w' = { w with
      mem := (w.mem.settle live p wallet lastLook).1
      applied := if (w.mem.settle live p wallet false).2 then w.applied ++ [(p, wallet)] else w.applied }
  | .balances, a, w' => ∃ x, ch.balances w.chain a x ∧ w' = { w with chain := x }
  | .swap sellSol amount atLeast, a, w' =>
    ∃ x, ch.swap w.chain w.mem.pending sellSol amount atLeast a x ∧ w' = { w with chain := x }
  | .write, _, w' => w' = { w with disk := w.mem, kept := w.applied }
  | .now, a, w' => ∃ x, ch.now w.chain a x ∧ w' = { w with chain := x }
  | .order _, _, w' => w' = w

/-- The program, started again from what was written down. -/
def World.restart (w : World F X) : World F X := { w with mem := w.disk, applied := w.kept }

/-- The calls of the program on a run that has not ended, in the runs whose questions meet `K`. -/
def desk (d : Desk F) (ch : Chain F X) (K : World F X → Op F → Prop) : Shell (Op.Ans (F := F)) (World F X) (Call F) where
  prog := Call.prog d
  calls _ w := w.mem.ended = none
  answers w o a w' := w.answers d.live ch o a w' ∧ K w o
  restart := World.restart
  passes w w' := ∃ x, ch.passes w.chain x ∧ w' = { w with chain := x }

/-! ### A rule for each question -/

section Rules

variable {d : Desk F} {ch : Chain F X} {K : World F X → Op F → Prop} {P : World F X → Op F → Prop} {α : Type}
  {Q : α → World F X → Prop} {w : World F X}

theorem sound_state {k : State F → Act F α} (hp : P w .state) (h : (k w.mem).Sound (desk d ch K).answers P Q w) :
    (state.bind k).Sound (desk d ch K).answers P Q w := by
  refine Prog.Sound.ask hp ?_
  rintro a w' ⟨⟨rfl, rfl⟩, -⟩
  exact h

/-- The state is read where the condition on the questions holds. -/
theorem sound_read {k : State F → Act F α} (hp : P w .state)
    (h : K w .state → (k w.mem).Sound (desk d ch K).answers P Q w) :
    (state.bind k).Sound (desk d ch K).answers P Q w := by
  refine Prog.Sound.ask hp ?_
  rintro a w' ⟨⟨rfl, rfl⟩, hk⟩
  exact h hk

theorem sound_set {s : State F} {k : Unit → Act F α} (hp : P w (.set s))
    (h : (k ()).Sound (desk d ch K).answers P Q { w with mem := s }) :
    ((ask (.set s)).bind k).Sound (desk d ch K).answers P Q w := by
  refine Prog.Sound.ask hp ?_
  rintro ⟨⟩ w' ⟨rfl, -⟩
  exact h

theorem sound_hold {p : Pending F} {k : Unit → Act F α} (hp : P w (.hold p))
    (h : (k ()).Sound (desk d ch K).answers P Q { w with mem := { w.mem with pending := some p } }) :
    ((ask (.hold p)).bind k).Sound (desk d ch K).answers P Q w := by
  refine Prog.Sound.ask hp ?_
  rintro ⟨⟩ w' ⟨rfl, -⟩
  exact h

theorem sound_release {k : Unit → Act F α} (hp : P w .release)
    (h : (k ()).Sound (desk d ch K).answers P Q { w with mem := { w.mem with pending := none } }) :
    ((ask .release).bind k).Sound (desk d ch K).answers P Q w := by
  refine Prog.Sound.ask hp ?_
  rintro ⟨⟩ w' ⟨rfl, -⟩
  exact h

theorem sound_write {k : Unit → Act F α} (hp : P w .write)
    (h : (k ()).Sound (desk d ch K).answers P Q { w with disk := w.mem, kept := w.applied }) :
    ((ask .write).bind k).Sound (desk d ch K).answers P Q w := by
  refine Prog.Sound.ask hp ?_
  rintro ⟨⟩ w' ⟨rfl, -⟩
  exact h

theorem sound_order {o : Order F} {k : Unit → Act F α} (hp : P w (.order o))
    (h : K w (.order o) → (k ()).Sound (desk d ch K).answers P Q w) :
    ((ask (.order o)).bind k).Sound (desk d ch K).answers P Q w := by
  refine Prog.Sound.ask hp ?_
  rintro ⟨⟩ w' ⟨rfl, hk⟩
  exact h hk

theorem sound_balances {k : Option Wallet → Act F α} (hp : P w .balances)
    (h : ∀ a x, ch.balances w.chain a x → (k a).Sound (desk d ch K).answers P Q { w with chain := x }) :
    (balances.bind k).Sound (desk d ch K).answers P Q w := by
  refine Prog.Sound.ask hp ?_
  rintro a w' ⟨⟨x, hx, rfl⟩, -⟩
  exact h a x hx

theorem sound_swap {sellSol : Bool} {amount atLeast : ℕ} {k : Sent → Act F α} (hp : P w (.swap sellSol amount atLeast))
    (h : ∀ a x, ch.swap w.chain w.mem.pending sellSol amount atLeast a x →
      (k a).Sound (desk d ch K).answers P Q { w with chain := x }) :
    ((swap sellSol amount atLeast).bind k).Sound (desk d ch K).answers P Q w := by
  refine Prog.Sound.ask hp ?_
  rintro a w' ⟨⟨x, hx, rfl⟩, -⟩
  exact h a x hx

theorem sound_now {k : ℤ → Act F α} (hp : P w .now)
    (h : ∀ a x, ch.now w.chain a x → (k a).Sound (desk d ch K).answers P Q { w with chain := x }) :
    (nowMs.bind k).Sound (desk d ch K).answers P Q w := by
  refine Prog.Sound.ask hp ?_
  rintro a w' ⟨⟨x, hx, rfl⟩, -⟩
  exact h a x hx

/-- A swap that is accounted for changed the account, or is given up at the last look. -/
theorem sound_settle {p : Pending F} {wallet : Wallet} {lastLook : Bool} {k : Bool → Act F α}
    (hp : P w (.settle p wallet lastLook))
    (hseen : (w.mem.settle d.live p wallet false).2 = true → (k true).Sound (desk d ch K).answers P Q
      { w with mem := (w.mem.settle d.live p wallet false).1, applied := w.applied ++ [(p, wallet)] })
    (hnot : (w.mem.settle d.live p wallet false).2 = false → (k lastLook).Sound (desk d ch K).answers P Q w) :
    ((settle p wallet lastLook).bind k).Sound (desk d ch K).answers P Q w := by
  refine Prog.Sound.ask hp ?_
  rintro a w' ⟨⟨rfl, rfl⟩, -⟩
  have hcase : ((w.mem.settle d.live p wallet false).2 = true ∧
        w.mem.settle d.live p wallet lastLook = w.mem.settle d.live p wallet false) ∨
      ((w.mem.settle d.live p wallet false).2 = false ∧
        w.mem.settle d.live p wallet lastLook = (w.mem, lastLook)) := by
    unfold State.settle
    simp only
    cases p.what <;> (simp only; split <;> simp)
  rcases hcase with ⟨h1, h2⟩ | ⟨h1, h2⟩
  · rw [h2, h1]
    exact hseen h1
  · rw [h2, h1]
    exact hnot h1

end Rules

end Lab
end MobiusSearcher
