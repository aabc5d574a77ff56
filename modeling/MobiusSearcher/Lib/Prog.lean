/-
# Programs that ask their world

A program is a tree of questions: at each it waits for the answer and goes on
with it (`Prog`). What the world may answer, and what becomes of the world, is
a relation; `Prog.Sound` is the rule for reasoning about a program in such a
world: a condition at every question, and one at the end.

A `Shell` makes calls, one program after another. It may be stopped at any
question and started again from what the world kept (`restart`). `Shell.safe`
is the induction over its runs: an invariant of the idle world, kept by every
call and by a restart at every question, holds in every state reached.

What was asked and answered on the way to a result is a transcript
(`Prog.Gives`).

Key definitions: `Prog`, `Prog.Gives`, `Prog.Sound`, `Shell`, `Shell.Moves`.
Key theorems: `Prog.Sound.seq`, `Shell.safe`, `Shell.Within.at_ask`, `Shell.run_steps`.
-/
import Mathlib.Logic.Relation
import Mathlib.Tactic

/-- A program whose questions `o : ε` are answered by an `ans o`. -/
inductive Prog {ε : Type} (ans : ε → Type) (α : Type) : Type
  | ret (a : α)
  | ask (o : ε) (k : ans o → Prog ans α)

namespace Prog

variable {ε : Type} {ans : ε → Type} {α β : Type}

def bind : Prog ans α → (α → Prog ans β) → Prog ans β
  | ret a, f => f a
  | ask o k, f => ask o fun a => (k a).bind f

instance : Monad (Prog ans) where
  pure := ret
  bind := bind

/-- It waits for an answer. -/
def asks : Prog ans α → Bool
  | ret _ => false
  | ask .. => true

/-- One question. -/
def query (o : ε) : Prog ans (ans o) := ask o ret

@[simp] theorem pure_eq (a : α) : (pure a : Prog ans α) = ret a := rfl

@[simp] theorem bind_eq (x : Prog ans α) (f : α → Prog ans β) : x >>= f = x.bind f := rfl

@[simp] theorem ret_bind (a : α) (f : α → Prog ans β) : (ret a).bind f = f a := rfl

@[simp] theorem ask_bind (o : ε) (k : ans o → Prog ans α) (f : α → Prog ans β) :
    (ask o k).bind f = ask o fun a => (k a).bind f := rfl

/-- The questions of a run with their answers, in order, and its result. -/
def Gives : Prog ans α → List (Σ o, ans o) → α → Prop
  | ret a, l, r => l = [] ∧ r = a
  | ask o k, l, r => ∃ a rest, l = ⟨o, a⟩ :: rest ∧ (k a).Gives rest r

theorem gives_query {o : ε} {f : ans o → Prog ans β} {b : β} {l : List (Σ o, ans o)} :
    ((query o).bind f).Gives l b ↔ ∃ a rest, l = ⟨o, a⟩ :: rest ∧ (f a).Gives rest b := Iff.rfl

variable {W : Type} (answers : W → (o : ε) → ans o → W → Prop)

/-- `P` holds at every question the program comes to, and `Q` at its end. -/
def Sound (P : W → ε → Prop) (Q : α → W → Prop) : Prog ans α → W → Prop
  | ret a, w => Q a w
  | ask o k, w => P w o ∧ ∀ a w', answers w o a w' → (k a).Sound P Q w'

variable {answers} {P : W → ε → Prop} {Q R : α → W → Prop} {S : β → W → Prop} {w : W}

theorem Sound.mono (h : ∀ a w, Q a w → R a w) : ∀ {x : Prog ans α} {w : W}, x.Sound answers P Q w →
    x.Sound answers P R w
  | ret a, w, hx => h a w hx
  | ask _ _, _, hx => ⟨hx.1, fun a w' ha => Sound.mono h (hx.2 a w' ha)⟩

theorem Sound.weaken {P' : W → ε → Prop} (h : ∀ w o, P w o → P' w o) : ∀ {x : Prog ans α} {w : W},
    x.Sound answers P Q w → x.Sound answers P' Q w
  | ret _, _, hx => hx
  | ask _ _, w, hx => ⟨h w _ hx.1, fun a w' ha => Sound.weaken h (hx.2 a w' ha)⟩

/-- The rule for one program after another. -/
theorem Sound.seq {f : α → Prog ans β} : ∀ {x : Prog ans α} {w : W}, x.Sound answers P Q w →
    (∀ a w, Q a w → (f a).Sound answers P S w) → (x.bind f).Sound answers P S w
  | ret a, w, hx, hf => hf a w hx
  | ask _ _, _, hx, hf => ⟨hx.1, fun a w' ha => Sound.seq (hx.2 a w' ha) hf⟩

theorem Sound.ite {c : Prop} [Decidable c] {x y : Prog ans α} (hx : c → x.Sound answers P Q w)
    (hy : ¬c → y.Sound answers P Q w) : (if c then x else y).Sound answers P Q w := by
  by_cases h : c
  · rw [if_pos h]
    exact hx h
  · rw [if_neg h]
    exact hy h

theorem Sound.ask {o : ε} {k : ans o → Prog ans α} (hp : P w o)
    (h : ∀ a w', answers w o a w' → (k a).Sound answers P Q w') : (Prog.ask o k).Sound answers P Q w := ⟨hp, h⟩

theorem Sound.query {o : ε} {f : ans o → Prog ans β} (hp : P w o)
    (h : ∀ a w', answers w o a w' → (f a).Sound answers P S w') : ((Prog.query o).bind f).Sound answers P S w := ⟨hp, h⟩

end Prog

/-- Calls of programs in a world. -/
structure Shell {ε : Type} (ans : ε → Type) (W C : Type) where
  prog : C → Prog ans Unit
  /-- When the call is made. -/
  calls : C → W → Prop
  answers : W → (o : ε) → ans o → W → Prop
  /-- What is left of the world when the shell is stopped and started again. -/
  restart : W → W
  /-- What may happen between two calls. -/
  passes : W → W → Prop

namespace Shell

variable {ε : Type} {ans : ε → Type} {W C : Type}

inductive Status {ε : Type} (ans : ε → Type) (W : Type)
  | idle (w : W)
  | busy (w : W) (p : Prog ans Unit)

def Status.world : Status ans W → W
  | idle w => w
  | busy w _ => w

inductive Moves (sh : Shell ans W C) : Status ans W → Status ans W → Prop
  | call {w : W} (c : C) : sh.calls c w → Moves sh (.idle w) (.busy w (sh.prog c))
  | answer {w w' : W} {o : ε} {k : ans o → Prog ans Unit} (a : ans o) :
      sh.answers w o a w' → Moves sh (.busy w (.ask o k)) (.busy w' (k a))
  | done {w : W} {u : Unit} : Moves sh (.busy w (.ret u)) (.idle w)
  /-- Stopped, at whatever question, and started again. -/
  | stop {s : Status ans W} : Moves sh s (.idle (sh.restart s.world))
  | pass {w w' : W} : sh.passes w w' → Moves sh (.idle w) (.idle w')

/-- The shell reaches the state from the idle world `w₀`. -/
def Reach (sh : Shell ans W C) (w₀ : W) (s : Status ans W) : Prop := Relation.ReflTransGen sh.Moves (.idle w₀) s

/-- The invariant in an idle state, and what remains to be shown of a call in a busy one. -/
def Safe (sh : Shell ans W C) (J : W → Prop) (P : W → ε → Prop) : Status ans W → Prop
  | .idle w => J w
  | .busy w p => p.Sound sh.answers P (fun _ w => J w) w

/-- **The induction over the runs of a shell.** -/
theorem safe (sh : Shell ans W C) {J : W → Prop} {P : W → ε → Prop} {w₀ : W} (h0 : J w₀)
    (hcall : ∀ c w, J w → sh.calls c w → (sh.prog c).Sound sh.answers P (fun _ w => J w) w)
    (hask : ∀ w o, P w o → J (sh.restart w)) (hidle : ∀ w, J w → J (sh.restart w))
    (hpass : ∀ w w', J w → sh.passes w w' → J w') {s : Status ans W} (h : sh.Reach w₀ s) : sh.Safe J P s := by
  induction h with
  | refl => exact h0
  | @tail b _ _ hm ih =>
    cases hm with
    | call c hc => exact hcall c _ ih hc
    | answer a ha => exact ih.2 a _ ha
    | done => exact ih
    | stop =>
      cases b with
      | idle w => exact hidle w ih
      | busy w p =>
        cases p with
        | ret u => exact hidle w ih
        | ask o k => exact hask w o ih.1
    | pass hp => exact hpass _ _ ih hp

theorem Safe.weaken {sh : Shell ans W C} {J : W → Prop} {P P' : W → ε → Prop} (hp : ∀ w o, P w o → P' w o) :
    ∀ {s : Status ans W}, sh.Safe J P s → sh.Safe J P' s
  | .idle _, h => h
  | .busy _ _, h => Prog.Sound.weaken hp h

/-- The condition at a question that is reached. -/
theorem Safe.at_ask {sh : Shell ans W C} {J : W → Prop} {P : W → ε → Prop} {w : W} {o : ε}
    {k : ans o → Prog ans Unit} (h : sh.Safe J P (.busy w (.ask o k))) : P w o := h.1

/-! ### Within a call -/

inductive Answers (sh : Shell ans W C) : Status ans W → Status ans W → Prop
  | answer {w w' : W} {o : ε} {k : ans o → Prog ans Unit} (a : ans o) :
      sh.answers w o a w' → Answers sh (.busy w (.ask o k)) (.busy w' (k a))

/-- A call has come from one state to the other, and was not stopped. -/
abbrev Within (sh : Shell ans W C) : Status ans W → Status ans W → Prop := Relation.ReflTransGen sh.Answers

/-- What holds at the questions of a program holds at those a call comes to. -/
theorem Within.at_ask {sh : Shell ans W C} {P : W → ε → Prop} {Q : Unit → W → Prop} {w w' : W} {p : Prog ans Unit}
    {o : ε} {k : ans o → Prog ans Unit} (h : sh.Within (.busy w p) (.busy w' (.ask o k)))
    (hp : p.Sound sh.answers P Q w) : P w' o := by
  have hrest : ∀ t, sh.Within (.busy w p) t → ∃ v q, t = .busy v q ∧ q.Sound sh.answers P Q v := by
    intro t ht
    induction ht with
    | refl => exact ⟨w, p, rfl, hp⟩
    | tail _ hm ih =>
      obtain ⟨v, q, rfl, hq⟩ := ih
      cases hm with
      | answer a ha => exact ⟨_, _, rfl, hq.2 a _ ha⟩
  obtain ⟨v, q, heq, hq⟩ := hrest _ h
  cases heq
  exact hq.1

/-- What a part of a program comes to, the program comes to, the rest still to do. -/
theorem Within.bind {sh : Shell ans W C} {w w' : W} {p q : Prog ans Unit} (h : sh.Within (.busy w p) (.busy w' q))
    (f : Unit → Prog ans Unit) : sh.Within (.busy w (p.bind f)) (.busy w' (q.bind f)) := by
  have hrest : ∀ t, sh.Within (.busy w p) t → ∃ v r, t = .busy v r ∧ sh.Within (.busy w (p.bind f)) (.busy v (r.bind f)) := by
    intro t ht
    induction ht with
    | refl => exact ⟨w, p, rfl, .refl⟩
    | tail _ hm ih =>
      obtain ⟨v, r, rfl, hr⟩ := ih
      cases hm with
      | answer a ha => exact ⟨_, _, rfl, hr.tail (.answer a ha)⟩
  obtain ⟨v, r, heq, hr⟩ := hrest _ h
  cases heq
  exact hr

/-- What a call comes to is reached. -/
theorem Within.reach {sh : Shell ans W C} {w₀ : W} {s t : Status ans W} (h : sh.Within s t) (hs : sh.Reach w₀ s) :
    sh.Reach w₀ t := by
  induction h with
  | refl => exact hs
  | tail _ hm ih =>
    cases hm with
    | answer a ha => exact ih.tail (.answer a ha)

/-! ### Computed runs -/

/-- `n` questions, each answered by `reply`. -/
def steps (reply : W → (o : ε) → ans o × W) : ℕ → W × Prog ans Unit → W × Prog ans Unit
  | 0, x => x
  | n + 1, (w, .ask o k) => steps reply n ((reply w o).2, k (reply w o).1)
  | _ + 1, (w, .ret u) => (w, .ret u)

/-- Computed questions are a run of every relation that has their steps. -/
theorem run_steps {R : Status ans W → Status ans W → Prop} {reply : W → (o : ε) → ans o × W}
    (hr : ∀ w o k, R (.busy w (.ask o k)) (.busy (reply w o).2 (k (reply w o).1))) : ∀ (n : ℕ) (w : W)
    (p : Prog ans Unit), Relation.ReflTransGen R (.busy w p) (.busy (steps reply n (w, p)).1 (steps reply n (w, p)).2)
  | 0, _, _ => .refl
  | _ + 1, _, .ret _ => .refl
  | n + 1, w, .ask o k => .head (hr w o k) (run_steps hr n (reply w o).2 (k (reply w o).1))

theorem reach_steps {sh : Shell ans W C} {reply : W → (o : ε) → ans o × W}
    (hr : ∀ w o, sh.answers w o (reply w o).1 (reply w o).2) {w₀ : W} {n : ℕ} {w : W} {p : Prog ans Unit}
    (h : sh.Reach w₀ (.busy w p)) : sh.Reach w₀ (.busy (steps reply n (w, p)).1 (steps reply n (w, p)).2) :=
  h.trans (run_steps (fun w o _ => .answer (reply w o).1 (hr w o)) n w p)

/-- Each of the questions is one of those allowed. -/
def allowed (reply : W → (o : ε) → ans o × W) (ok : W → ε → Bool) : ℕ → W × Prog ans Unit → Bool
  | 0, _ => true
  | n + 1, (w, .ask o k) => ok w o && allowed reply ok n ((reply w o).2, k (reply w o).1)
  | _ + 1, (_, .ret _) => true

/-- Computed questions are a run where those that are allowed are answered so. -/
theorem reach_allowed {sh : Shell ans W C} {reply : W → (o : ε) → ans o × W} {ok : W → ε → Bool}
    (hr : ∀ w o, ok w o = true → sh.answers w o (reply w o).1 (reply w o).2) {w₀ : W} : ∀ (n : ℕ) {w : W}
    {p : Prog ans Unit}, sh.Reach w₀ (.busy w p) → allowed reply ok n (w, p) = true →
      sh.Reach w₀ (.busy (steps reply n (w, p)).1 (steps reply n (w, p)).2)
  | 0, _, _, h, _ => h
  | _ + 1, _, .ret _, h, _ => h
  | n + 1, w, .ask o k, h, hok => by
    obtain ⟨ho, hrest⟩ := Bool.and_eq_true_iff.mp hok
    exact reach_allowed hr n (h.tail (.answer _ (hr w o ho))) hrest

theorem reach_idle {sh : Shell ans W C} {w₀ w : W} : ∀ {p : Prog ans Unit}, sh.Reach w₀ (.busy w p) →
    p.asks = false → sh.Reach w₀ (.idle w)
  | .ret _, h, _ => h.tail .done

/-- One more question. -/
theorem steps_succ (reply : W → (o : ε) → ans o × W) : ∀ (n : ℕ) (w : W) (p : Prog ans Unit),
    steps reply (n + 1) (w, p) = steps reply 1 (steps reply n (w, p))
  | 0, _, _ => rfl
  | _ + 1, _, .ret _ => rfl
  | n + 1, w, .ask o k => steps_succ reply n (reply w o).2 (k (reply w o).1)

/-- It is a move, if the program asks it and is answered so. -/
theorem move_steps {sh : Shell ans W C} {reply : W → (o : ε) → ans o × W} {n : ℕ} {w : W} {p : Prog ans Unit}
    (hr : ∀ o, sh.answers (steps reply n (w, p)).1 o (reply (steps reply n (w, p)).1 o).1
      (reply (steps reply n (w, p)).1 o).2) (h : (steps reply n (w, p)).2.asks = true) :
    sh.Moves (.busy (steps reply n (w, p)).1 (steps reply n (w, p)).2)
      (.busy (steps reply (n + 1) (w, p)).1 (steps reply (n + 1) (w, p)).2) := by
  rw [steps_succ]
  generalize steps reply n (w, p) = x at h hr ⊢
  obtain ⟨v, q⟩ := x
  cases q with
  | ret u => exact nomatch h
  | ask o k => exact .answer _ (hr o)

/-- The calls, each made when `ready` and run to its end. -/
def played (sh : Shell ans W C) (reply : W → (o : ε) → ans o × W) (ready : W → Bool) (fuel : ℕ) :
    W → List C → Option W
  | w, [] => some w
  | w, c :: cs =>
    if ready w then
      match steps reply fuel (w, sh.prog c) with
      | (w', .ret _) => sh.played reply ready fuel w' cs
      | (_, .ask ..) => none
    else none

/-- Computed calls are a run of every relation that has their steps. -/
theorem run_played {sh : Shell ans W C} {R : Status ans W → Status ans W → Prop} {reply : W → (o : ε) → ans o × W}
    {ready : W → Bool} {fuel : ℕ} (hr : ∀ w o k, R (.busy w (.ask o k)) (.busy (reply w o).2 (k (reply w o).1)))
    (hc : ∀ c w, ready w = true → R (.idle w) (.busy w (sh.prog c))) (hd : ∀ w u, R (.busy w (.ret u)) (.idle w)) :
    ∀ (cs : List C) {w w' : W}, sh.played reply ready fuel w cs = some w' →
      Relation.ReflTransGen R (.idle w) (.idle w')
  | [], _, _, hp => by
    obtain rfl := Option.some.inj hp
    exact .refl
  | c :: cs, w, w', hp => by
    unfold played at hp
    split at hp
    · rename_i hw
      have hrun := Relation.ReflTransGen.head (hc c w hw) (run_steps hr fuel w (sh.prog c))
      split at hp
      · rename_i w₁ u heq
        rw [heq] at hrun
        exact (hrun.tail (hd w₁ u)).trans (run_played hr hc hd cs hp)
      · exact nomatch hp
    · exact nomatch hp

theorem reach_played {sh : Shell ans W C} {reply : W → (o : ε) → ans o × W} {ready : W → Bool} {fuel : ℕ}
    (hr : ∀ w o, sh.answers w o (reply w o).1 (reply w o).2) (hc : ∀ c w, ready w = true → sh.calls c w) {w₀ : W}
    (cs : List C) {w w' : W} (h : sh.Reach w₀ (.idle w)) (hp : sh.played reply ready fuel w cs = some w') :
    sh.Reach w₀ (.idle w') :=
  h.trans (run_played (fun w o _ => .answer (reply w o).1 (hr w o)) (fun c w hw => .call c (hc c w hw))
    (fun _ _ => .done) cs hp)

end Shell
