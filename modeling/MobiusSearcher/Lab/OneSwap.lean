/-
# One swap at a time

In a run from the start, whatever the chain answers and wherever the program
is stopped: no swap is sent while another is open, and no swap is held over one
that is open (`one_swap_at_a_time`). This takes a condition on a grid only:
its loop over the orders of a bar takes up the next one when the swap of the
one before is settled or was not sent (`TakenUp`). Without it, the second sale
of a bar is held over the first (`second_sale_over_first`).

Key definitions: `TakenUp`, `OneOpen`.
Key theorems: `one_swap_at_a_time`, `second_sale_over_first`.
-/
import MobiusSearcher.Lab.Ledger

namespace MobiusSearcher
namespace Lab

open FloatOps

variable {F X : Type} [FloatOps F]

/-- A run that starts: nothing is written down yet. -/
def World.fresh (x : X) : World F X := ⟨.default, .default, [], [], x⟩

/-- A grid takes up an order when no swap is open. -/
def TakenUp (r : Rule F) (w : World F X) : Op F → Prop
  | .order _ => r.isGrid = true → w.mem.pending = none
  | _ => True

/-- A swap is held and sent one at a time (`OneByOne`), and between two calls
the one that is open is written down. -/
def OneOpen : Shell.Status (Op.Ans (F := F)) (World F X) → Prop
  | .idle w => w.disk.pending = w.mem.pending
  | .busy w (.ask o _) => OneByOne w o
  | .busy _ (.ret _) => True

theorem keeps_nothing (ch : Chain F X) : Keeps ch (fun _ _ => True) (fun _ _ _ => True) (fun _ _ _ => True) where
  edit _ _ := trivial
  reads _ _ := trivial
  clocks _ _ := trivial
  passes _ _ := trivial
  late_clock _ := trivial
  late_reads _ _ := trivial
  holds _ _ _ _ _ _ := trivial
  held _ := trivial
  swaps _ _ _ := trivial
  unsent _ _ _ _ := trivial
  seen _ _ _ _ _ := trivial
  gaveUp _ _ _ _ _ _ := trivial

theorem fits_default (r : Rule F) : Fits r (.default : State F) :=
  ⟨fun _ h => (nomatch h), fun _ => Nat.zero_le _, fun _ _ h => (nomatch h)⟩

variable {d : Desk F} {ch : Chain F X} {K : World F X → Op F → Prop}

/-- An answer leaves the open swap, or closes it. -/
theorem answer_pending {w w' : World F X} {o : Op F} {a : o.Ans} (h : w.answers d.live ch o a w') (ho : OneByOne w o)
    {p : Pending F} (hp : w.mem.pending = some p) : w'.mem.pending = some p ∨ w'.mem.pending = none := by
  cases o with
  | state => exact .inl (h.2 ▸ hp)
  | set s =>
    subst h
    exact .inl (ho.trans hp)
  | hold q => exact nomatch ho.1.symm.trans hp
  | release =>
    subst h
    exact .inr rfl
  | settle q wallet lastLook =>
    obtain ⟨-, rfl⟩ := h
    exact .inl ((settle_pending ..).trans hp)
  | balances =>
    obtain ⟨x, -, rfl⟩ := h
    exact .inl hp
  | swap b n m =>
    obtain ⟨x, -, rfl⟩ := h
    exact .inl hp
  | write =>
    subst h
    exact .inl hp
  | now =>
    obtain ⟨x, -, rfl⟩ := h
    exact .inl hp
  | order q =>
    subst h
    exact .inl hp

/-- **One swap at a time.** From the start, and whatever the chain does: in
every state of a run that keeps to `TakenUp` a swap is held only when none is
open, and sent only when it is the open one, written down; and every step of it
leaves an open swap as it is or closes it. -/
theorem one_swap_at_a_time (d : Desk F) (ch : Chain F X) (x : X) {s : Shell.Status (Op.Ans (F := F)) (World F X)}
    (hs : (desk d ch (TakenUp d.rule)).Reach (.fresh x) s) :
    OneOpen s ∧ ∀ s', (desk d ch (TakenUp d.rule)).Moves s s' → ∀ p, s.world.mem.pending = some p →
      s'.world.mem.pending = some p ∨ s'.world.mem.pending = none := by
  have hstart : Joined d.rule (fun _ _ _ => True) (World.fresh x : World F X) :=
    ⟨⟨⟨fits_default _, trivial⟩, ⟨fits_default _, trivial⟩, fun _ _ h => (nomatch h)⟩, rfl⟩
  have hsafe := desk_safe (keeps_nothing ch) (fun _ _ h => h) hstart hs
  -- what is written down is the open swap, or no swap
  have hdisk : ∀ p, s.world.mem.pending = some p →
      s.world.disk.pending = some p ∨ s.world.disk.pending = none := by
    intro p hp
    have hone : (∀ p q, s.world.mem.pending = some p → s.world.disk.pending = some q → p = q) := by
      rcases s with w | ⟨w, q⟩
      · exact hsafe.good.one
      · cases q with
        | ret u => exact hsafe.good.one
        | ask o k => exact hsafe.at_ask.one
    cases hd : s.world.disk.pending with
    | none => exact .inr rfl
    | some q => exact .inl (congrArg some (hone p q hp hd).symm)
  refine ⟨?_, fun s' hm p hp => ?_⟩
  · cases s with
    | idle w => exact hsafe.same
    | busy w q =>
      cases q with
      | ret u => trivial
      | ask o k => exact hsafe.at_ask.op
  · cases hm with
    | call c hc => exact .inl hp
    | answer a ha => exact answer_pending ha.1 hsafe.at_ask.op hp
    | done => exact .inl hp
    | stop => exact hdisk p hp
    | pass h =>
      obtain ⟨x', -, rfl⟩ := h
      exact .inl hp

/-! ### Runs -/

namespace TwoSales

/-- A grid of two lots, bought half the price under the last trade, sold half over their own. -/
def trader (rule : Rule ℚ) : Desk ℚ :=
  ⟨⟨20, 1 / 2, 50, .close, none⟩, 1000000, rule, ⟨none, none⟩, 60000, true⟩

/-- Ten SOL and 25 USDC, more than the budget. -/
def opening : Ledger ℚ := .start 0 (10000000000, 25000000)

def start : World ℚ (Ledger ℚ) := .fresh opening

/-- A look at a bar that closed at this price. -/
def lookAt (price : ℚ) : Call ℚ := .look [⟨0, price, price, price, price, 0⟩] ⟨none, [], 1⟩ price price true

/-- A look at a bar that closed at 10, after one that closed at 20. -/
def firstBuy : Call ℚ := .look [⟨0, 20, 20, 20, 20, 0⟩, ⟨1, 10, 10, 10, 10, 0⟩] ⟨none, [], 1⟩ 10 10 true

def ready (w : World ℚ (Ledger ℚ)) : Bool := w.mem.ended.isNone

/-- Any run of the grid on the chain. -/
abbrev grid : Shell (Op.Ans (F := ℚ)) (World ℚ (Ledger ℚ)) (Call ℚ) :=
  desk (trader (.grid (1 / 2) 2)) (venue Moved) fun _ _ => True

def replies : World ℚ (Ledger ℚ) → (o : Op ℚ) → o.Ans × World ℚ (Ledger ℚ) := reply (trader .signReversal).live

theorem grid_replies (w : World ℚ (Ledger ℚ)) (o : Op ℚ) : grid.answers w o (replies w o).1 (replies w o).2 :=
  ⟨reply_answers _ w o, trivial⟩

/-- The runs of a rule that holds one lot at most. -/
abbrev plain : Shell (Op.Ans (F := ℚ)) (World ℚ (Ledger ℚ)) (Call ℚ) :=
  desk (trader .signReversal) (venue Moved) (TakenUp Rule.signReversal)

theorem plain_replies (w : World ℚ (Ledger ℚ)) (o : Op ℚ) : plain.answers w o (replies w o).1 (replies w o).2 := by
  refine ⟨reply_answers _ w o, ?_⟩
  cases o <;> first
    | trivial
    | exact nofun

theorem ready_calls (c : Call ℚ) (w : World ℚ (Ledger ℚ)) (hw : ready w = true) : grid.calls c w :=
  Option.isNone_iff_eq_none.mp hw

/-- The grid has bought at 10 and at 5, and the price is 20. -/
def atTwenty : World ℚ (Ledger ℚ) :=
  (grid.played replies ready 60 start [lookAt 20, lookAt 10, lookAt 5]).get (by decide +kernel)

theorem reach_atTwenty : grid.Reach start (.idle atTwenty) :=
  Shell.reach_played grid_replies ready_calls _ .refl (Option.some_get _).symm

/-- The runs of the grid in which the swap of one order is settled before the next order is taken up. -/
abbrev settling : Shell (Op.Ans (F := ℚ)) (World ℚ (Ledger ℚ)) (Call ℚ) :=
  desk (trader (.grid (1 / 2) 2)) (venue Moved) (TakenUp (.grid (1 / 2) 2))

/-- The answers of a chain on which every swap shows in the wallet that is read next. -/
def promptly (w : World ℚ (Ledger ℚ)) : (o : Op ℚ) → o.Ans × World ℚ (Ledger ℚ)
  | .balances => (some w.chain.landNext.wallet, { w with chain := w.chain.landNext })
  | o => replies w o

def vacant (w : World ℚ (Ledger ℚ)) : Op ℚ → Bool
  | .order _ => w.mem.pending.isNone
  | _ => true

theorem settling_answers (w : World ℚ (Ledger ℚ)) (o : Op ℚ) (h : vacant w o = true) :
    settling.answers w o (promptly w o).1 (promptly w o).2 := by
  constructor
  · cases o with
    | balances => exact ⟨_, ⟨landNext_drifts _, .inr rfl⟩, rfl⟩
    | _ => exact reply_answers _ w _
  · cases o with
    | order q => exact fun _ => Option.isNone_iff_eq_none.mp h
    | _ => trivial

/-- What a look at this price makes of the run. -/
def looked (w : World ℚ (Ledger ℚ)) (price : ℚ) : World ℚ (Ledger ℚ) :=
  (Shell.steps promptly 60 (w, settling.prog (lookAt price))).1

theorem reach_looked {w : World ℚ (Ledger ℚ)} {price : ℚ} (hw : settling.Reach start (.idle w)) (hready : ready w = true)
    (hok : Shell.allowed promptly vacant 60 (w, settling.prog (lookAt price)) = true)
    (hend : (Shell.steps promptly 60 (w, settling.prog (lookAt price))).2.asks = false) :
    settling.Reach start (.idle (looked w price)) :=
  Shell.reach_idle
    (Shell.reach_allowed settling_answers 60 (hw.tail (.call _ (Option.isNone_iff_eq_none.mp hready))) hok) hend

/-- Two lots bought, at 10 and at 5. -/
def twoLots : World ℚ (Ledger ℚ) := looked (looked (looked start 20) 10) 5

theorem reach_twoLots : settling.Reach start (.idle twoLots) := by
  refine reach_looked (reach_looked (reach_looked .refl ?_ ?_ ?_) ?_ ?_ ?_) ?_ ?_ ?_ <;> decide +kernel

/-- A swap is about to be held, over one that is open or not. -/
def holds (open_ : Bool) : World ℚ (Ledger ℚ) × Act ℚ Unit → Bool
  | (w, .ask (.hold _) _) => w.mem.pending.isSome == open_
  | _ => false

theorem not_oneOpen {x : World ℚ (Ledger ℚ) × Act ℚ Unit} (h : holds true x = true) : ¬ OneOpen (.busy x.1 x.2) := by
  obtain ⟨w, q⟩ := x
  cases q with
  | ret u => exact nomatch h
  | ask o k =>
    cases o with
    | hold p =>
      intro hno
      have hnone : w.mem.pending = none := hno.1
      simp [holds, hnone] at h
    | _ => exact nomatch h

end TwoSales

open TwoSales in
/-- The second sale of a bar is held over the first, which was sent and does
not show yet. -/
theorem second_sale_over_first : ∃ s, grid.Reach start s ∧ ¬ OneOpen s := by
  have hready : ready atTwenty = true := by decide +kernel
  refine ⟨_, Shell.reach_steps (n := 32) grid_replies (reach_atTwenty.tail (.call (lookAt 20) ?_)), ?_⟩
  · exact ready_calls _ _ hready
  · exact not_oneOpen (by decide +kernel)

open TwoSales in
/-- The second sale of a bar, where the first is settled when its order is taken up. -/
theorem one_swap_second_sale :
    let x := Shell.steps promptly 23 (twoLots, settling.prog (lookAt 20))
    x.1.applied.length = 3 ∧ holds false x = true ∧ OneOpen (.busy x.1 x.2) := by
  have hready : twoLots.mem.ended = none := Option.isNone_iff_eq_none.mp (by decide +kernel)
  refine ⟨by decide +kernel, by decide +kernel,
    (one_swap_at_a_time (trader (.grid (1 / 2) 2)) (venue Moved) opening ?_).1⟩
  exact Shell.reach_allowed settling_answers 23 (reach_twoLots.tail (.call (lookAt 20) hready)) (by decide +kernel)

end Lab
end MobiusSearcher
