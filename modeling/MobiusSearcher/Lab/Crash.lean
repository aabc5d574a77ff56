/-
# Landed swaps are applied exactly once

On a chain where a swap lands once or never (`venue`), wherever the program is
stopped and however often: once no swap is open, the swaps applied to the
account are the ones that landed, each once, with the USDC it moved
(`applied_once`). The conditions: a grid's orders are taken up one by one
(`TakenUp`), and a swap that lands shows in the wallet (`Moved`): it brings
USDC, or it takes USDC and brings more SOL than its fees. Without the first, a
sale is given what another brought (`proceeds_of_another`).

What a swap makes of the cash, the lots, the trades, the turnover and the
budget when it is applied is `Makes`, and no move but that touches what was
bought and sold (`Entered`).

Key definitions: `Moved`, `Agrees`, `replay`, `Makes`, `Entered`.
Key theorems: `keeps_agrees`, `move_entered`, `applied_once`, `proceeds_of_another`.
-/
import MobiusSearcher.Lab.OneSwap
import MobiusSearcher.Lab.Told

namespace MobiusSearcher
namespace Lab

open FloatOps Ledger

variable {F : Type}

/-- The swaps that were accounted for, with the USDC atoms each moved. -/
def moved (e : Done F) : List (Pending F × ℤ) := e.map fun l => (l.1, (l.2.2 : ℤ) - l.1.usdc)

/-- What has become of the open swap: it can still land, it did not, or it has
landed and shows. -/
def Stage (p : Pending F) (x : Ledger F) (done : List (Pending F × ℤ)) : Prop :=
  (x.Flying p ∧ x.wallet = (p.lamports, p.usdc) ∧ x.landed = done) ∨
  (x.Still ∧ x.wallet.1 ≤ p.lamports ∧ x.wallet.2 = p.usdc ∧ x.landed = done) ∨
  (x.Still ∧ Shows p x.wallet ∧ x.landed = done ++ [(p, (x.wallet.2 : ℤ) - p.usdc)])

section Stages

variable {lands : Pending F → Wallet → Wallet → Prop} {x x' : Ledger F} {p : Pending F}

theorem Stage.drifts {done : List (Pending F × ℤ)} (hl : ∀ p b a, lands p b a → Moved p b a) (h : Stage p x done)
    (hd : Drifts lands x x') : Stage p x' done := by
  rcases h with ⟨hf, hw, hdone⟩ | ⟨hs, hw₁, hw₂, hdone⟩ | ⟨hs, hw, hdone⟩
  · rcases hd.flying hf with ⟨hf', hw', hd'⟩ | ⟨hs', h1, h2, hd'⟩ | ⟨hs', hland, hd'⟩
    · exact .inl ⟨hf', hw'.trans hw, hd'.trans hdone⟩
    · rw [hw] at h1 h2
      exact .inr (.inl ⟨hs', h1, h2, hd'.trans hdone⟩)
    · rw [hw] at hland hd'
      exact .inr (.inr ⟨hs', hl _ _ _ hland, by rw [hd', hdone]⟩)
  · obtain ⟨hs', hw', hd'⟩ := hd.still hs
    exact .inr (.inl ⟨hs', by rw [hw']; exact hw₁, by rw [hw']; exact hw₂, hd'.trans hdone⟩)
  · obtain ⟨hs', hw', hd'⟩ := hd.still hs
    exact .inr (.inr ⟨hs', by rw [hw']; exact hw, by rw [hd', hdone, hw']⟩)

/-- A swap that is open and shows has landed. -/
theorem Stage.shows {done : List (Pending F × ℤ)} (h : Stage p x done) (hs : Shows p x.wallet) :
    x.Still ∧ x.landed = done ++ [(p, (x.wallet.2 : ℤ) - p.usdc)] := by
  have hno : ¬ (x.wallet.1 ≤ p.lamports ∧ x.wallet.2 = p.usdc) := by
    rintro ⟨h1, h2⟩
    unfold Shows Moved at hs
    split at hs <;> simp only at hs <;> omega
  rcases h with ⟨-, hw, -⟩ | ⟨-, h1, h2, -⟩ | ⟨hst, -, hd⟩
  · exact absurd (by simp [hw]) hno
  · exact absurd ⟨h1, h2⟩ hno
  · exact ⟨hst, hd⟩

/-- One that does not show and can no longer land did not land. -/
theorem Stage.gone {done : List (Pending F × ℤ)} (h : Stage p x done) (hs : ¬ Shows p x.wallet) (ha : ¬ x.Alive p) :
    x.Still ∧ x.landed = done := by
  rcases h with ⟨⟨rest, hf, hrest⟩, -, hd⟩ | ⟨hst, -, -, hd⟩ | ⟨-, hsh, -⟩
  · refine ⟨fun q hq => ?_, hd⟩
    rw [hf, List.mem_append, List.mem_singleton] at hq
    rcases hq with hq | rfl
    · exact hrest q hq
    · exact ha
  · exact ⟨hst, hd⟩
  · exact absurd hsh hs

theorem moved_snoc (e : Done F) (p : Pending F) (wallet : Wallet) :
    moved (e ++ [(p, wallet)]) = moved e ++ [(p, (wallet.2 : ℤ) - p.usdc)] := by simp [moved]

end Stages

variable [FloatOps F]

/-- The account of the swaps that were accounted for. -/
def replay (e : Done F) : Account F := e.foldl (fun a l => a.landed l.1 l.2) .empty

/-- The book is that of the swaps accounted for, and they are the ones that
landed, up to the one that is open. -/
structure Agrees (s : State F) (e : Done F) (x : Ledger F) : Prop where
  lots : s.account.lots = (replay e).lots
  trades : s.account.trades = (replay e).trades
  closed : s.pending = none → x.Still ∧ x.landed = moved e
  opened : ∀ p, s.pending = some p → Stage p x (moved e)

/-- A swap that is held and not sent: nothing can land, and the wallet is as it was read. -/
structure Unsent (s : State F) (e : Done F) (x : Ledger F) : Prop where
  lots : s.account.lots = (replay e).lots
  trades : s.account.trades = (replay e).trades
  still : x.Still
  landed : x.landed = moved e
  wallet : ∀ p, s.pending = some p → x.wallet = (p.lamports, p.usdc)
  held : s.pending ≠ none

/-- What a swap does to the book depends on the book only. -/
theorem landed_book {a b : Account F} (hl : a.lots = b.lots) (ht : a.trades = b.trades) (p : Pending F)
    (wallet : Wallet) : (a.landed p wallet).lots = (b.landed p wallet).lots ∧
      (a.landed p wallet).trades = (b.landed p wallet).trades := by
  unfold Account.landed
  cases p.what with
  | fund => exact ⟨hl, ht⟩
  | «raise» t => exact ⟨hl, ht⟩
  | buy => simp [Account.bought, hl, ht]
  | sell i =>
    simp only [Account.sold, hl]
    split
    · exact ⟨hl, ht⟩
    · exact ⟨rfl, by rw [ht]⟩

theorem replay_snoc (e : Done F) (p : Pending F) (wallet : Wallet) :
    replay (e ++ [(p, wallet)]) = (replay e).landed p wallet := by simp [replay]

variable {lands : Pending F → Wallet → Wallet → Prop} {x x' : Ledger F} {s : State F} {e : Done F} {p : Pending F}

theorem Agrees.drifts (hl : ∀ p b a, lands p b a → Moved p b a) (h : Agrees s e x) (hd : Drifts lands x x') :
    Agrees s e x' := by
  refine ⟨h.lots, h.trades, fun hn => ?_, fun p hp => (h.opened p hp).drifts hl hd⟩
  obtain ⟨hs', -, hd'⟩ := hd.still (h.closed hn).1
  exact ⟨hs', hd'.trans (h.closed hn).2⟩

theorem Unsent.agrees (h : Unsent s e x) : Agrees s e x := by
  refine ⟨h.lots, h.trades, fun hn => absurd hn h.held, fun p hp => .inr (.inl ⟨h.still, ?_, ?_, h.landed⟩)⟩
  · simp [h.wallet p hp]
  · simp [h.wallet p hp]

/-- Once the swap is sent it is the one in flight. -/
theorem Unsent.sent (hl : ∀ p b a, lands p b a → Moved p b a) (h : Unsent s e x) (hp : s.pending = some p)
    (hd : Drifts lands { x with flights := x.flights ++ [p] } x') : Agrees s e x' := by
  refine ⟨h.lots, h.trades, fun hn => absurd hn h.held, fun q hq => ?_⟩
  obtain rfl := Option.some.inj (hp.symm.trans hq)
  have hsent : Stage p { x with flights := x.flights ++ [p] } (moved e) :=
    .inl ⟨⟨x.flights, rfl, h.still⟩, h.wallet p hp, h.landed⟩
  exact hsent.drifts hl hd

theorem keeps_agrees (hl : ∀ p b a, lands p b a → Moved p b a) :
    Keeps (venue lands) (fun t (x : Ledger F) => t ≤ x.clock) Agrees Unsent where
  edit h hs := by
    refine ⟨hs.lots.trans h.lots, hs.trades.trans h.trades, fun hn => h.closed (hs.pending.symm.trans hn), ?_⟩
    exact fun p hp => h.opened p (hs.pending.symm.trans hp)
  reads h hx := h.drifts hl hx.1
  clocks h hx := h.drifts hl hx.1
  passes h hx := h.drifts hl hx
  late_clock hx := hx.2
  late_reads ht hx := ht.trans hx.1.clock
  holds what ts close h hn hx := by
    have h' := h.drifts hl hx.1
    obtain ⟨hst, hd⟩ := h'.closed hn
    refine ⟨h.lots, h.trades, hst, hd, ?_, nofun⟩
    rintro p ⟨rfl⟩
    simpa [eq_comm] using hx.2
  held h := h.agrees
  swaps {s e x p amount atLeast a x'} h hp hx := by
    cases a with
    | sent => exact h.sent hl hp hx
    | notSent => exact h.agrees.drifts hl hx
    | simulated => exact h.agrees.drifts hl hx
  unsent {s e x p amount atLeast a x'} h hp hx ha := by
    have hd : Drifts lands x x' := by
      cases a with
      | sent => exact absurd rfl ha
      | notSent => exact hx
      | simulated => exact hx
    obtain ⟨hst, -, hdone⟩ := hd.still h.still
    exact ⟨h.lots, h.trades, fun _ => ⟨hst, hdone.trans h.landed⟩, nofun⟩
  seen {s e x p wallet x'} h hp _ hx hs := by
    have h' := h.drifts hl hx.1
    obtain rfl : x'.wallet = wallet := by simpa [eq_comm] using hx.2
    obtain ⟨hst, hd⟩ := (h'.opened p hp).shows hs
    have hbook := landed_book h.lots h.trades p x'.wallet
    refine ⟨?_, ?_, fun _ => ⟨hst, ?_⟩, nofun⟩
    · rw [replay_snoc]
      exact hbook.1
    · rw [replay_snoc]
      exact hbook.2
    · rw [moved_snoc]
      exact hd
  gaveUp {s e x p wallet x' t} h hp ht hlate hx hs := by
    have h' := h.drifts hl hx.1
    obtain rfl : x'.wallet = wallet := by simpa [eq_comm] using hx.2
    have hdead : ¬ x'.Alive p := by
      have := hx.1.clock
      unfold Alive
      omega
    exact ⟨h.lots, h.trades, fun _ => (h'.opened p hp).gone hs hdead, nofun⟩

/-! ### What a swap makes of the account -/

/-- USD a swap brought, read off the wallet. -/
def usdBrought (p : Pending F) (wallet : Wallet) : F := lit ((wallet.2 : ℤ) - p.usdc : ℤ) / lit (10 ^ 6)

/-- USD it took. -/
def usdSpent (p : Pending F) (wallet : Wallet) : F := lit ((p.usdc : ℤ) - wallet.2 : ℤ) / lit (10 ^ 6)

/-- SOL it brought. -/
def solBrought (p : Pending F) (wallet : Wallet) : F := lit ((wallet.1 : ℤ) - p.lamports : ℤ) / lit (10 ^ 9)

/-- What a raise to `to_` USD gives the rule: what is wished, as far as the USDC
that is not the rule's goes. -/
def given (live : Live F) (s : State F) (to_ : F) (wallet : Wallet) : F :=
  maximum (minimum (to_ - budgetOf s live) (freeUsd wallet.2 s.account.cash)) (lit 0)

/-- The swap `p`, which the wallet shows, is applied once: a buy takes its USD
from the cash and makes a lot, a sale brings its USD and makes a trade of its
lot, both are turnover; the budget that is set aside is the cash, and one that
is raised brings as much cash. -/
structure Makes (live : Live F) (p : Pending F) (wallet : Wallet) (s s' : State F) : Prop where
  cash : s'.account.cash = match p.what with
    | .fund => minimum (budgetOf s live) (lit wallet.2 / lit (10 ^ 6))
    | .buy => maximum (s.account.cash - usdSpent p wallet) (lit 0)
    | .sell _ => s.account.cash + usdBrought p wallet
    | .raise to_ => s.account.cash + given live s to_ wallet
  turnover : s'.account.turnover = match p.what with
    | .buy => s.account.turnover + usdSpent p wallet
    | .sell _ => s.account.turnover + usdBrought p wallet
    | .fund | .raise _ => s.account.turnover
  lots : s'.account.lots = match p.what with
    | .buy => s.account.lots ++
        [⟨usdSpent p wallet / solBrought p wallet, solBrought p wallet, usdSpent p wallet, p.ts⟩]
    | .sell i => s.account.lots.eraseIdx i
    | .fund | .raise _ => s.account.lots
  trades : match p.what with
    | .sell i => ∃ lot, s.account.lots[i]? = some lot ∧ s'.account.trades =
        s.account.trades ++ [⟨lot.opened, p.ts, lot.usd, usdBrought p wallet - lot.usd⟩]
    | .fund | .buy | .raise _ => s'.account.trades = s.account.trades
  funded : s'.funded = match p.what with
    | .fund => true
    | .buy | .sell _ | .raise _ => s.funded
  budget : s'.budget = match p.what with
    | .raise to_ => some (budgetOf s live + given live s to_ wallet)
    | .fund | .buy | .sell _ => s.budget

/-- What a move enters in the account: the open swap, which then counts as
applied; or no swap, and what was bought and sold is as it was, and so are the
cash and the budget unless they are set by hand. -/
inductive Entered {X : Type} (d : Desk F) (w w' : World F X) : Prop
  | swap (p : Pending F) (wallet : Wallet) : w.mem.pending = some p → w'.applied = w.applied ++ [(p, wallet)] →
    Makes d.live p wallet w.mem w'.mem → Entered d w w'
  | nothing : w'.applied = w.applied → w'.mem.account.lots = w.mem.account.lots →
    w'.mem.account.trades = w.mem.account.trades → w'.mem.account.turnover = w.mem.account.turnover →
    (w'.mem.account.cash = w.mem.account.cash ∧ w'.mem.funded = w.mem.funded ∧ w'.mem.budget = w.mem.budget ∨
      Sets d w.mem w'.mem) → Entered d w w'
  /-- The program was stopped and started again. -/
  | stopped : w' = w.restart → Entered d w w'

theorem settle_makes {live : Live F} {wallet : Wallet} (h : (s.settle live p wallet false).2 = true) :
    Makes live p wallet s (s.settle live p wallet false).1 := by
  have hneg : (-(((wallet.2 : ℤ) - p.usdc : ℤ) : ℚ)) = (((p.usdc : ℤ) - wallet.2 : ℤ) : ℚ) := by
    push_cast
    ring
  have hheld := (settle_iff.mp h).2
  unfold State.settle at h ⊢
  rcases p with ⟨what, lamports, usdc, ts, close⟩
  cases what with
  | fund =>
    simp only at h ⊢
    split at h
    · rename_i hmoved
      rw [if_pos hmoved]
      exact ⟨rfl, rfl, rfl, rfl, rfl, rfl⟩
    · exact nomatch h
  | buy =>
    simp only at h hneg ⊢
    split at h
    · rename_i hmoved
      rw [if_pos hmoved, hneg]
      exact ⟨rfl, rfl, rfl, rfl, rfl, rfl⟩
    · exact nomatch h
  | sell i =>
    have hi : i < s.account.lots.length := hheld i rfl
    have hlot : s.account.lots[i]? = some s.account.lots[i] := List.getElem?_eq_getElem hi
    simp only at h ⊢
    split at h
    · rename_i hmoved
      rw [if_pos hmoved]
      unfold Account.sold
      rw [hlot]
      exact ⟨rfl, rfl, rfl, ⟨_, hlot, rfl⟩, rfl, rfl⟩
    · exact nomatch h
  | «raise» to_ =>
    simp only at h ⊢
    split at h
    · rename_i hmoved
      rw [if_pos hmoved]
      exact ⟨rfl, rfl, rfl, rfl, rfl, rfl⟩
    · exact nomatch h

/-- What is set by hand was neither bought nor sold. -/
theorem Sets.bookkeeping {d : Desk F} {s s' : State F} (h : Sets d s s') : s'.account.lots = s.account.lots ∧
    s'.account.trades = s.account.trades ∧ s'.account.turnover = s.account.turnover := by
  cases h with
  | ordered account hsame hturned => exact ⟨hsame.lots, hsame.trades, hturned⟩
  | _ => exact ⟨rfl, rfl, rfl⟩

/-- **Every move enters one swap or none**, in every run. -/
theorem move_entered {X : Type} {d : Desk F} {ch : Chain F X} {K : World F X → Op F → Prop} {w₀ : World F X}
    (h₀ : AllOpen w₀) {s s' : Shell.Status (Op.Ans (F := F)) (World F X)} (hs : (desk d ch K).Reach w₀ s)
    (hm : (desk d ch K).Moves s s') : Entered d s.world s'.world := by
  cases move_cases h₀ hs hm with
  | same h happ => exact .nothing happ (by rw [h]) (by rw [h]) (by rw [h]) (.inl (by rw [h]; exact ⟨rfl, rfl, rfl⟩))
  | swap q h happ => exact .nothing happ (by rw [h]) (by rw [h]) (by rw [h]) (.inl (by rw [h]; exact ⟨rfl, rfl, rfl⟩))
  | sets h happ =>
    obtain ⟨hlots, htrades, hturned⟩ := h.bookkeeping
    exact .nothing happ hlots htrades hturned (.inr h)
  | @settled p wallet hp _ hseen h happ =>
    refine .swap p wallet hp happ ?_
    rw [h]
    exact settle_makes hseen
  | stopped h => exact .stopped h

/-- **Landed swaps are applied exactly once.** On a chain where a swap lands
before `settledAfterMs` or never, and shows when it does; wherever a run is
stopped and however often it is started again from what was written: in every
state in which no swap is open, the swaps applied are those that landed, in
order, each once and with the USDC it moved, and the lots and trades are what
they make. So it is in what is written down. And every move applies the open
swap, to the cash, the lots, the trades, the turnover and the budget, or it
applies none. -/
theorem applied_once (d : Desk F) (hl : ∀ p b a, lands p b a → Moved p b a) (clock : ℤ) (wallet : Wallet)
    {s : Shell.Status (Op.Ans (F := F)) (World F (Ledger F))}
    (hs : (desk d (venue lands) (TakenUp d.rule)).Reach (.fresh (.start clock wallet)) s) :
    (s.world.mem.pending = none → moved s.world.applied = s.world.chain.landed ∧
      s.world.mem.account.lots = (replay s.world.applied).lots ∧
      s.world.mem.account.trades = (replay s.world.applied).trades) ∧
    (s.world.disk.pending = none → moved s.world.kept = s.world.chain.landed ∧
      s.world.disk.account.lots = (replay s.world.kept).lots ∧
      s.world.disk.account.trades = (replay s.world.kept).trades) ∧
    ∀ s', (desk d (venue lands) (TakenUp d.rule)).Moves s s' → Entered d s.world s'.world := by
  have hside : ∀ {st : State F} {e : Done F} {x : Ledger F}, Side d.rule Agrees st e x → st.pending = none →
      moved e = x.landed ∧ st.account.lots = (replay e).lots ∧ st.account.trades = (replay e).trades :=
    fun h hn => ⟨(h.2.closed hn).2.symm, h.2.lots, h.2.trades⟩
  have hfirst : Agrees (.default : State F) [] (.start clock wallet) :=
    ⟨rfl, rfl, fun _ => ⟨nofun, rfl⟩, nofun⟩
  have hstart : Joined d.rule Agrees (World.fresh (.start clock wallet) : World F (Ledger F)) :=
    ⟨⟨⟨fits_default _, hfirst⟩, ⟨fits_default _, hfirst⟩, nofun⟩, rfl⟩
  have hsafe := desk_safe (keeps_agrees hl) (fun _ _ h => h) hstart hs
  have hmoves : ∀ s', (desk d (venue lands) (TakenUp d.rule)).Moves s s' → Entered d s.world s'.world :=
    fun s' hm => move_entered ⟨.closed rfl, .closed rfl⟩ hs hm
  rcases s with w | ⟨w, q⟩
  · exact ⟨hside hsafe.good.mem, hside hsafe.good.disk, hmoves⟩
  · cases q with
    | ret u => exact ⟨hside hsafe.good.mem, hside hsafe.good.disk, hmoves⟩
    | ask o k => exact ⟨fun hn => hside (hsafe.at_ask.mem hn) hn, hside hsafe.at_ask.disk, hmoves⟩

/-! ### Runs -/

namespace TwoSales

/-- The lots that were sold. -/
def lotsOf (swaps : List (Pending ℚ × ℤ)) : List ℕ :=
  swaps.filterMap fun l => match l.1.what with
    | .sell i => some i
    | _ => none

/-- Both sales of the bar were sent; the first lands when the clock is read next. -/
def afterTwo : World ℚ (Ledger ℚ) :=
  (grid.played replies ready 60 start [lookAt 20, lookAt 10, lookAt 5, lookAt 20]).get (by decide +kernel)

/-- The next look, once the open swap is settled. -/
def nextLook : World ℚ (Ledger ℚ) × Act ℚ Unit := Shell.steps replies 7 (afterTwo, (lookAt 20).prog (trader (.grid (1 / 2) 2)))

/-- Stopped just after the first buy was sent. -/
def stopped : World ℚ (Ledger ℚ) := (Shell.steps replies 18 (start, firstBuy.prog (trader .signReversal))).1.restart

/-- Started again. -/
def restarted : World ℚ (Ledger ℚ) × Act ℚ Unit :=
  Shell.steps replies 30 (stopped, (Call.start none none 10).prog (trader .signReversal))

end TwoSales

open TwoSales in
/-- Stopped after the send, and started again: the buy is applied once. -/
theorem applied_once_after_stop : restarted.1.mem.pending = none ∧ restarted.1.applied.length = 1 ∧
    moved restarted.1.applied = restarted.1.chain.landed := by
  have hnone : restarted.1.mem.pending = none := Option.isNone_iff_eq_none.mp (by decide +kernel)
  have hstop : plain.Reach start (.idle stopped) :=
    .tail (Shell.reach_steps (n := 18) plain_replies (.tail .refl (@Shell.Moves.call _ _ _ _ plain _ firstBuy rfl))) .stop
  have hready : stopped.mem.ended = none := Option.isNone_iff_eq_none.mp (by decide +kernel)
  have hrun : plain.Reach start (.busy restarted.1 restarted.2) :=
    Shell.reach_steps (n := 30) plain_replies (hstop.tail (@Shell.Moves.call _ _ _ _ plain _ (.start none none 10) hready))
  exact ⟨hnone, by decide +kernel,
    ((applied_once (trader .signReversal) (fun _ _ _ h => h) 0 (10000000000, 25000000) hrun).1 hnone).1⟩

open TwoSales in
/-- A grid sells its second lot and its first, each over the other: what the
sale of the second brought is applied to the first. -/
theorem proceeds_of_another : ∃ s, grid.Reach start s ∧ s.world.mem.pending = none ∧
    lotsOf s.world.chain.landed = [1] ∧ lotsOf (moved s.world.applied) = [0] ∧
    moved s.world.applied ≠ s.world.chain.landed := by
  have hafter : grid.Reach start (.idle afterTwo) :=
    Shell.reach_played grid_replies ready_calls _ .refl (Option.some_get _).symm
  have hready : ready afterTwo = true := by decide +kernel
  have hnone : nextLook.1.mem.pending = none := Option.isNone_iff_eq_none.mp (by decide +kernel)
  have hland : lotsOf nextLook.1.chain.landed = [1] := by decide +kernel
  have happ : lotsOf (moved nextLook.1.applied) = [0] := by decide +kernel
  refine ⟨.busy nextLook.1 nextLook.2, Shell.reach_steps (n := 7) grid_replies (hafter.tail (.call (lookAt 20) ?_)),
    hnone, hland, happ, fun heq => ?_⟩
  · exact ready_calls _ _ hready
  · have hlots : lotsOf (moved nextLook.1.applied) = lotsOf nextLook.1.chain.landed := congrArg lotsOf heq
    rw [happ, hland] at hlots
    exact nomatch hlots

end Lab
end MobiusSearcher
