/-
# What the trader asks

The questions of every operation of the trader, and what is known where each is
asked: which states it sets (`Sets`), that a swap that is settled is the open
one, and that the budget is set aside by a swap only before it was (`Informed`). It holds in every run, whatever the chain does (`desk_told`); what
follows of a run is then read off its moves, with no operation unfolded again.

Key definitions: `Sets`, `Informed`, `Change`.
Key theorems: `prog_telling`, `desk_told`, `move_cases`.
-/
import MobiusSearcher.Lab.Orders
import MobiusSearcher.Lab.World

namespace MobiusSearcher
namespace Lab

open FloatOps Machine

variable {F X : Type} [FloatOps F]

/-- USDC a wallet holds beyond the rule's own. -/
def freeUsd (usdc : ℕ) (cash : F) : F := maximum (lit usdc / lit (10 ^ 6) - cash) (lit 0)

/-- A budget that can be wished. -/
def inRange (usd : F) : Prop := le minBudgetUsd usd = true ∧ le usd maxBudgetUsd = true

/-- The states the trader sets. -/
inductive Sets (d : Desk F) (s : State F) : State F → Prop
  /-- The wallet holds the budget, or nearly: it is set aside. -/
  | funded (usdc : ℕ) : s.pending = none → s.funded = false → le (budgetOf s d.live * nearly) (lit usdc / lit (10 ^ 6)) = true →
    Sets d s { s with
      funded := true
      account := { s.account with cash := minimum (lit usdc / lit (10 ^ 6)) (budgetOf s d.live) } }
  /-- The budget is changed before it is set aside. -/
  | wished (to_ : F) : s.funded = false → inRange to_ → Sets d s { s with budget := some to_ }
  | lowered (to_ : F) : s.funded = true → inRange to_ → lt to_ (budgetOf s d.live) = true →
    lt (s.account.cash + lit (1 / 10 ^ 9)) (budgetOf s d.live - to_) = false →
    Sets d s { s with
      account := { s.account with cash := maximum (s.account.cash - (budgetOf s d.live - to_)) (lit 0) }
      budget := some to_ }
  /-- Raised with USDC the wallet holds. -/
  | raised (to_ : F) (usdc : ℕ) : s.funded = true → inRange to_ → lt to_ (budgetOf s d.live) = false →
    le ((to_ - budgetOf s d.live) * nearly) (freeUsd usdc s.account.cash) = true →
    Sets d s { s with
      account := { s.account with
        cash := s.account.cash + minimum (to_ - budgetOf s d.live) (freeUsd usdc s.account.cash) }
      budget := some (budgetOf s d.live + minimum (to_ - budgetOf s d.live) (freeUsd usdc s.account.cash)) }
  | acts (to_ : Acts F) : Sets d s { s with acts := some to_ }
  | frozen : Sets d s { s with account := { s.account with frozen := true } }
  | ended (why : End) : Sets d s { s with ended := some why }
  /-- The day, the stops and the reference of a bar. -/
  | ordered (account : Account F) : SameMoney s.account account → account.turnover = s.account.turnover →
    Sets d s { s with account }

/-- The budget is set aside by a swap only before it was. -/
def FundOpen (s : State F) : Prop := ∀ p, s.pending = some p → p.what = .fund → s.funded = false

/-- In memory and in what is written down. -/
structure AllOpen (w : World F X) : Prop where
  mem : FundOpen w.mem
  disk : FundOpen w.disk

/-- What is known where a question is asked, but for the state written down. -/
def Known (d : Desk F) (w : World F X) : Op F → Prop
  | .set s => Sets d w.mem s
  | .settle p _ _ => w.mem.pending = some p ∧ (p.what = .fund → w.mem.funded = false)
  | .hold p => p.what = .fund → w.mem.funded = false
  | _ => True

structure Informed (d : Desk F) (w : World F X) (o : Op F) : Prop where
  known : Known d w o
  disk : FundOpen w.disk

section Data

variable {d : Desk F} {s s' : State F} {w : World F X} {p : Pending F}

omit [FloatOps F] in
theorem FundOpen.closed (h : s.pending = none) : FundOpen s := by
  intro p hp
  exact nomatch h.symm.trans hp

theorem Sets.pending (h : Sets d s s') : s'.pending = s.pending := by
  cases h <;> rfl

theorem FundOpen.sets (h : FundOpen s) (hs : Sets d s s') : FundOpen s' := by
  intro p hp hw
  have hf := h p (hs.pending ▸ hp) hw
  cases hs with
  | funded usdc hn => exact nomatch hn.symm.trans hp
  | _ => exact hf

theorem AllOpen.sets (h : AllOpen w) (hs : Sets d w.mem s) : AllOpen { w with mem := s } := ⟨h.mem.sets hs, h.disk⟩

omit [FloatOps F] in
theorem AllOpen.release (h : AllOpen w) : AllOpen { w with mem := { w.mem with pending := none } } :=
  ⟨.closed rfl, h.disk⟩

omit [FloatOps F] in
theorem AllOpen.chain (h : AllOpen w) (x : X) : AllOpen { w with chain := x } := ⟨h.mem, h.disk⟩

omit [FloatOps F] in
theorem AllOpen.write (h : AllOpen w) : AllOpen { w with disk := w.mem, kept := w.applied } := ⟨h.mem, h.mem⟩

theorem AllOpen.told (h : AllOpen w) {o : Op F} (ho : Known d w o) : Informed d w o := ⟨ho, h.disk⟩

end Data

/-! ### Every operation -/

section Specs

variable {d : Desk F} {ch : Chain F X} {K : World F X → Op F → Prop} {w : World F X}

/-- Asks what is told, from any world. -/
def Telling (d : Desk F) (ch : Chain F X) (K : World F X → Op F → Prop) {α : Type} (p : Act F α) : Prop :=
  ∀ w, AllOpen w → p.Sound (desk d ch K).answers (Informed d) (fun _ w' => AllOpen w') w

theorem telling_ret {α : Type} (a : α) : Telling d ch K (.ret a) := fun _ h => h

theorem telling_bind {α β : Type} {p : Act F α} {f : α → Act F β} (hp : Telling d ch K p)
    (hf : ∀ a, Telling d ch K (f a)) : Telling d ch K (p.bind f) :=
  fun w h => Prog.Sound.seq (hp w h) fun a w' h' => hf a w' h'

theorem telling_ite {α : Type} {c : Prop} [Decidable c] {p q : Act F α} (hp : Telling d ch K p)
    (hq : Telling d ch K q) : Telling d ch K (if c then p else q) := fun w h => .ite (fun _ => hp w h) fun _ => hq w h

/-- The same after the state was read. -/
theorem telling_state {α : Type} {k : State F → Act F α}
    (hk : ∀ w, AllOpen w → (k w.mem).Sound (desk d ch K).answers (Informed d) (fun _ w' => AllOpen w') w) :
    Telling d ch K (state.bind k) := fun w h => sound_state (h.told trivial) (hk w h)

theorem telling_balances {α : Type} {k : Option Wallet → Act F α} (h : AllOpen w)
    (hk : ∀ a x, (k a).Sound (desk d ch K).answers (Informed d) (fun _ w' => AllOpen w') { w with chain := x }) :
    (balances.bind k).Sound (desk d ch K).answers (Informed d) (fun _ w' => AllOpen w') w :=
  sound_balances (h.told trivial) fun a x _ => hk a x

theorem telling_set {α : Type} {s : State F} {k : Unit → Act F α} (h : AllOpen w) (hs : Sets d w.mem s)
    (hk : Telling d ch K (k ())) :
    ((ask (.set s)).bind k).Sound (desk d ch K).answers (Informed d) (fun _ w' => AllOpen w') w :=
  sound_set (h.told hs) (hk _ (h.sets hs))

theorem telling_write {α : Type} {k : Unit → Act F α} (hk : Telling d ch K (k ())) :
    Telling d ch K ((ask .write).bind k) := fun _ h => sound_write (h.told trivial) (hk _ h.write)

theorem telling_now {α : Type} {k : ℤ → Act F α} (hk : ∀ t, Telling d ch K (k t)) : Telling d ch K (nowMs.bind k) :=
  fun _ h => sound_now (h.told trivial) fun t x _ => hk t _ (h.chain x)

theorem telling_order {α : Type} {o : Order F} {k : Unit → Act F α} (hk : Telling d ch K (k ())) :
    Telling d ch K ((ask (.order o)).bind k) := fun _ h => sound_order (h.told trivial) fun _ => hk _ h

/-- The swap that is looked for is the open one, until it is accounted for. -/
theorem lookFor_telling {p : Pending F} : ∀ (n : ℕ) {w : World F X}, AllOpen w → w.mem.pending = some p →
    (lookFor p n).Sound (desk d ch K).answers (Informed d) (fun _ w' => AllOpen w') w
  | 0, _, h, _ => h
  | n + 1, w, h, hp => by
    unfold lookFor
    simp only [Prog.bind_eq]
    refine sound_balances (h.told trivial) fun a x _ => ?_
    cases a with
    | none => exact lookFor_telling n (h.chain x) hp
    | some wallet =>
      refine sound_settle ((h.chain x).told ⟨hp, h.mem p hp⟩) (fun _ => ?_) fun _ => lookFor_telling n (h.chain x) hp
      exact sound_release ⟨trivial, h.disk⟩ ⟨.closed rfl, h.disk⟩

/-- A swap is held as long as it does not set the budget aside a second time. -/
theorem actFor_told (h : AllOpen w) (what : What F) (amount atLeast : ℕ) (ts : ℤ) (close : F)
    (hf : what = .fund → w.mem.funded = false) :
    (actFor what amount atLeast ts close).Sound (desk d ch K).answers (Informed d) (fun _ w' => AllOpen w') w := by
  unfold actFor
  simp only [Prog.bind_eq]
  refine sound_balances (h.told trivial) fun a x _ => ?_
  cases a with
  | none => exact h.chain x
  | some wallet =>
    simp only
    generalize (if what.sellsSol = true then amount else min amount wallet.2) = amount
    refine .ite (fun _ => h.chain x) fun _ => ?_
    refine sound_hold ((h.chain x).told hf) ?_
    have hheld : AllOpen { w with
        mem := { w.mem with pending := some ⟨what, wallet.1, wallet.2, ts, close⟩ }, chain := x } := by
      refine ⟨?_, h.disk⟩
      rintro p ⟨rfl⟩ hw
      exact hf hw
    refine sound_write (hheld.told trivial) ?_
    have hw := hheld.write
    refine Prog.Sound.seq (Q := fun _ w' => AllOpen w') ?_ fun _ _ h' => ?_
    · refine sound_swap (hw.told trivial) fun a x' _ => ?_
      cases a with
      | sent => exact lookFor_telling 6 (hw.chain x') rfl
      | _ => exact sound_release ((hw.chain x').told trivial) (hw.chain x').release
    · exact sound_write (h'.told trivial) h'.write

/-- Nor does any other swap. -/
theorem act_telling (what : What F) (amount atLeast : ℕ) (ts : ℤ) (close : F) (hf : what ≠ .fund) :
    Telling d ch K (actFor what amount atLeast ts close) := fun _ h =>
  actFor_told h what amount atLeast ts close fun hw => absurd hw hf

theorem reconcile_telling (now : ℤ) : Telling d ch K (reconcile now) := by
  unfold reconcile
  simp only [Prog.bind_eq]
  refine telling_state fun w h => ?_
  cases hp : w.mem.pending with
  | none => exact h
  | some p =>
    refine telling_balances h fun a x => ?_
    cases a with
    | none => exact h.chain x
    | some wallet =>
      refine sound_settle ((h.chain x).told ⟨hp, h.mem p hp⟩) (fun _ => ?_) fun _ => ?_
      · refine sound_release ⟨trivial, h.disk⟩ ?_
        exact telling_write (k := .ret) (telling_ret _) _ ⟨.closed rfl, h.disk⟩
      · refine .ite (fun _ => ?_) fun _ => h.chain x
        refine sound_release ((h.chain x).told trivial) ?_
        exact telling_write (k := .ret) (telling_ret _) _ (h.chain x).release

theorem fund_telling (h : AllOpen w) (hn : w.mem.pending = none) (bid : F) (ts : ℤ) :
    (fund d bid ts).Sound (desk d ch K).answers (Informed d) (fun _ w' => AllOpen w') w := by
  unfold fund
  simp only [Prog.bind_eq]
  refine sound_state (h.told trivial) (.ite (fun _ => h) fun hfn => ?_)
  have hf : w.mem.funded = false := by
    rw [Bool.or_eq_true, not_or, Bool.not_eq_true] at hfn
    exact hfn.1
  refine telling_balances h fun a x => ?_
  cases a with
  | none => exact h.chain x
  | some wallet =>
    refine .ite (fun hle => ?_) fun _ => ?_
    · exact telling_set (k := .ret) (h.chain x) (.funded wallet.2 hn hf hle) (telling_ret _)
    · generalize wrapU64 (_ + wrapU64 (d.feeReserve + fundHeadroom)) = least
      refine .ite (fun _ => h.chain x) fun _ => ?_
      exact Prog.Sound.seq (actFor_told (h.chain x) .fund _ 0 ts bid fun _ => hf) fun _ _ h' => h'

theorem rebudget_telling (to_ bid : F) (ts : ℤ) : Telling d ch K (rebudget d to_ bid ts) := by
  unfold rebudget
  simp only [Prog.bind_eq]
  refine telling_state fun w h => .ite (fun _ => h) fun _ => .ite (fun _ => h) fun hrange => ?_
  have hr : inRange to_ := by simpa [inRange] using hrange
  refine Prog.Sound.seq (reconcile_telling ts w h) fun _ w h => ?_
  refine sound_state (h.told trivial) (.ite (fun _ => h) fun _ => .ite (fun _ => h) fun _ => ?_)
  refine .ite (fun hf => ?_) fun hf => .ite (fun hlt => ?_) fun hlt => ?_
  · exact telling_set h (.wished to_ (by simpa using hf) hr) (telling_write (telling_ret _))
  · unfold lower
    refine .ite (fun _ => h) fun hback => ?_
    exact telling_set h (.lowered to_ (by simpa using hf) hr hlt (by simpa using hback)) (telling_write (telling_ret _))
  · unfold raise
    simp only [Prog.bind_eq]
    refine telling_balances h fun a x => ?_
    cases a with
    | none => exact h.chain x
    | some wallet =>
      refine .ite (fun hle => ?_) fun _ => .ite (fun _ => h.chain x) fun _ => ?_
      · exact telling_set (h.chain x) (.raised to_ wallet.2 (by simpa using hf) hr (by simpa using hlt) hle)
          (telling_write (telling_ret _))
      · exact telling_bind (act_telling (.raise to_) _ 0 ts bid nofun)
          (fun _ => telling_ite (telling_ret _) (telling_ret _)) _ (h.chain x)

theorem sellAllLoop_telling (ts : ℤ) (close : F) : ∀ n, Telling d ch K (sellAllLoop ts close n)
  | 0 => telling_ret _
  | n + 1 => by
    unfold sellAllLoop
    simp only [Prog.bind_eq]
    refine telling_state fun w h => ?_
    split
    · exact h
    · refine telling_bind (act_telling (.sell _) _ 0 ts close nofun) (fun _ => ?_) w h
      exact telling_ite (sellAllLoop_telling ts close n) (telling_ret _)

theorem sellAll_telling (ts : ℤ) (close : F) : Telling d ch K (sellAll ts close) := by
  unfold sellAll
  exact telling_state fun w h => sellAllLoop_telling ts close _ w h

theorem takeGains_telling (take bid : F) (ts : ℤ) (close : F) : ∀ n, Telling d ch K (takeGains d take bid ts close n)
  | 0 => telling_ret _
  | lot + 1 => by
    unfold takeGains
    simp only [Prog.bind_eq]
    refine telling_state fun w h => .ite (fun _ => h) fun _ => ?_
    split
    · exact h
    · refine .ite (fun _ => ?_) fun _ => takeGains_telling take bid ts close lot w h
      exact telling_bind (act_telling (.sell lot) _ _ ts close nofun) (fun _ => takeGains_telling take bid ts close lot)
        w h

theorem ruleSells_telling (ts : ℤ) (close : F) : ∀ sells, Telling d ch K (ruleSells ts close sells)
  | [] => telling_ret _
  | i :: rest => by
    unfold ruleSells
    simp only [Prog.bind_eq]
    refine telling_state fun w h => ?_
    split
    · exact ruleSells_telling ts close rest w h
    · refine telling_order (telling_bind (act_telling (.sell i) _ 0 ts close nofun) fun _ => ?_) w h
      exact ruleSells_telling ts close rest

theorem ruleBuys_telling (ts : ℤ) (close : F) : ∀ wanted, Telling d ch K (ruleBuys ts close wanted)
  | [] => telling_ret _
  | .sell _ :: rest => ruleBuys_telling ts close rest
  | .buy usd :: rest => by
    unfold ruleBuys
    simp only [Prog.bind_eq]
    refine telling_state fun w h => telling_order (telling_bind (act_telling .buy _ 0 ts close nofun) fun _ => ?_) w h
    exact ruleBuys_telling ts close rest

theorem ruleOrders_telling (bars : List (Bar F)) (ctx : Ctx F) (close : F) (ts : ℤ) :
    Telling d ch K (ruleOrders d bars ctx close ts) := by
  unfold ruleOrders
  simp only [Prog.bind_eq]
  refine telling_state fun w h => ?_
  have hsame := orders_same d.rule ⟨d.stops.dailyLoss, none⟩ (budgetOf w.mem d.live) w.mem.account bars ctx
  have hturned := orders_turnover d.rule ⟨d.stops.dailyLoss, none⟩ (budgetOf w.mem d.live) w.mem.account bars ctx
  generalize orders d.rule ⟨d.stops.dailyLoss, none⟩ (budgetOf w.mem d.live) w.mem.account bars ctx = both at hsame hturned
  obtain ⟨wanted, account⟩ := both
  refine telling_set h (.ordered account hsame hturned) ?_
  exact telling_bind (ruleSells_telling ts close _) fun _ => ruleBuys_telling ts close wanted

theorem stopRun_telling (close : F) (ts : ℤ) : Telling d ch K (stopRun close ts) := by
  unfold stopRun
  simp only [Prog.bind_eq]
  refine telling_state fun w h => telling_set h .frozen (telling_bind (sellAll_telling ts close) fun _ => ?_)
  refine telling_ite ?_ (telling_ret _)
  exact telling_state fun w h => telling_set (k := .ret) h (.ended .stopped) (telling_ret _)

theorem changeActs_telling (to_ : Acts F) : Telling d ch K (changeActs d to_) := by
  unfold changeActs
  simp only [Prog.bind_eq]
  refine telling_state fun w h => .ite (fun _ => h) fun _ => .ite (fun _ => h) fun _ => ?_
  exact telling_set h (.acts to_) (telling_write (k := .ret) (telling_ret _))

theorem tradeBar_telling (bars : List (Bar F)) (ctx : Ctx F) (close bid : F) (ts : ℤ) :
    Telling d ch K (tradeBar d bars ctx close bid ts) := by
  unfold tradeBar
  simp only [Prog.bind_eq]
  refine telling_state fun w h => ?_
  cases (actsOf w.mem d.live).takeProfit with
  | none => exact ruleOrders_telling bars ctx close ts w h
  | some take =>
    refine Prog.Sound.seq (takeGains_telling take bid ts close _ w h) fun _ w' h' => ?_
    refine sound_state (h'.told trivial) (.ite (fun _ => h') fun _ => ?_)
    exact ruleOrders_telling bars ctx close ts w' h'

theorem onBar_telling (bars : List (Bar F)) (ctx : Ctx F) (bid : F) (ts : ℤ) :
    Telling d ch K (onBar d bars ctx bid ts) := by
  unfold onBar
  simp only [Prog.bind_eq]
  split
  · exact telling_ret _
  rename_i bar _
  refine telling_state fun w h => .ite (fun _ => h) fun _ => ?_
  refine Prog.Sound.seq (reconcile_telling ts w h) fun _ w h => ?_
  refine sound_state (h.told trivial) (.ite (fun _ => h) fun hn => ?_)
  refine Prog.Sound.seq (fund_telling h (by simpa using hn) bid ts) fun _ w h => ?_
  refine sound_state (h.told trivial) (.ite (fun _ => h) fun _ => ?_)
  exact .ite (fun _ => stopRun_telling bar.close ts w h) fun _ => tradeBar_telling bars ctx bar.close bid ts w h

theorem look_telling (bars : List (Bar F)) (ctx : Ctx F) (bid ask_ : F) (ts : ℤ) :
    Telling d ch K (look d bars ctx bid ask_ ts) := by
  unfold look
  simp only [Prog.bind_eq]
  exact telling_state fun w h => .ite (fun _ => h) fun _ => onBar_telling bars ctx bid ts w h

/-- **Every call asks what is told.** -/
theorem prog_telling (c : Call F) : Telling d ch K (c.prog d) := by
  have hwrite : Telling (X := X) d ch K (ask .write) := telling_write (k := .ret) (telling_ret _)
  cases c with
  | start toActs toBudget bid =>
    -- the budget is set aside last, after the wishes left for it
    have hfund : Telling d ch K (state.bind fun s => if s.pending.isNone then
        nowMs.bind fun t => (fund d bid t).bind fun _ => ask .write else ask .write) := by
      refine telling_state fun w h => .ite (fun hn => ?_) fun _ => hwrite w h
      refine sound_now (h.told trivial) fun t x _ => ?_
      exact Prog.Sound.seq (fund_telling (h.chain x) (by simpa using hn) bid t) fun _ w h => hwrite w h
    have hwish : ∀ to_, Telling d ch K (nowMs.bind fun t => (rebudget d to_ bid t).bind fun _ =>
        state.bind fun s => if s.pending.isNone then nowMs.bind fun t => (fund d bid t).bind fun _ => ask .write
          else ask .write) :=
      fun to_ => telling_now fun t => telling_bind (rebudget_telling to_ bid t) fun _ => hfund
    simp only [Call.prog, Prog.bind_eq]
    refine telling_now fun t => telling_bind (reconcile_telling t) fun _ => ?_
    cases toActs with
    | none =>
      cases toBudget with
      | none => exact hfund
      | some to_ => exact hwish to_
    | some acts =>
      refine telling_bind (changeActs_telling acts) fun _ => ?_
      cases toBudget with
      | none => exact hfund
      | some to_ => exact hwish to_
  | acts to_ => exact changeActs_telling to_
  | wish to_ bid =>
    simp only [Call.prog, Prog.bind_eq]
    exact telling_now fun t => telling_bind (rebudget_telling to_ bid t) fun _ => hwrite
  | look bars ctx bid ask_ saves =>
    simp only [Call.prog, Prog.bind_eq]
    exact telling_now fun t => telling_bind (look_telling bars ctx bid ask_ t) fun _ => telling_ite hwrite (telling_ret _)
  | close bid =>
    simp only [Call.prog, Prog.bind_eq]
    refine telling_now fun t => telling_bind (reconcile_telling t) fun _ => telling_state fun w h => ?_
    refine .ite (fun _ => ?_) fun _ => hwrite w h
    refine sound_now (h.told trivial) fun t x _ => ?_
    refine Prog.Sound.seq (sellAll_telling t bid _ (h.chain x)) fun _ w h => .ite (fun _ => ?_) fun _ => hwrite w h
    exact sound_state (h.told trivial) (telling_set h (.ended .closedByHand) hwrite)

/-- From a start, in every run: between calls the budget is set aside by a swap
only before it was, and where a question is asked what is told holds. -/
theorem desk_told {w₀ : World F X} (h₀ : AllOpen w₀) {s : Shell.Status (Op.Ans (F := F)) (World F X)}
    (hs : (desk d ch K).Reach w₀ s) : (desk d ch K).Safe AllOpen (Informed d) s := by
  refine Shell.safe _ h₀ (fun c w h _ => prog_telling c w h) (fun w o h => ⟨h.disk, h.disk⟩) (fun w h => ⟨h.disk, h.disk⟩)
    (fun w w' h hp => ?_) hs
  obtain ⟨x, -, rfl⟩ := hp
  exact h.chain x

/-! ### The moves of a run -/

/-- What a move makes of the state in memory, and of the swaps accounted for in it. -/
inductive Change (d : Desk F) (w w' : World F X) : Prop
  | same : w'.mem = w.mem → w'.applied = w.applied → Change d w w'
  /-- A swap is held, or released. -/
  | swap (q : Option (Pending F)) : w'.mem = { w.mem with pending := q } → w'.applied = w.applied → Change d w w'
  | sets : Sets d w.mem w'.mem → w'.applied = w.applied → Change d w w'
  /-- The open swap is accounted for. -/
  | settled {p : Pending F} {wallet : Wallet} : w.mem.pending = some p → (p.what = .fund → w.mem.funded = false) →
    (w.mem.settle d.live p wallet false).2 = true → w'.mem = (w.mem.settle d.live p wallet false).1 →
    w'.applied = w.applied ++ [(p, wallet)] → Change d w w'
  /-- The program was stopped and started again. -/
  | stopped : w' = w.restart → Change d w w'

theorem settle_same {s : State F} {live : Live F} {p : Pending F} {wallet : Wallet}
    (h : (s.settle live p wallet false).2 ≠ true) : (s.settle live p wallet false).1 = s := by
  unfold State.settle at h ⊢
  cases hw : p.what <;> simp only [hw] at h ⊢ <;> split <;> simp_all

/-- **What a move can do to the state in memory**, in every run. -/
theorem move_cases {w₀ : World F X} (h₀ : AllOpen w₀) {s s' : Shell.Status (Op.Ans (F := F)) (World F X)}
    (hs : (desk d ch K).Reach w₀ s) (hm : (desk d ch K).Moves s s') : Change d s.world s'.world := by
  have hsafe := desk_told h₀ hs
  cases hm with
  | call c hc => exact .same rfl rfl
  | done => exact .same rfl rfl
  | stop => exact .stopped rfl
  | pass hp =>
    obtain ⟨x, -, rfl⟩ := hp
    exact .same rfl rfl
  | @answer w w' o k a ha =>
    have hknown : Known d w o := hsafe.at_ask.known
    obtain ⟨ha, -⟩ := ha
    show Change d w w'
    cases o with
    | state =>
      obtain ⟨-, rfl⟩ := ha
      exact .same rfl rfl
    | set s =>
      subst ha
      exact .sets hknown rfl
    | hold p =>
      subst ha
      exact .swap _ rfl rfl
    | release =>
      subst ha
      exact .swap _ rfl rfl
    | settle p wallet lastLook =>
      obtain ⟨-, rfl⟩ := ha
      have hlook : (w.mem.settle d.live p wallet lastLook).1 = (w.mem.settle d.live p wallet false).1 := by
        unfold State.settle
        cases p.what <;> simp only <;> split <;> rfl
      by_cases hseen : (w.mem.settle d.live p wallet false).2 = true
      · exact .settled hknown.1 hknown.2 hseen hlook (if_pos hseen)
      · exact .same (hlook.trans (settle_same hseen)) (if_neg hseen)
    | balances =>
      obtain ⟨x, -, rfl⟩ := ha
      exact .same rfl rfl
    | swap b n m =>
      obtain ⟨x, -, rfl⟩ := ha
      exact .same rfl rfl
    | write =>
      subst ha
      exact .same rfl rfl
    | now =>
      obtain ⟨x, -, rfl⟩ := ha
      exact .same rfl rfl
    | order q =>
      subst ha
      exact .same rfl rfl

end Specs

end Lab
end MobiusSearcher
