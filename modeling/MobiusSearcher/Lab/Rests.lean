/-
# A rule that acts on the price rests after a sale

A look made when no swap is open and no lot is held, after the last sale that
was accounted for: none is made in it, and within a bar of the sale it buys
nothing if the sale was at a loss, and else only under a price from which the
price it sold at is a gain again (`rests_after_sale`). The book knows of the
sale what the swap was sent with (`Booked`), over restarts.

A look that begins with an open swap is not held to it, nor one with other
lots held: `buys_back` has a buy in the look that sees the sale, and one by a
grid that still holds a lot.

Key definitions: `lastSale`, `Booked`, `Quiet`.
Key theorems: `deed_booked`, `onBar_quiet`, `rests_after_sale`, `buys_back`.
-/
import MobiusSearcher.Lab.Final

namespace MobiusSearcher
namespace Lab

open FloatOps Machine

/-- The last sale that was accounted for. -/
def lastSale {F : Type} (e : Done F) : Option (Pending F) :=
  (e.filterMap fun l => match l.1.what with
    | .sell _ => some l.1
    | _ => none).getLast?

variable {F X : Type}

/-- The last trade of the book is the last sale, and while nothing was bought
since the reference is the price it was sold at. -/
def Booked (s : State F) (e : Done F) : Prop := ∀ p, lastSale e = some p → ∃ sale,
  s.account.trades.getLast? = some sale ∧ sale.closed = p.ts ∧ (s.account.lots = [] → s.account.reference = some p.close)

/-- So in memory and in what is written down. -/
structure AllBooked (w : World F X) : Prop where
  mem : Booked w.mem w.applied
  disk : Booked w.disk w.kept

/-- Nothing was bought or sold, and a reference that there was is as it was. -/
structure Edits (s s' : State F) : Prop where
  lots : s'.account.lots = s.account.lots
  trades : s'.account.trades = s.account.trades
  reference : ∀ r, s.account.reference = some r → s'.account.reference = some r

/-- The state is set. -/
def Op.sets {F : Type} : Op F → Bool
  | .set _ => true
  | _ => false

/-- A state is set by an edit of the one in memory. -/
structure Booking (w : World F X) (o : Op F) : Prop where
  booked : AllBooked w
  edits : ∀ s, o = .set s → Edits w.mem s

/-- Nothing was sold since. -/
structure Quiet (w w' : World F X) : Prop where
  sale : lastSale w'.applied = lastSale w.applied
  trades : w'.mem.account.trades = w.mem.account.trades

section Data

variable {s s' : State F} {e : Done F} {p : Pending F} {w w' w'' : World F X}

theorem lastSale_snoc (wallet : Wallet) :
    lastSale (e ++ [(p, wallet)]) = (match p.what with | .sell _ => some p | _ => lastSale e) := by
  unfold lastSale
  rw [List.filterMap_append]
  cases hw : p.what <;> simp [hw]

theorem lastSale_other (hp : ∀ i, p.what ≠ .sell i) (wallet : Wallet) : lastSale (e ++ [(p, wallet)]) = lastSale e := by
  rw [lastSale_snoc]
  cases hw : p.what with
  | sell i => exact absurd hw (hp i)
  | _ => rfl

theorem Booked.edit (h : Booked s e) (hs : Edits s s') : Booked s' e := by
  intro p hp
  obtain ⟨sale, hsale, hts, href⟩ := h p hp
  refine ⟨sale, by rw [hs.trades, hsale], hts, fun hl => ?_⟩
  exact hs.reference _ (href (hs.lots ▸ hl))

theorem AllBooked.edit (h : AllBooked w) (hs : Edits w.mem s) : AllBooked { w with mem := s } :=
  ⟨h.mem.edit hs, h.disk⟩

theorem AllBooked.asks (h : AllBooked w) {o : Op F} (ho : o.sets = false) : Booking w o := by
  refine ⟨h, fun s hs => ?_⟩
  rw [hs] at ho
  exact nomatch ho

theorem AllBooked.write (h : AllBooked w) : AllBooked { w with disk := w.mem, kept := w.applied } := ⟨h.mem, h.mem⟩

theorem AllBooked.restart (h : AllBooked w) : AllBooked w.restart := ⟨h.disk, h.disk⟩

theorem AllBooked.chain (h : AllBooked w) (x : X) : AllBooked { w with chain := x } := ⟨h.mem, h.disk⟩

theorem Quiet.refl (w : World F X) : Quiet w w := ⟨rfl, rfl⟩

end Data

variable [FloatOps F]

section Data

variable {s : State F} {e : Done F} {p : Pending F} {live : Live F} {wallet : Wallet}

/-- A swap other than a buy and a sale touches neither the lots, the trades nor the reference. -/
theorem settle_edits (hbuy : p.what ≠ .buy) (hsell : ∀ i, p.what ≠ .sell i) (lastLook : Bool) :
    Edits s (s.settle live p wallet lastLook).1 := by
  unfold State.settle
  simp only
  cases hw : p.what with
  | buy => exact absurd hw hbuy
  | sell i => exact absurd hw (hsell i)
  | _ => simp only; split <;> exact ⟨rfl, rfl, fun _ => id⟩

/-- A sale that is accounted for is the last trade. -/
theorem Booked.seen (h : Booked s e) (hseen : (s.settle live p wallet false).2 = true) :
    Booked (s.settle live p wallet false).1 (e ++ [(p, wallet)]) := by
  have hbook := settle_book hseen
  cases hw : p.what with
  | sell i =>
    obtain ⟨hshows, hheld⟩ := settle_iff.mp hseen
    have hi : i < s.account.lots.length := hheld i hw
    have hlot : s.account.lots[i]? = some (s.account.lots[i]) := List.getElem?_eq_getElem hi
    intro q hq
    rw [lastSale_snoc, hw] at hq
    obtain rfl := Option.some.inj hq
    have hbrings : p.usdc < wallet.2 := by
      unfold Shows Moved at hshows
      rw [hw] at hshows
      exact hshows
    have hsold : (s.settle live p wallet false).1.account =
        s.account.sold i (lit ((wallet.2 : ℤ) - p.usdc : ℤ) / lit (10 ^ 6)) p.ts p.close := by
      unfold State.settle
      simp only [hw]
      rw [if_pos ⟨by omega, hi⟩]
    rw [hsold]
    unfold Account.sold
    simp only [hlot, List.getLast?_concat]
    exact ⟨_, rfl, rfl, fun _ => trivial⟩
  | buy =>
    intro q hq
    rw [lastSale_snoc, hw] at hq
    obtain ⟨sale, hsale, hts, -⟩ := h q hq
    refine ⟨sale, ?_, hts, fun hl => ?_⟩
    · rw [hbook.trades]
      simp only [Account.landed, hw, Account.bought]
      exact hsale
    · rw [hbook.lots] at hl
      simp [Account.landed, hw, Account.bought] at hl
  | fund =>
    intro q hq
    rw [lastSale_snoc, hw] at hq
    refine h.edit (settle_edits ?_ ?_ false) q hq <;> simp [hw]
  | «raise» to_ =>
    intro q hq
    rw [lastSale_snoc, hw] at hq
    refine h.edit (settle_edits ?_ ?_ false) q hq <;> simp [hw]

/-- The last look changes what is answered, and not the state. -/
theorem settle_lastLook (lastLook : Bool) :
    (s.settle live p wallet lastLook).1 = (s.settle live p wallet false).1 := by
  unfold State.settle
  cases p.what <;> simp only <;> split <;> rfl

theorem settle_unseen (h : (s.settle live p wallet false).2 ≠ true) : (s.settle live p wallet false).1 = s := by
  unfold State.settle at h ⊢
  cases hw : p.what <;> simp only [hw] at h ⊢ <;> split <;> simp_all

theorem Booked.settled (h : Booked s e) {lastLook : Bool} : Booked (s.settle live p wallet lastLook).1
    (if (s.settle live p wallet false).2 then e ++ [(p, wallet)] else e) := by
  rw [settle_lastLook]
  by_cases hseen : (s.settle live p wallet false).2 = true
  · rw [if_pos hseen]
    exact h.seen hseen
  · rw [if_neg hseen, settle_unseen hseen]
    exact h

/-- The orders of a bar keep a reference that there was. -/
theorem orders_edits (rule : Rule F) (stops : Stops F) (capital : F) (bars : List (Bar F)) (ctx : Ctx F) :
    Edits s { s with account := (orders rule stops capital s.account bars ctx).2 } := by
  obtain ⟨-, hlots, htrades⟩ := orders_same rule stops capital s.account bars ctx
  refine ⟨hlots, htrades, fun r hr => ?_⟩
  have hmark : ∀ bar, (s.account.mark stops capital bar).reference = some r := by
    intro bar
    unfold Account.mark
    simp only [hr, Option.some_or]
    split <;> split <;> rfl
  show (orders rule stops capital s.account bars ctx).2.reference = some r
  unfold orders
  split
  · exact hr
  · rename_i bar _
    simp only
    rw [← hmark bar]
    split <;> (repeat' split) <;> rfl

end Data

/-! ### The book, through every operation -/

section Specs

variable {d : Desk F} {ch : Chain F X} {w : World F X}

/-- Keeps the book, from any world. -/
def Keeping (d : Desk F) (ch : Chain F X) {α : Type} (p : Act F α) : Prop :=
  ∀ w, AllBooked w → p.Sound (hears d ch) Booking (fun _ w' => AllBooked w') w

theorem keeping_ret {α : Type} (a : α) : Keeping d ch (.ret a) := fun _ h => h

theorem keeping_bind {α β : Type} {p : Act F α} {f : α → Act F β} (hp : Keeping d ch p)
    (hf : ∀ a, Keeping d ch (f a)) : Keeping d ch (p.bind f) :=
  fun w h => Prog.Sound.seq (hp w h) fun a w' h' => hf a w' h'

theorem keeping_ite {α : Type} {c : Prop} [Decidable c] {p q : Act F α} (hp : Keeping d ch p) (hq : Keeping d ch q) :
    Keeping d ch (if c then p else q) := fun w h => .ite (fun _ => hp w h) fun _ => hq w h

/-- A question that sets no state keeps the book. -/
theorem keeping_ask {o : Op F} (ho : o.sets = false) : Keeping d ch (ask o) := by
  intro w h
  refine Prog.Sound.ask (h.asks ho) fun a w' ha => ?_
  obtain ⟨ha, -⟩ := ha
  show AllBooked w'
  cases o with
  | set s => exact nomatch ho
  | state =>
    rw [ha.2]
    exact h
  | hold q =>
    subst ha
    exact ⟨h.mem.edit ⟨rfl, rfl, fun _ => id⟩, h.disk⟩
  | release =>
    subst ha
    exact ⟨h.mem.edit ⟨rfl, rfl, fun _ => id⟩, h.disk⟩
  | settle q wallet lastLook =>
    obtain ⟨-, rfl⟩ := ha
    exact ⟨h.mem.settled, h.disk⟩
  | balances =>
    obtain ⟨x, -, rfl⟩ := ha
    exact h.chain x
  | swap b n m =>
    obtain ⟨x, -, rfl⟩ := ha
    exact h.chain x
  | write =>
    subst ha
    exact h.write
  | now =>
    obtain ⟨x, -, rfl⟩ := ha
    exact h.chain x
  | order q =>
    subst ha
    exact h

/-- The same after the state was read. -/
theorem keeping_state {α : Type} {k : State F → Act F α}
    (hk : ∀ w, AllBooked w → (k w.mem).Sound (hears d ch) Booking (fun _ w' => AllBooked w') w) :
    Keeping d ch (state.bind k) := fun w h => sound_state (h.asks rfl) (hk w h)

/-- A state is set by an edit, and the rest follows. -/
theorem keeping_set {α : Type} {s : State F} {k : Unit → Act F α} (h : AllBooked w) (hs : Edits w.mem s)
    (hk : Keeping d ch (k ())) : ((ask (.set s)).bind k).Sound (hears d ch) Booking (fun _ w' => AllBooked w') w := by
  refine sound_set ⟨h, fun s' heq => ?_⟩ (hk _ (h.edit hs))
  obtain rfl := Op.set.inj heq
  exact hs

/-- The wallet is read, and what follows is in the same memory. -/
theorem keeping_balances {α : Type} {k : Option Wallet → Act F α} (h : AllBooked w)
    (hk : ∀ a x, (k a).Sound (hears d ch) Booking (fun _ w' => AllBooked w') { w with chain := x }) :
    (balances.bind k).Sound (hears d ch) Booking (fun _ w' => AllBooked w') w :=
  sound_balances (h.asks rfl) fun a x _ => hk a x

theorem lookFor_keeping (p : Pending F) : ∀ n, Keeping d ch (lookFor p n)
  | 0 => keeping_ret _
  | n + 1 => by
    unfold lookFor
    simp only [Prog.bind_eq]
    refine keeping_bind (keeping_ask rfl) fun a => ?_
    cases a with
    | none => exact lookFor_keeping p n
    | some wallet =>
      refine keeping_bind (keeping_ask rfl) fun seen => keeping_ite ?_ (lookFor_keeping p n)
      exact keeping_bind (keeping_ask rfl) fun _ => keeping_ret _

theorem actFor_keeping (what : What F) (amount atLeast : ℕ) (ts : ℤ) (close : F) :
    Keeping d ch (actFor what amount atLeast ts close) := by
  unfold actFor
  simp only [Prog.bind_eq]
  refine keeping_bind (keeping_ask rfl) fun a => ?_
  cases a with
  | none => exact keeping_ret _
  | some wallet =>
    refine keeping_ite (keeping_ret _) (keeping_bind (keeping_ask rfl) fun _ => keeping_bind (keeping_ask rfl) fun _ => ?_)
    refine keeping_bind ?_ fun _ => keeping_bind (keeping_ask rfl) fun _ => keeping_ret _
    refine keeping_bind (keeping_ask rfl) fun a => ?_
    cases a with
    | sent => exact lookFor_keeping _ 6
    | _ => exact keeping_bind (keeping_ask rfl) fun _ => keeping_ret _

theorem reconcile_keeping (now : ℤ) : Keeping d ch (reconcile now) := by
  unfold reconcile
  simp only [Prog.bind_eq]
  refine keeping_bind (keeping_ask rfl) fun s => ?_
  cases s.pending with
  | none => exact keeping_ret _
  | some p =>
    refine keeping_bind (keeping_ask rfl) fun a => ?_
    cases a with
    | none => exact keeping_ret _
    | some wallet =>
      refine keeping_bind (keeping_ask rfl) fun _ => keeping_ite ?_ (keeping_ret _)
      exact keeping_bind (keeping_ask rfl) fun _ => keeping_ask rfl

theorem fund_keeping (bid : F) (ts : ℤ) : Keeping d ch (fund d bid ts) := by
  unfold fund
  simp only [Prog.bind_eq]
  refine keeping_state fun w h => .ite (fun _ => h) fun _ => keeping_balances h fun a x => ?_
  cases a with
  | none => exact h.chain x
  | some wallet =>
    refine .ite (fun _ => ?_) fun _ => ?_
    · exact keeping_set (k := .ret) (h.chain x) ⟨rfl, rfl, fun _ => id⟩ (keeping_ret _)
    · generalize wrapU64 (_ + wrapU64 (d.feeReserve + fundHeadroom)) = least
      refine .ite (fun _ => h.chain x) fun _ => ?_
      exact keeping_bind (actFor_keeping _ _ _ _ _) (fun _ => keeping_ret _) _ (h.chain x)

theorem lower_keeping (h : AllBooked w) (old to_ : F) :
    (lower w.mem old to_).Sound (hears d ch) Booking (fun _ w' => AllBooked w') w := by
  unfold lower
  refine .ite (fun _ => h) fun _ => ?_
  exact keeping_set h ⟨rfl, rfl, fun _ => id⟩ (keeping_bind (keeping_ask rfl) fun _ => keeping_ret _)

theorem raise_keeping (h : AllBooked w) (old to_ bid : F) (ts : ℤ) :
    (raise d w.mem old to_ bid ts).Sound (hears d ch) Booking (fun _ w' => AllBooked w') w := by
  unfold raise
  simp only [Prog.bind_eq]
  refine keeping_balances h fun a x => ?_
  cases a with
  | none => exact h.chain x
  | some wallet =>
    refine .ite (fun _ => ?_) fun _ => .ite (fun _ => h.chain x) fun _ => ?_
    · refine keeping_set (h.chain x) ⟨rfl, rfl, fun _ => id⟩ ?_
      exact keeping_bind (keeping_ask rfl) fun _ => keeping_ret _
    · refine keeping_bind (actFor_keeping _ _ _ _ _) (fun _ => ?_) _ (h.chain x)
      exact keeping_ite (keeping_ret _) (keeping_ret _)

theorem rebudget_keeping (to_ bid : F) (ts : ℤ) : Keeping d ch (rebudget d to_ bid ts) := by
  unfold rebudget
  simp only [Prog.bind_eq]
  refine keeping_bind (keeping_ask rfl) fun s => keeping_ite (keeping_ret _) (keeping_ite (keeping_ret _) ?_)
  refine keeping_bind (reconcile_keeping ts) fun _ => keeping_state fun w h => .ite (fun _ => h) fun _ => ?_
  refine .ite (fun _ => h) fun _ => .ite (fun _ => ?_) fun _ => ?_
  · exact keeping_set h ⟨rfl, rfl, fun _ => id⟩ (keeping_bind (keeping_ask rfl) fun _ => keeping_ret _)
  · exact .ite (fun _ => lower_keeping h _ to_) fun _ => raise_keeping h _ to_ bid ts

theorem sellAllLoop_keeping (ts : ℤ) (close : F) : ∀ n, Keeping d ch (sellAllLoop ts close n)
  | 0 => keeping_ret _
  | n + 1 => by
    unfold sellAllLoop
    simp only [Prog.bind_eq]
    refine keeping_bind (keeping_ask rfl) fun s => ?_
    split
    · exact keeping_ret _
    · refine keeping_bind (actFor_keeping _ _ _ _ _) fun _ => ?_
      exact keeping_ite (sellAllLoop_keeping ts close n) (keeping_ret _)

theorem sellAll_keeping (ts : ℤ) (close : F) : Keeping d ch (sellAll ts close) := by
  unfold sellAll
  exact keeping_bind (keeping_ask rfl) fun s => sellAllLoop_keeping ts close _

theorem takeGains_keeping (take bid : F) (ts : ℤ) (close : F) : ∀ n, Keeping d ch (takeGains d take bid ts close n)
  | 0 => keeping_ret _
  | n + 1 => by
    unfold takeGains
    simp only [Prog.bind_eq]
    refine keeping_bind (keeping_ask rfl) fun s => keeping_ite (keeping_ret _) ?_
    split
    · exact keeping_ret _
    · refine keeping_ite (keeping_bind (actFor_keeping _ _ _ _ _) fun _ => ?_) ?_ <;>
        exact takeGains_keeping take bid ts close n

theorem ruleSells_keeping (ts : ℤ) (close : F) : ∀ sells, Keeping d ch (ruleSells ts close sells)
  | [] => keeping_ret _
  | i :: rest => by
    unfold ruleSells
    simp only [Prog.bind_eq]
    refine keeping_bind (keeping_ask rfl) fun s => ?_
    split
    · exact ruleSells_keeping ts close rest
    · refine keeping_bind (keeping_ask rfl) fun _ => keeping_bind (actFor_keeping _ _ _ _ _) fun _ => ?_
      exact ruleSells_keeping ts close rest

theorem ruleBuys_keeping (ts : ℤ) (close : F) : ∀ wanted, Keeping d ch (ruleBuys ts close wanted)
  | [] => keeping_ret _
  | .sell _ :: rest => ruleBuys_keeping ts close rest
  | .buy usd :: rest => by
    unfold ruleBuys
    simp only [Prog.bind_eq]
    refine keeping_bind (keeping_ask rfl) fun s => keeping_bind (keeping_ask rfl) fun _ => ?_
    exact keeping_bind (actFor_keeping _ _ _ _ _) fun _ => ruleBuys_keeping ts close rest

theorem ruleOrders_keeping (bars : List (Bar F)) (ctx : Ctx F) (close : F) (ts : ℤ) :
    Keeping d ch (ruleOrders d bars ctx close ts) := by
  unfold ruleOrders
  simp only [Prog.bind_eq]
  refine keeping_state fun w h => ?_
  have hedits := @orders_edits _ _ w.mem d.rule ⟨d.stops.dailyLoss, none⟩ (budgetOf w.mem d.live) bars ctx
  generalize orders d.rule ⟨d.stops.dailyLoss, none⟩ (budgetOf w.mem d.live) w.mem.account bars ctx = both at hedits
  obtain ⟨wanted, account⟩ := both
  exact keeping_set h hedits (keeping_bind (ruleSells_keeping ts close _) fun _ => ruleBuys_keeping ts close wanted)

theorem tradeBar_keeping (bars : List (Bar F)) (ctx : Ctx F) (close bid : F) (ts : ℤ) :
    Keeping d ch (tradeBar d bars ctx close bid ts) := by
  unfold tradeBar
  simp only [Prog.bind_eq]
  refine keeping_bind (keeping_ask rfl) fun s => ?_
  split
  · exact ruleOrders_keeping bars ctx close ts
  · refine keeping_bind (takeGains_keeping _ bid ts close _) fun _ => keeping_bind (keeping_ask rfl) fun s' => ?_
    exact keeping_ite (keeping_ret _) (ruleOrders_keeping bars ctx close ts)

/-- A run ends by an edit. -/
theorem end_keeping (why : End) : Keeping (X := X) d ch (do let s ← state; ask (.set { s with ended := some why })) :=
  keeping_state fun _ h => keeping_set (k := .ret) h ⟨rfl, rfl, fun _ => id⟩ (keeping_ret _)

theorem stopRun_keeping (close : F) (ts : ℤ) : Keeping d ch (stopRun close ts) := by
  unfold stopRun
  refine keeping_state fun w h => keeping_set h ⟨rfl, rfl, fun _ => id⟩ ?_
  exact keeping_bind (sellAll_keeping ts close) fun _ => keeping_ite (end_keeping _) (keeping_ret _)

theorem onBar_keeping (bars : List (Bar F)) (ctx : Ctx F) (bid : F) (ts : ℤ) :
    Keeping d ch (onBar d bars ctx bid ts) := by
  unfold onBar
  simp only [Prog.bind_eq]
  split
  · exact keeping_ret _
  refine keeping_bind (keeping_ask rfl) fun s => keeping_ite (keeping_ret _) ?_
  refine keeping_bind (reconcile_keeping ts) fun _ => keeping_bind (keeping_ask rfl) fun s => ?_
  refine keeping_ite (keeping_ret _) (keeping_bind (fund_keeping bid ts) fun _ => ?_)
  refine keeping_bind (keeping_ask rfl) fun s => keeping_ite (keeping_ret _) ?_
  exact keeping_ite (stopRun_keeping _ ts) (tradeBar_keeping bars ctx _ bid ts)

theorem changeActs_keeping (to_ : Acts F) : Keeping d ch (changeActs d to_) := by
  unfold changeActs
  simp only [Prog.bind_eq]
  refine keeping_state fun w h => .ite (fun _ => h) fun _ => .ite (fun _ => h) fun _ => ?_
  exact keeping_set h ⟨rfl, rfl, fun _ => id⟩ (keeping_ask rfl)

/-- **Every operation keeps the book**, from any world and whatever is answered. -/
theorem deed_booked (c : Deed F) : Keeping d ch (c.prog d) := by
  cases c with
  | onBar bars ctx bid ts => exact onBar_keeping bars ctx bid ts
  | look bars ctx bid ask_ ts =>
    show Keeping d ch (Lab.look d bars ctx bid ask_ ts)
    unfold Lab.look
    exact keeping_bind (keeping_ask rfl) fun s => keeping_ite (keeping_ret _) (onBar_keeping bars ctx bid ts)
  | rebudget to_ bid ts => exact keeping_bind (rebudget_keeping to_ bid ts) fun _ => keeping_ret _
  | sellAll ts close => exact keeping_bind (sellAll_keeping ts close) fun _ => keeping_ret _
  | fund bid ts => exact fund_keeping bid ts
  | reconcile ts => exact reconcile_keeping ts
  | acts to_ => exact changeActs_keeping to_
  | write => exact keeping_ask rfl
  | closeRun bid ts =>
    refine keeping_bind (reconcile_keeping ts) fun _ => keeping_bind (keeping_ask rfl) fun s => ?_
    refine keeping_ite (keeping_bind (sellAll_keeping ts bid) fun _ => ?_) (keeping_ret _)
    exact keeping_ite (end_keeping _) (keeping_ret _)

/-- In every state of a run the book knows the last sale. -/
theorem reach_booked {A : World F X → Deed F → Prop} (x : X) {w : World F X}
    (hw : (operator d ch A).Reach (.fresh x) (.idle w)) : AllBooked w := by
  have hfresh : AllBooked (World.fresh x : World F X) := ⟨nofun, nofun⟩
  refine Shell.safe (operator d ch A) (P := Booking) hfresh (fun c w h _ => deed_booked c w h) ?_ ?_ ?_ hw
  · exact fun w o h => h.booked.restart
  · exact fun w h => h.restart
  · rintro w _ h ⟨x', -, rfl⟩
    exact h.chain x'

end Specs

/-! ### A look at a run that holds nothing and has no swap open -/

/-- The price a look counts the bar at. -/
def lookPrice (bars : List (Bar F)) (bid ask_ : F) : F := (bars.getLast?.map Bar.close).getD ((bid + ask_) / lit 2)

/-- The price from which the price it sold at is a gain to take again. -/
def gainAgain (s : State F) (live : Live F) (soldAt : F) : F :=
  soldAt * (lit 1 - lit live.slippageBps / lit 10000) / (lit 1 + (actsOf s live).takeProfit.getD (lit 0))

section Looks

variable {d : Desk F} {ch : Chain F X} {w w₀ : World F X}

/-- Nothing was sold since `w₀`, and no lot is held. -/
structure Bare (w₀ w : World F X) : Prop where
  quiet : Quiet w₀ w
  lots : w.mem.account.lots = []

/-- What is asked is asked with nothing sold since `w₀`. -/
abbrev Unsold (w₀ : World F X) : World F X → Op F → Prop := fun w _ => Quiet w₀ w

theorem lookFor_quiet {p : Pending F} (hp : ∀ i, p.what ≠ .sell i) : ∀ (n : ℕ) {w : World F X}, Quiet w₀ w →
    (lookFor p n).Sound (hears d ch) (Unsold w₀)
      (fun _ w' => Quiet w₀ w' ∧ (p.what ≠ .buy → w'.mem.account.lots = w.mem.account.lots)) w
  | 0, _, h => ⟨h, fun _ => rfl⟩
  | n + 1, w, h => by
    unfold lookFor
    simp only [Prog.bind_eq]
    refine sound_balances h fun a x _ => ?_
    have hr : Quiet w₀ { w with chain := x } := ⟨h.sale, h.trades⟩
    cases a with
    | none => exact lookFor_quiet hp n hr
    | some wallet =>
      refine sound_settle hr (fun hseen => ?_) fun _ => lookFor_quiet hp n hr
      have hbook := settle_book hseen
      have htrades : (w.mem.settle d.live p wallet false).1.account.trades = w.mem.account.trades := by
        rw [hbook.trades]
        unfold Account.landed
        cases hw : p.what with
        | sell i => exact absurd hw (hp i)
        | _ => rfl
      have hq : Quiet w₀ { w with
          mem := (w.mem.settle d.live p wallet false).1, applied := w.applied ++ [(p, wallet)], chain := x } :=
        ⟨(lastSale_other hp wallet).trans h.sale, htrades.trans h.trades⟩
      refine sound_release hq ⟨⟨hq.sale, hq.trades⟩, fun hbuy => ?_⟩
      exact (settle_edits hbuy hp false).lots

/-- A swap that is no sale. -/
theorem actFor_quiet (h : Quiet w₀ w) {what : What F} (hwhat : ∀ i, what ≠ .sell i) (amount atLeast : ℕ) (ts : ℤ)
    (close : F) : (actFor what amount atLeast ts close).Sound (hears d ch) (Unsold w₀)
      (fun _ w' => Quiet w₀ w' ∧ (what ≠ .buy → w'.mem.account.lots = w.mem.account.lots)) w := by
  unfold actFor
  simp only [Prog.bind_eq]
  refine sound_balances h fun a x _ => ?_
  have hr : Quiet w₀ { w with chain := x } := ⟨h.sale, h.trades⟩
  cases a with
  | none => exact ⟨hr, fun _ => rfl⟩
  | some wallet =>
    obtain ⟨lamports, usdc⟩ := wallet
    refine .ite (fun _ => ⟨hr, fun _ => rfl⟩) fun _ => sound_hold hr (sound_write ⟨hr.sale, hr.trades⟩ ?_)
    refine Prog.Sound.seq (Q := fun _ w' => Quiet w₀ w' ∧ (what ≠ .buy → w'.mem.account.lots = w.mem.account.lots))
      (sound_swap ⟨hr.sale, hr.trades⟩ fun a x' _ => ?_) ?_
    · cases a with
      | sent => exact @lookFor_quiet _ _ _ d ch w₀ ⟨what, lamports, usdc, ts, close⟩ hwhat 6 _ ⟨h.sale, h.trades⟩
      | _ => exact sound_release ⟨h.sale, h.trades⟩ ⟨⟨h.sale, h.trades⟩, fun _ => rfl⟩
    · rintro changed w' ⟨hq, hlots⟩
      exact sound_write hq ⟨⟨hq.sale, hq.trades⟩, hlots⟩

theorem fund_bare (h : Bare w₀ w) (bid : F) (ts : ℤ) : (fund d bid ts).Sound (hears d ch) (Unsold w₀)
    (fun _ w' => Bare w₀ w') w := by
  have hq := h.quiet
  unfold fund
  simp only [Prog.bind_eq]
  refine sound_state hq (.ite (fun _ => h) fun _ => sound_balances hq fun a x _ => ?_)
  have hr : Bare w₀ { w with chain := x } := ⟨⟨hq.sale, hq.trades⟩, h.lots⟩
  cases a with
  | none => exact hr
  | some wallet =>
    refine .ite (fun _ => sound_set (k := .ret) hr.quiet ⟨⟨hq.sale, hq.trades⟩, h.lots⟩) fun _ => ?_
    generalize wrapU64 (_ + wrapU64 (d.feeReserve + fundHeadroom)) = least
    refine .ite (fun _ => hr) fun _ => ?_
    refine Prog.Sound.seq (actFor_quiet hr.quiet ?_ _ _ ts bid) ?_
    · exact fun i hi => nomatch hi
    · rintro - w' ⟨hq', hlots⟩
      refine ⟨hq', ?_⟩
      rw [hlots fun hbuy => nomatch hbuy]
      exact h.lots

/-- There is no lot to sell. -/
theorem sellAll_bare (h : Bare w₀ w) (ts : ℤ) (close : F) : (sellAll ts close).Sound (hears d ch) (Unsold w₀)
    (fun _ w' => Bare w₀ w') w := by
  unfold sellAll
  refine sound_state h.quiet ?_
  unfold sellAllLoop
  simp only [Prog.bind_eq]
  refine sound_state h.quiet ?_
  rw [h.lots]
  exact h

theorem stopRun_bare (h : Bare w₀ w) (close : F) (ts : ℤ) : (stopRun close ts).Sound (hears d ch) (Unsold w₀)
    (fun _ w' => Quiet w₀ w') w := by
  have hq := h.quiet
  unfold stopRun
  simp only [Prog.bind_eq]
  have hset : Bare w₀ { w with mem := { w.mem with account := { w.mem.account with frozen := true } } } :=
    ⟨⟨hq.sale, hq.trades⟩, h.lots⟩
  refine sound_state hq (sound_set hq (Prog.Sound.seq (sellAll_bare hset ts close) ?_))
  rintro sold w' ⟨hq', hlots⟩
  refine .ite (fun _ => ?_) fun _ => hq'
  exact sound_state hq' (sound_set (k := .ret) hq' ⟨hq'.sale, hq'.trades⟩)

theorem ruleSells_bare (ts : ℤ) (close : F) : ∀ (sells : List ℕ) {w : World F X}, Bare w₀ w →
    (ruleSells ts close sells).Sound (hears d ch) (Unsold w₀) (fun _ w' => Bare w₀ w') w
  | [], _, h => h
  | i :: rest, w, h => by
    unfold ruleSells
    simp only [Prog.bind_eq]
    refine sound_state h.quiet ?_
    rw [h.lots]
    exact ruleSells_bare ts close rest h

theorem ruleBuys_quiet (ts : ℤ) (close : F) : ∀ (wanted : List (Order F)) {w : World F X}, Quiet w₀ w →
    (ruleBuys ts close wanted).Sound (hears d ch) (Unsold w₀) (fun _ w' => Quiet w₀ w') w
  | [], _, h => h
  | .sell _ :: rest, _, h => ruleBuys_quiet ts close rest h
  | .buy usd :: rest, w, h => by
    unfold ruleBuys
    simp only [Prog.bind_eq]
    refine sound_state h (sound_order h fun _ => Prog.Sound.seq (actFor_quiet h ?_ _ _ ts close) ?_)
    · intro i hi
      cases hi
    · rintro - w' ⟨hq, -⟩
      exact ruleBuys_quiet ts close rest hq

theorem ruleOrders_bare (h : Bare w₀ w) (bars : List (Bar F)) (ctx : Ctx F) (close : F) (ts : ℤ) :
    (ruleOrders d bars ctx close ts).Sound (hears d ch) (Unsold w₀) (fun _ w' => Quiet w₀ w') w := by
  have hq := h.quiet
  unfold ruleOrders
  simp only [Prog.bind_eq]
  refine sound_state hq ?_
  have hbook := orders_same d.rule ⟨d.stops.dailyLoss, none⟩ (budgetOf w.mem d.live) w.mem.account bars ctx
  generalize orders d.rule ⟨d.stops.dailyLoss, none⟩ (budgetOf w.mem d.live) w.mem.account bars ctx = both at hbook
  obtain ⟨wanted, account⟩ := both
  have hset : Bare w₀ { w with mem := { w.mem with account } } :=
    ⟨⟨hq.sale, hbook.trades.trans hq.trades⟩, hbook.lots.trans h.lots⟩
  refine sound_set hq (Prog.Sound.seq (ruleSells_bare ts close _ hset) ?_)
  rintro - w' h'
  exact ruleBuys_quiet ts close wanted h'.quiet

theorem tradeBar_bare (h : Bare w₀ w) (bars : List (Bar F)) (ctx : Ctx F) (close bid : F) (ts : ℤ) :
    (tradeBar d bars ctx close bid ts).Sound (hears d ch) (Unsold w₀) (fun _ w' => Quiet w₀ w') w := by
  unfold tradeBar
  simp only [Prog.bind_eq]
  refine sound_state h.quiet ?_
  split
  · exact ruleOrders_bare h bars ctx close ts
  · rw [h.lots]
    refine sound_state h.quiet (.ite (fun _ => h.quiet) fun _ => ?_)
    exact ruleOrders_bare h bars ctx close ts

/-- With no swap open and no lot held, a bar sells nothing. -/
theorem onBar_quiet (h : Bare w₀ w) (hn : w.mem.pending = none) (bars : List (Bar F)) (ctx : Ctx F) (bid : F) (ts : ℤ) :
    (onBar d bars ctx bid ts).Sound (hears d ch) (Unsold w₀) (fun _ w' => Quiet w₀ w') w := by
  have hq := h.quiet
  unfold onBar
  simp only [Prog.bind_eq]
  split
  · exact hq
  refine sound_state hq (.ite (fun _ => hq) fun _ => ?_)
  refine Prog.Sound.seq (Q := fun _ w' => w' = w) ?_ ?_
  · unfold reconcile
    simp only [Prog.bind_eq]
    refine sound_state hq ?_
    rw [hn]
    rfl
  · rintro - _ rfl
    refine sound_state hq (.ite (fun _ => hq) fun _ => Prog.Sound.seq (fund_bare h bid ts) ?_)
    rintro - w₂ h₂
    refine sound_state h₂.quiet (.ite (fun _ => h₂.quiet) fun _ => .ite (fun _ => ?_) fun _ => ?_)
    · exact stopRun_bare h₂ _ ts
    · exact tradeBar_bare h₂ bars ctx _ bid ts

/-- A rule that does not rest, after this sale. -/
theorem rests_none {s : State F} {live : Live F} {barMs ts : ℤ} {price soldAt : F} {sale : Trade F}
    (h : rests s live barMs price ts = none) (hsale : s.account.trades.getLast? = some sale)
    (hlots : s.account.lots = []) (hsold : s.account.reference = some soldAt) (hts : ts < sale.closed + barMs) :
    lt sale.net (lit 0) = false ∧ le (gainAgain s live soldAt) price = false := by
  unfold rests at h
  simp only [hsale, hlots, hsold, List.isEmpty_nil, Bool.true_and, decide_eq_true hts, if_true] at h
  cases hnet : lt sale.net (lit 0) with
  | true =>
    rw [if_pos hnet] at h
    exact nomatch h
  | false =>
    refine ⟨rfl, ?_⟩
    rw [hnet] at h
    cases hle : le (gainAgain s live soldAt) price with
    | false => rfl
    | true =>
      unfold gainAgain at hle
      simp [hle] at h

/-- **A rule that acts on the price rests after a sale.** In every run of the
operations: a look made when no swap is open and no lot is held sends a buy, within
a bar of the last sale that was accounted for, only if that sale was not at a
loss, and at a price under the one from which the price it sold at is a gain
again. -/
theorem rests_after_sale (d : Desk F) (ch : Chain F X) (x : X) {w w' : World F X}
    (hw : (operator d ch fun _ _ => True).Reach (.fresh x) (.idle w)) (hprice : (actsOf w.mem d.live).trigger = .price)
    (hopen : w.mem.pending = none) (hlots : w.mem.account.lots = []) {bars : List (Bar F)} {ctx : Ctx F} {bid ask_ : F}
    {ts : ℤ} {amount atLeast : ℕ} {k : Sent → Act F Unit}
    (ht : (operator d ch fun _ _ => True).Within (.busy w (Lab.look d bars ctx bid ask_ ts))
      (.busy w' (.ask (.swap false amount atLeast) k))) {p : Pending F} (hp : lastSale w'.applied = some p) :
    ∃ sale, w'.mem.account.trades.getLast? = some sale ∧ sale.closed = p.ts ∧ (ts < p.ts + d.barMs →
      lt sale.net (lit 0) = false ∧ le (gainAgain w.mem d.live p.close) (lookPrice bars bid ask_) = false) := by
  -- no swap is asked for unless the rule does not rest, and nothing is sold on the way
  have hlook : (Lab.look d bars ctx bid ask_ ts).Sound (hears d ch)
      (fun v o => o = .swap false amount atLeast →
        Quiet w v ∧ rests w.mem d.live d.barMs (lookPrice bars bid ask_) ts = none)
      (fun _ _ => True) w := by
    unfold Lab.look
    simp only [Prog.bind_eq]
    refine sound_state (fun h => nomatch h) (.ite (fun _ => trivial) fun hgoes => ?_)
    have hnone : rests w.mem d.live d.barMs (lookPrice bars bid ask_) ts = none := by
      by_contra hrests
      refine hgoes ⟨hprice, by rw [hopen]; rfl, ?_⟩
      exact Option.isSome_iff_ne_none.mpr hrests
    refine Prog.Sound.mono (fun _ _ _ => trivial) (Prog.Sound.weaken ?_ (onBar_quiet ⟨.refl w, hlots⟩ hopen bars ctx bid ts))
    exact fun v o h _ => ⟨h, hnone⟩
  obtain ⟨hquiet, hnone⟩ := Shell.Within.at_ask ht hlook rfl
  obtain ⟨sale, hsale, hts, href⟩ := (reach_booked x hw).mem p (hquiet.sale ▸ hp)
  refine ⟨sale, by rw [hquiet.trades, hsale], hts, fun hin => ?_⟩
  exact rests_none hnone hsale hlots (href hlots) (hts ▸ hin)

end Looks

/-! ### Runs -/

/-- A look that does not begin to rest sends a buy within a bar of the last
sale: one at a loss, or at a price at which the sale's is no gain again. -/
def BuysBack (d : Desk F) (ch : Chain F X) (x : X) (w : World F X) : Prop :=
  (operator d ch fun _ _ => True).Reach (.fresh x) (.idle w) ∧ (actsOf w.mem d.live).trigger = .price ∧
  ∃ bars ctx bid ask_ ts w' amount atLeast k p sale,
    (operator d ch fun _ _ => True).Within (.busy w (Lab.look d bars ctx bid ask_ ts))
      (.busy w' (.ask (.swap false amount atLeast) k)) ∧
    lastSale w'.applied = some p ∧ w'.mem.account.trades.getLast? = some sale ∧ ts < p.ts + d.barMs ∧
    (lt sale.net (lit 0) = true ∨ le (gainAgain w.mem d.live p.close) (lookPrice bars bid ask_) = true)

namespace AfterASale

def trader (rule : Rule ℚ) : Desk ℚ := ⟨⟨20, 1 / 2, 50, .price, none⟩, 1000000, rule, ⟨none, none⟩, 900000, true⟩

/-- A chain that shows these wallets, one at each reading. -/
def shows : Chain ℚ (List Wallet) :=
  ⟨fun _ _ _ => True, fun _ _ _ _ _ _ _ => True, fun _ _ _ => True, fun _ _ => True⟩

def replies (live : Live ℚ) (w : World ℚ (List Wallet)) : (o : Op ℚ) → o.Ans × World ℚ (List Wallet)
  | .state => (w.mem, w)
  | .set s => ((), { w with mem := s })
  | .hold p => ((), { w with mem := { w.mem with pending := some p } })
  | .release => ((), { w with mem := { w.mem with pending := none } })
  | .settle p now lastLook =>
    ((w.mem.settle live p now lastLook).2, { w with
      mem := (w.mem.settle live p now lastLook).1
      applied := if (w.mem.settle live p now false).2 then w.applied ++ [(p, now)] else w.applied })
  | .balances => (w.chain.head?, { w with chain := w.chain.tail })
  | .swap .. => (.sent, w)
  | .write => ((), { w with disk := w.mem, kept := w.applied })
  | .now => ((0 : ℤ), w)
  | .order _ => ((), w)

abbrev free (rule : Rule ℚ) : Shell (Op.Ans (F := ℚ)) (World ℚ (List Wallet)) (Deed ℚ) :=
  operator (trader rule) shows fun _ _ => True

theorem free_replies (rule : Rule ℚ) (w : World ℚ (List Wallet)) (o : Op ℚ) :
    (free rule).answers w o (replies (trader rule).live w o).1 (replies (trader rule).live w o).2 := by
  refine ⟨?_, trivial⟩
  cases o with
  | state => exact ⟨rfl, rfl⟩
  | settle => exact ⟨rfl, rfl⟩
  | balances => exact ⟨_, trivial, rfl⟩
  | swap => exact ⟨_, trivial, rfl⟩
  | now => exact ⟨_, trivial, rfl⟩
  | _ => rfl

def ready (w : World ℚ (List Wallet)) : Bool := w.mem.ended.isNone

theorem ready_calls {rule : Rule ℚ} (c : Deed ℚ) (w : World ℚ (List Wallet)) (hw : ready w = true) :
    (free rule).calls c w := ⟨trivial, fun _ _ _ => Option.isNone_iff_eq_none.mp hw⟩

def bar (n : ℤ) (price : ℚ) : Bar ℚ := ⟨n, price, price, price, price, 0⟩

/-- A look between the last close and the price now. -/
def lookAt (closed price : ℚ) (ts : ℤ) : Deed ℚ := .look [bar 0 closed, bar 1 price] ⟨none, [], 1⟩ price price ts

/-- Bought at 10; sold at 12, and the sale is seen at once. -/
def gained : List Wallet :=
  [(10000000000, 20000000), (10000000000, 20000000), (11990000000, 0), (11990000000, 0), (10000000000, 23800000),
    (10000000000, 23800000)]

def afterGain : World ℚ (List Wallet) :=
  ((free .signReversal).played (replies (trader .signReversal).live) ready 60 (.fresh gained)
    [lookAt 20 10 0, lookAt 12 12 1000]).get (by decide +kernel)

/-- Bought at 10; sold at 9, and the sale is seen by the next look. -/
def lost : List Wallet :=
  [(10000000000, 20000000), (10000000000, 20000000), (11990000000, 0), (11990000000, 0)] ++
    List.replicate 6 (11990000000, 0) ++ [(10000000000, 17800000), (10000000000, 17800000)]

def beforeLoss : World ℚ (List Wallet) :=
  ((free .signReversal).played (replies (trader .signReversal).live) ready 60 (.fresh lost)
    [lookAt 20 10 0, lookAt 9 9 1000]).get (by decide +kernel)

/-- Two lots of a grid bought, at 19 and at 18; one sold at 19. -/
def halved : List Wallet :=
  [(10000000000, 20000000), (10000000000, 20000000), (10520000000, 10000000), (10520000000, 10000000),
    (11070000000, 0), (11070000000, 0), (10520000000, 10400000), (10520000000, 10400000)]

def finely : Rule ℚ := .grid (1 / 1000) 2

def halfSold : World ℚ (List Wallet) :=
  ((free finely).played (replies (trader finely).live) ready 60 (.fresh halved)
    [lookAt 20 20 0, lookAt 20 19 60000, lookAt 19 18 120000, lookAt 18 19 180000]).get (by decide +kernel)

/-- Within a look, after this many answers. -/
def within (rule : Rule ℚ) (w : World ℚ (List Wallet)) (look : Deed ℚ) (n : ℕ) : World ℚ (List Wallet) × Act ℚ Unit :=
  Shell.steps (replies (trader rule).live) n (w, look.prog (trader rule))

theorem within_look (rule : Rule ℚ) (w : World ℚ (List Wallet)) (look : Deed ℚ) (n : ℕ) :
    (free rule).Within (.busy w (look.prog (trader rule))) (.busy (within rule w look n).1 (within rule w look n).2) :=
  Shell.run_steps (fun w o _ => .answer _ (free_replies rule w o)) n w _

/-- A buy is about to be sent. -/
def sendsBuy : Act ℚ Unit → Bool
  | .ask (.swap false _ _) _ => true
  | _ => false

theorem asks_buy {q : Act ℚ Unit} (h : sendsBuy q = true) : ∃ amount atLeast k, q = .ask (.swap false amount atLeast) k := by
  rcases q with u | ⟨o, k⟩
  · exact nomatch h
  · cases o with
    | swap sellSol amount atLeast =>
      cases sellSol with
      | false => exact ⟨amount, atLeast, k, rfl⟩
      | true => exact nomatch h
    | _ => exact nomatch h

/-- The buy is within a bar of the last sale, which was at a loss, or no gain again. -/
def tooSoon (rule : Rule ℚ) (w w' : World ℚ (List Wallet)) (price : ℚ) (ts : ℤ) : Bool :=
  match lastSale w'.applied, w'.mem.account.trades.getLast? with
  | some p, some sale => decide (ts < p.ts + (trader rule).barMs) &&
      (lt sale.net (lit 0) || le (gainAgain w.mem (trader rule).live p.close) price)
  | _, _ => false

theorem buysBack_of {rule : Rule ℚ} {x : List Wallet} {w : World ℚ (List Wallet)} (hw : (free rule).Reach (.fresh x) (.idle w))
    (hprice : (actsOf w.mem (trader rule).live).trigger = .price) {closed price : ℚ} {ts : ℤ} {n : ℕ}
    (hbuy : sendsBuy (within rule w (lookAt closed price ts) n).2 = true)
    (hsoon : tooSoon rule w (within rule w (lookAt closed price ts) n).1 price ts = true) :
    BuysBack (trader rule) shows x w := by
  have hrun := within_look rule w (lookAt closed price ts) n
  obtain ⟨amount, atLeast, k, hq⟩ := asks_buy hbuy
  rw [hq] at hrun
  unfold tooSoon at hsoon
  split at hsoon
  · rename_i p sale hp hsale
    rw [Bool.and_eq_true, Bool.or_eq_true, decide_eq_true_iff] at hsoon
    exact ⟨hw, hprice, _, _, price, price, ts, _, amount, atLeast, k, p, sale, hrun, hp, hsale, hsoon⟩
  · exact nomatch hsoon

theorem reach_afterGain : (free .signReversal).Reach (.fresh gained) (.idle afterGain) :=
  Shell.reach_played (free_replies _) ready_calls _ .refl (Option.some_get _).symm

theorem reach_beforeLoss : (free .signReversal).Reach (.fresh lost) (.idle beforeLoss) :=
  Shell.reach_played (free_replies _) ready_calls _ .refl (Option.some_get _).symm

theorem reach_halfSold : (free finely).Reach (.fresh halved) (.idle halfSold) :=
  Shell.reach_played (free_replies _) ready_calls _ .refl (Option.some_get _).symm

end AfterASale

open AfterASale in
/-- Sold at 12 with a gain, it buys again a second later, at 11. -/
theorem rests_after_sale_under : ∃ p sale, lastSale (within .signReversal afterGain (lookAt 12 11 2000) 14).1.applied = some p ∧
    sale ∈ (within .signReversal afterGain (lookAt 12 11 2000) 14).1.mem.account.trades.getLast? ∧ lt sale.net 0 = false ∧
    le (gainAgain afterGain.mem (trader .signReversal).live p.close) 11 = false := by
  have hrun := within_look .signReversal afterGain (lookAt 12 11 2000) 14
  obtain ⟨amount, atLeast, k, hq⟩ := asks_buy
    (show sendsBuy (within .signReversal afterGain (lookAt 12 11 2000) 14).2 = true by decide +kernel)
  rw [hq] at hrun
  have hsome : (lastSale (within .signReversal afterGain (lookAt 12 11 2000) 14).1.applied).isSome = true := by
    decide +kernel
  obtain ⟨p, hp⟩ := Option.isSome_iff_exists.mp hsome
  have hts : ∀ q, lastSale (within .signReversal afterGain (lookAt 12 11 2000) 14).1.applied = some q → (1000 : ℤ) ≤ q.ts := by
    intro q hq
    have hall : (lastSale (within .signReversal afterGain (lookAt 12 11 2000) 14).1.applied).all
        (fun q => decide (1000 ≤ q.ts)) = true := by decide +kernel
    rw [hq] at hall
    exact of_decide_eq_true hall
  obtain ⟨sale, hsale, -, hrests⟩ := rests_after_sale (trader .signReversal) shows gained reach_afterGain
    (by decide +kernel) (Option.isNone_iff_eq_none.mp (by decide +kernel)) (List.isEmpty_iff.mp (by decide +kernel)) hrun hp
  have hin : (2000 : ℤ) < p.ts + 900000 := by linarith [hts p hp]
  exact ⟨p, sale, hp, hsale, hrests hin⟩

open AfterASale in
/-- A grid that still holds a lot buys within a bar of a sale, at a price at
which the sale's is no gain again; and a look that sees a sale at a loss buys
at once. -/
theorem buys_back : BuysBack (trader finely) shows halved halfSold ∧ BuysBack (trader .signReversal) shows lost beforeLoss := by
  constructor
  · refine @buysBack_of _ _ _ reach_halfSold ?_ 19 (379 / 20) 240000 14 ?_ ?_ <;> decide +kernel
  · refine @buysBack_of _ _ _ reach_beforeLoss ?_ 9 8 31000 18 ?_ ?_ <;> decide +kernel

end Lab
end MobiusSearcher
