/-
# The trader's protocol

Every operation of the trader settles or waits for an open swap before it sends
another, but for one: the loop of `on_bar` over what the rule wants
(`ruleOrders`) does not look at the swap the order before it left open. Only a
grid wants two orders in one bar.

What an operation keeps is a predicate of a state, of the swaps accounted for
in it and of the chain. It is kept of the state in memory and of the one
written down alike (`Joined`), when it is kept by what can happen to a single
swap (`Keeps`; `KeepsHeld`, where it matters what the swap is held to).
`desk_safe` is the induction over every run of the program.

Key definitions: `Keeps`, `KeepsHeld`, `Joined`, `Asks`, `OneByOne`.
Key theorems: `actFor_sound`, `onBar_sound`, `prog_sound`, `desk_held`, `desk_safe`.
-/
import MobiusSearcher.Lab.World
import MobiusSearcher.Lab.Orders

namespace MobiusSearcher
namespace Lab

open FloatOps Machine

/-- Swaps that were accounted for, each with the wallet that showed it. -/
abbrev Done (F : Type) := List (Pending F × Wallet)

def Rule.isGrid {F : Type} : Rule F → Bool
  | .grid .. => true
  | _ => false

/-- Neither the open swap nor what was bought and sold changes. -/
structure SameBook {F : Type} (s s' : State F) : Prop where
  pending : s'.pending = s.pending
  lots : s'.account.lots = s.account.lots
  trades : s'.account.trades = s.account.trades

/-- What is sold is held. -/
def LotHeld {F : Type} (s : State F) (p : Pending F) : Prop := ∀ i, p.what = .sell i → i < s.account.lots.length

/-- A swap has moved the wallet: it sold SOL and brought USDC, or it spent USDC
and brought more SOL than its fees. -/
def Moved {F : Type} (p : Pending F) (before after : Wallet) : Prop :=
  if p.what.sellsSol then before.2 < after.2 else after.2 < before.2 ∧ before.1 < after.1

/-- The wallet shows the swap. -/
def Shows {F : Type} (p : Pending F) (wallet : Wallet) : Prop := Moved p (p.lamports, p.usdc) wallet

/-- A sale that is open is of a lot that is held; and a rule other than a grid
holds one lot at most, bought when it held none. -/
structure Fits {F : Type} (r : Rule F) (s : State F) : Prop where
  lot : ∀ p, s.pending = some p → LotHeld s p
  one : r.isGrid = false → s.account.lots.length ≤ 1
  buy : r.isGrid = false → ∀ p, s.pending = some p → p.what = .buy → s.account.lots = []

variable {F X : Type}

/-- What holds of a state, of the swaps accounted for in it and of the chain. -/
def Side (r : Rule F) (G : State F → Done F → X → Prop) (s : State F) (e : Done F) (x : X) : Prop := Fits r s ∧ G s e x

/-- The state in memory and the one written down are good, and no two swaps are open. -/
structure Good (r : Rule F) (G : State F → Done F → X → Prop) (w : World F X) : Prop where
  mem : Side r G w.mem w.applied w.chain
  disk : Side r G w.disk w.kept w.chain
  one : ∀ p q, w.mem.pending = some p → w.disk.pending = some q → p = q

/-- Between two calls: the same swap is open in both states, or none is. -/
structure Joined (r : Rule F) (G : State F → Done F → X → Prop) (w : World F X) : Prop where
  good : Good r G w
  same : w.disk.pending = w.mem.pending

/-- One swap at a time, at a question: a swap is held only when none is open,
sent only when it is the open one in memory and in what is written down, and
no other change of the state touches it. -/
def OneByOne (w : World F X) : Op F → Prop
  | .hold _ => w.mem.pending = none ∧ w.disk.pending = none
  | .swap sellSol _ _ => ∃ p, w.mem.pending = some p ∧ w.disk.pending = some p ∧ p.what.sellsSol = sellSol
  | .set s => s.pending = w.mem.pending
  | _ => True

/-- What holds at every question: a program stopped there starts again from a
good state, and one swap is open at a time. -/
structure Asks (r : Rule F) (G : State F → Done F → X → Prop) (w : World F X) (o : Op F) : Prop where
  disk : Side r G w.disk w.kept w.chain
  /-- So is the one in memory, unless a swap in it is being settled. -/
  mem : w.mem.pending = none → Side r G w.mem w.applied w.chain
  one : ∀ p q, w.mem.pending = some p → w.disk.pending = some q → p = q
  op : OneByOne w o

def Op.settles : Op F → Bool
  | .settle .. => true
  | _ => false

/-- And what is settled is the open swap, as the wallet is now. -/
structure AsksNow (ch : Chain F X) (r : Rule F) (G : State F → Done F → X → Prop) (w : World F X) (o : Op F) : Prop
    extends Asks r G w o where
  now : ∀ p wallet lastLook, o = .settle p wallet lastLook → w.mem.pending = some p ∧
    ∃ x, Side r G w.mem w.applied x ∧ ch.balances x (some wallet) w.chain

section Data

variable {r : Rule F} {G : State F → Done F → X → Prop} {w : World F X} {ch : Chain F X}

theorem Fits.edit {s s' : State F} (h : Fits r s) (hs : SameBook s s') : Fits r s' := by
  refine ⟨fun p hp i hi => ?_, fun hg => ?_, fun hg p hp hw => ?_⟩
  · rw [hs.lots]
    exact h.lot p (hs.pending ▸ hp) i hi
  · rw [hs.lots]
    exact h.one hg
  · rw [hs.lots]
    exact h.buy hg p (hs.pending ▸ hp) hw

/-- No swap is open: one that is given up, or was not sent. -/
theorem Fits.release {s : State F} (h : Fits r s) : Fits r { s with pending := none } :=
  ⟨fun _ hp => (nomatch hp), h.one, fun _ _ hp => (nomatch hp)⟩

theorem Fits.hold {s : State F} {p : Pending F} (h : Fits r s) (hl : LotHeld s p)
    (hb : r.isGrid = false → p.what = .buy → s.account.lots = []) : Fits r { s with pending := some p } := by
  refine ⟨?_, h.one, ?_⟩
  · rintro q ⟨rfl⟩
    exact hl
  · rintro hg q ⟨rfl⟩ hw
    exact hb hg hw

theorem Good.asks (h : Good r G w) {o : Op F} (ho : OneByOne w o) : Asks r G w o :=
  ⟨h.disk, fun _ => h.mem, h.one, ho⟩

theorem Good.now (h : Good r G w) {o : Op F} (ho : OneByOne w o) (hs : o.settles = false) :
    AsksNow ch r G w o := by
  refine ⟨h.asks ho, ?_⟩
  rintro p wallet lastLook rfl
  exact nomatch hs

/-- The state is written down. -/
theorem Good.write (h : Good r G w) : Joined r G { w with disk := w.mem, kept := w.applied } :=
  ⟨⟨h.mem, h.mem, fun _ _ hp hq => Option.some.inj (hp.symm.trans hq)⟩, rfl⟩

/-- Stopped at a question and started again. -/
theorem Asks.restart {o : Op F} (h : Asks r G w o) : Joined r G w.restart :=
  ⟨⟨h.disk, h.disk, fun _ _ hp hq => Option.some.inj (hp.symm.trans hq)⟩, rfl⟩

theorem Joined.restart (h : Joined r G w) : Joined r G w.restart := (h.good.asks (o := .state) trivial).restart

/-- The open swap is given up, or was not sent. -/
theorem Good.release (h : Good r G w) (hg : G { w.mem with pending := none } w.applied w.chain) :
    Good r G { w with mem := { w.mem with pending := none } } :=
  ⟨⟨h.mem.1.release, hg⟩, h.disk, fun _ _ hp => (nomatch hp)⟩

end Data

variable [FloatOps F]

/-- What a sale that takes a gain must bring, in atoms. -/
def floorAtoms (lot : Lot F) (take : F) : ℕ := toU64 (ceil (lot.usd * (lit 1 + take) * lit (10 ^ 6)))

/-- A swap is held to nothing, or to the gain of the lot it sells. -/
def HeldTo (T : F → Prop) (s : State F) (p : Pending F) (atLeast : ℕ) : Prop :=
  atLeast = 0 ∨ ∃ i lot take, p.what = .sell i ∧ s.account.lots[i]? = some lot ∧ T take ∧ atLeast = floorAtoms lot take

theorem heldTo_nothing {T : F → Prop} {s : State F} {what : What F} : ∀ p : Pending F, p.what = what → HeldTo T s p 0 :=
  fun _ _ => .inl rfl

/-! ### What a swap that landed does to the account -/

/-- What was bought and sold, once the swap is read from the wallet. -/
def Account.landed (a : Account F) (p : Pending F) (wallet : Wallet) : Account F :=
  let dSol : ℤ := wallet.1 - p.lamports
  let dUsdc : ℤ := wallet.2 - p.usdc
  match p.what with
  | .buy => a.bought (lit (-dUsdc) / lit (10 ^ 6)) (lit dSol / lit (10 ^ 9)) p.ts p.close
  | .sell lot => a.sold lot (lit dUsdc / lit (10 ^ 6)) p.ts p.close
  | _ => a


theorem settle_pending (s : State F) (live : Live F) (p : Pending F) (wallet : Wallet) (lastLook : Bool) :
    (s.settle live p wallet lastLook).1.pending = s.pending := by
  unfold State.settle
  cases p.what <;> simp only <;> split <;> rfl

/-- A swap is accounted for when the wallet shows it, and for a sale the lot is there. -/
theorem settle_iff {live : Live F} {s : State F} {p : Pending F} {wallet : Wallet} :
    (s.settle live p wallet false).2 = true ↔
      Shows p wallet ∧ LotHeld s p := by
  unfold State.settle Shows Moved LotHeld
  cases hw : p.what <;> simp only [What.sellsSol, reduceCtorEq, What.sell.injEq] <;> split <;>
    simp_all

/-- What is accounted for is what landed. -/
theorem settle_book {live : Live F} {s : State F} {p : Pending F} {wallet : Wallet}
    (h : (s.settle live p wallet false).2 = true) :
    SameBook { s with account := s.account.landed p wallet } (s.settle live p wallet false).1 := by
  revert h
  unfold State.settle Account.landed
  cases hw : p.what <;> simp only <;> split <;> simp [SameBook.mk]

/-! ### What an operation keeps -/

/-- What can happen to a swap and meanwhile to the chain, and keeps `G`; `H`
holds while a swap is held and not sent yet. `late t` says of the chain that it
is `t` or later. -/
structure Keeps (ch : Chain F X) (late : ℤ → X → Prop) (G H : State F → Done F → X → Prop) : Prop where
  edit : ∀ {s s' e x}, G s e x → SameBook s s' → G s' e x
  reads : ∀ {s e x a x'}, G s e x → ch.balances x a x' → G s e x'
  clocks : ∀ {s e x t x'}, G s e x → ch.now x t x' → G s e x'
  passes : ∀ {s e x x'}, G s e x → ch.passes x x' → G s e x'
  late_clock : ∀ {x t x'}, ch.now x t x' → late t x'
  late_reads : ∀ {t x a x'}, late t x → ch.balances x a x' → late t x'
  holds : ∀ {s e x l u x'} what ts close, G s e x → s.pending = none → ch.balances x (some (l, u)) x' →
    H { s with pending := some ⟨what, l, u, ts, close⟩ } e x'
  held : ∀ {s e x}, H s e x → G s e x
  swaps : ∀ {s e x p amount atLeast a x'}, H s e x → s.pending = some p →
    ch.swap x (some p) p.what.sellsSol amount atLeast a x' → G s e x'
  unsent : ∀ {s e x p amount atLeast a x'}, H s e x → s.pending = some p →
    ch.swap x (some p) p.what.sellsSol amount atLeast a x' → a ≠ .sent → G { s with pending := none } e x'
  /-- The wallet shows the swap. -/
  seen : ∀ {s e x p wallet x'}, G s e x → s.pending = some p → LotHeld s p → ch.balances x (some wallet) x' →
    Shows p wallet → G { s with account := s.account.landed p wallet, pending := none } (e ++ [(p, wallet)]) x'
  /-- It does not, and the swap can no longer land. -/
  gaveUp : ∀ {s e x p wallet x' t}, G s e x → s.pending = some p → late t x → settledAfterMs ≤ t - p.ts →
    ch.balances x (some wallet) x' → ¬ Shows p wallet → G { s with pending := none } e x'

/-- The same where it is known what a swap that is sent is held to: `T` are the
gains that are taken. -/
structure KeepsHeld (ch : Chain F X) (late : ℤ → X → Prop) (T : F → Prop) (G H : State F → Done F → X → Prop) : Prop where
  edit : ∀ {s s' e x}, G s e x → SameBook s s' → G s' e x
  reads : ∀ {s e x a x'}, G s e x → ch.balances x a x' → G s e x'
  clocks : ∀ {s e x t x'}, G s e x → ch.now x t x' → G s e x'
  passes : ∀ {s e x x'}, G s e x → ch.passes x x' → G s e x'
  late_clock : ∀ {x t x'}, ch.now x t x' → late t x'
  late_reads : ∀ {t x a x'}, late t x → ch.balances x a x' → late t x'
  holds : ∀ {s e x l u x'} what ts close, G s e x → s.pending = none → ch.balances x (some (l, u)) x' →
    H { s with pending := some ⟨what, l, u, ts, close⟩ } e x'
  held : ∀ {s e x}, H s e x → G s e x
  swaps : ∀ {s e x p amount atLeast a x'}, H s e x → s.pending = some p → HeldTo T s p atLeast →
    ch.swap x (some p) p.what.sellsSol amount atLeast a x' → G s e x'
  unsent : ∀ {s e x p amount atLeast a x'}, H s e x → s.pending = some p →
    ch.swap x (some p) p.what.sellsSol amount atLeast a x' → a ≠ .sent → G { s with pending := none } e x'
  /-- The wallet shows the swap. -/
  seen : ∀ {s e x p wallet x'}, G s e x → s.pending = some p → LotHeld s p → ch.balances x (some wallet) x' →
    Shows p wallet → G { s with account := s.account.landed p wallet, pending := none } (e ++ [(p, wallet)]) x'
  /-- It does not, and the swap can no longer land. -/
  gaveUp : ∀ {s e x p wallet x' t}, G s e x → s.pending = some p → late t x → settledAfterMs ≤ t - p.ts →
    ch.balances x (some wallet) x' → ¬ Shows p wallet → G { s with pending := none } e x'

theorem Keeps.anyHeld {ch : Chain F X} {late : ℤ → X → Prop} {T : F → Prop} {G H : State F → Done F → X → Prop}
    (h : Keeps ch late G H) : KeepsHeld ch late T G H where
  edit := h.edit
  reads := h.reads
  clocks := h.clocks
  passes := h.passes
  late_clock := h.late_clock
  late_reads := h.late_reads
  holds := h.holds
  held := h.held
  swaps hs hp _ hx := h.swaps hs hp hx
  unsent := h.unsent
  seen := h.seen
  gaveUp := h.gaveUp

section Specs

variable {d : Desk F} {r : Rule F} {ch : Chain F X} {K : World F X → Op F → Prop} {late : ℤ → X → Prop}
  {T : F → Prop} {G H : State F → Done F → X → Prop} {w : World F X}

theorem Fits.seen {s : State F} {p : Pending F} {wallet : Wallet} (h : Fits r s) (hp : s.pending = some p) :
    Fits r { s with account := s.account.landed p wallet, pending := none } := by
  refine ⟨fun _ hp => (nomatch hp), fun hg => ?_, fun _ _ hp => (nomatch hp)⟩
  have h1 := h.one hg
  simp only [Account.landed]
  cases hw : p.what with
  | fund => exact h1
  | «raise» t => exact h1
  | buy =>
    have h0 := h.buy hg p hp hw
    simp [Account.bought, h0]
  | sell i =>
    have hi := h.lot p hp i hw
    simp only [Account.sold, List.getElem?_eq_getElem hi, List.length_eraseIdx, if_pos hi]
    omega

theorem Good.reads (hk : KeepsHeld ch late T G H) (h : Good r G w) {a : Option Wallet} {x : X}
    (hx : ch.balances w.chain a x) : Good r G { w with chain := x } :=
  ⟨⟨h.mem.1, hk.reads h.mem.2 hx⟩, ⟨h.disk.1, hk.reads h.disk.2 hx⟩, h.one⟩

theorem Joined.reads (hk : KeepsHeld ch late T G H) (h : Joined r G w) {a : Option Wallet} {x : X}
    (hx : ch.balances w.chain a x) : Joined r G { w with chain := x } := ⟨h.good.reads hk hx, h.same⟩

theorem Joined.clocks (hk : KeepsHeld ch late T G H) (h : Joined r G w) {t : ℤ} {x : X} (hx : ch.now w.chain t x) :
    Joined r G { w with chain := x } :=
  ⟨⟨⟨h.good.mem.1, hk.clocks h.good.mem.2 hx⟩, ⟨h.good.disk.1, hk.clocks h.good.disk.2 hx⟩, h.good.one⟩, h.same⟩

theorem Joined.passes (hk : KeepsHeld ch late T G H) (h : Joined r G w) {x : X} (hx : ch.passes w.chain x) :
    Joined r G { w with chain := x } :=
  ⟨⟨⟨h.good.mem.1, hk.passes h.good.mem.2 hx⟩, ⟨h.good.disk.1, hk.passes h.good.disk.2 hx⟩, h.good.one⟩, h.same⟩

theorem Joined.edit (hk : KeepsHeld ch late T G H) (h : Joined r G w) {s : State F} (hs : SameBook w.mem s) :
    Joined r G { w with mem := s } :=
  ⟨⟨⟨h.good.mem.1.edit hs, hk.edit h.good.mem.2 hs⟩, h.good.disk, by
    rintro p q hp hq
    exact h.good.one p q (hs.pending ▸ hp) hq⟩, h.same.trans hs.pending.symm⟩

/-- What a swap comes to: an account that changed, and no swap open; or an
account as it was, the swap open or not. -/
structure Came (s : State F) (changed : Bool) (w : World F X) : Prop where
  yes : changed = true → w.mem.pending = none
  no : changed = false → ∃ q, w.mem = { s with pending := q }

/-- The wallet is read, and the swap is accounted for or stays open: the rule
for `settle` and what follows it. -/
theorem settle_sound (hk : KeepsHeld ch late T G H) (h : Good r G w) {live : Live F} {p : Pending F}
    (hp : w.mem.pending = some p) {wallet : Wallet} {x : X} (hx : ch.balances w.chain (some wallet) x)
    (hs : (w.mem.settle live p wallet false).2 = true) :
    Good r G { w with
      mem := { (w.mem.settle live p wallet false).1 with pending := none }
      applied := w.applied ++ [(p, wallet)]
      chain := x } := by
  have hb := settle_book hs
  have hseen : SameBook { w.mem with account := w.mem.account.landed p wallet, pending := none }
      { (w.mem.settle live p wallet false).1 with pending := none } := ⟨rfl, hb.lots, hb.trades⟩
  refine ⟨⟨(h.mem.1.seen hp).edit hseen, hk.edit (hk.seen h.mem.2 hp (h.mem.1.lot p hp) hx ?_) hseen⟩,
    ⟨h.disk.1, hk.reads h.disk.2 hx⟩, fun _ _ hq => (nomatch hq)⟩
  exact (settle_iff.mp hs).1

/-- While a swap is settled, and until it is released, what is written down is good. -/
theorem asks_release (hk : KeepsHeld ch late T G H) (h : Good r G w) {live : Live F} {p : Pending F}
    (hp : w.mem.pending = some p) {wallet : Wallet} {x : X} (hx : ch.balances w.chain (some wallet) x) :
    AsksNow ch r G { w with
      mem := (w.mem.settle live p wallet false).1
      applied := w.applied ++ [(p, wallet)]
      chain := x } .release := by
  have hpend : (w.mem.settle live p wallet false).1.pending = some p := (settle_pending ..).trans hp
  refine ⟨⟨⟨h.disk.1, hk.reads h.disk.2 hx⟩, fun hn => (nomatch hn.symm.trans hpend), fun a b ha hb => ?_, trivial⟩,
    nofun⟩
  exact h.one a b (hp.trans (hpend.symm.trans ha)) hb

/-- The open swap may be settled by the wallet that was read. -/
theorem Good.settling (hk : KeepsHeld ch late T G H) (h : Good r G w) {p : Pending F} (hp : w.mem.pending = some p)
    {wallet : Wallet} {x : X} (hx : ch.balances w.chain (some wallet) x) (lastLook : Bool) :
    AsksNow ch r G { w with chain := x } (.settle p wallet lastLook) := by
  refine ⟨(h.reads hk hx).asks trivial, ?_⟩
  rintro _ _ _ ⟨rfl, rfl, rfl⟩
  exact ⟨hp, w.chain, h.mem, hx⟩

theorem lookFor_sound (hk : KeepsHeld ch late T G H) {p : Pending F} : ∀ (n : ℕ) {w : World F X},
    Good d.rule G w → w.mem.pending = some p →
    (lookFor p n).Sound (desk d ch K).answers (AsksNow ch d.rule G) (fun c w' => Good d.rule G w' ∧ Came w.mem c w') w
  | 0, w, h, _ => ⟨h, nofun, fun _ => ⟨w.mem.pending, rfl⟩⟩
  | n + 1, w, h, hp => by
    unfold lookFor
    simp only [Prog.bind_eq]
    refine sound_balances (h.now trivial rfl) fun a x hx => ?_
    have hr := h.reads hk hx
    cases a with
    | none => exact lookFor_sound hk n hr hp
    | some wallet =>
      refine sound_settle (h.settling hk hp hx _) (fun hs => ?_) (fun _ => ?_)
      · refine sound_release (asks_release hk h hp hx) ?_
        exact ⟨settle_sound hk h hp hx hs, fun _ => rfl, nofun⟩
      · exact lookFor_sound hk n hr hp

/-- A swap is sent when none is open, and afterwards none is, or it is this one
and the account is as it was. -/
theorem actFor_sound (hk : KeepsHeld ch late T G H) (h : Joined d.rule G w) (hn : w.mem.pending = none) (what : What F)
    (amount atLeast : ℕ) (ts : ℤ) (close : F) (hl : ∀ i, what = .sell i → i < w.mem.account.lots.length)
    (hb : d.rule.isGrid = false → what = .buy → w.mem.account.lots = [])
    (hto : ∀ p : Pending F, p.what = what → HeldTo T w.mem p atLeast) :
    (actFor what amount atLeast ts close).Sound (desk d ch K).answers (AsksNow ch d.rule G)
      (fun c w' => Joined d.rule G w' ∧ Came w.mem c w') w := by
  unfold actFor
  simp only [Prog.bind_eq]
  refine sound_balances (h.good.now trivial rfl) fun a x hx => ?_
  have hr := h.reads hk hx
  cases a with
  | none => exact ⟨hr, nofun, fun _ => ⟨w.mem.pending, rfl⟩⟩
  | some wallet =>
    obtain ⟨lamports, usdc⟩ := wallet
    simp only
    generalize (if what.sellsSol = true then amount else min amount usdc) = amount
    split
    · exact ⟨hr, nofun, fun _ => ⟨w.mem.pending, rfl⟩⟩
    refine sound_hold (hr.good.now ⟨hn, h.same.trans hn⟩ rfl) ?_
    -- held, and written down
    have hh := hk.holds what ts close h.good.mem.2 hn hx
    have hheld : Good d.rule G { w with
        mem := { w.mem with pending := some ⟨what, lamports, usdc, ts, close⟩ }, chain := x } :=
      ⟨⟨h.good.mem.1.hold hl hb, hk.held hh⟩, hr.good.disk,
        fun _ q _ hq => nomatch (h.same.trans hn).symm.trans hq⟩
    refine sound_write (hheld.now trivial rfl) ?_
    have hw := hheld.write
    refine Prog.Sound.seq (Q := fun c w' => Good d.rule G w' ∧ Came w.mem c w') ?_ ?_
    · refine sound_swap (hw.good.now ⟨_, rfl, rfl, rfl⟩ rfl) fun a x' hx' => ?_
      have hsent : Good d.rule G { w with
          mem := { w.mem with pending := some ⟨what, lamports, usdc, ts, close⟩ }
          disk := { w.mem with pending := some ⟨what, lamports, usdc, ts, close⟩ }
          kept := w.applied
          chain := x' } :=
        ⟨⟨hw.good.mem.1, hk.swaps hh rfl (hto _ rfl) hx'⟩, ⟨hw.good.disk.1, hk.swaps hh rfl (hto _ rfl) hx'⟩, hw.good.one⟩
      cases a with
      | notSent =>
        refine sound_release (hsent.now trivial rfl) ?_
        exact ⟨hsent.release (hk.unsent hh rfl hx' nofun), nofun, fun _ => ⟨none, rfl⟩⟩
      | simulated =>
        refine sound_release (hsent.now trivial rfl) ?_
        exact ⟨hsent.release (hk.unsent hh rfl hx' nofun), nofun, fun _ => ⟨none, rfl⟩⟩
      | sent =>
        refine (lookFor_sound hk 6 hsent rfl).mono fun c w' hc => ⟨hc.1, hc.2.yes, fun hc' => ?_⟩
        obtain ⟨q, hq⟩ := hc.2.no hc'
        exact ⟨q, hq⟩
    · rintro c w' ⟨hg, hc⟩
      refine sound_write (hg.now trivial rfl) ?_
      exact ⟨hg.write, hc.yes, hc.no⟩

/-- The open swap is settled, given up or left open. -/
theorem reconcile_sound (hk : KeepsHeld ch late T G H) (h : Joined d.rule G w) {now : ℤ} (ht : late now w.chain) :
    (reconcile now).Sound (desk d ch K).answers (AsksNow ch d.rule G) (fun _ w' => Joined d.rule G w') w := by
  unfold reconcile
  simp only [Prog.bind_eq]
  refine sound_state (h.good.now trivial rfl) ?_
  split
  · exact h
  · rename_i p hp
    refine sound_balances (h.good.now trivial rfl) fun a x hx => ?_
    have hr := h.reads hk hx
    cases a with
    | none => exact hr
    | some wallet =>
      refine sound_settle (h.good.settling hk hp hx _) (fun hs => ?_) (fun hs => ?_)
      · have hg := settle_sound hk h.good hp hx hs
        refine sound_release (asks_release hk h.good hp hx) ?_
        exact sound_write (k := .ret) (hg.now trivial rfl) hg.write
      · by_cases hl : settledAfterMs ≤ now - p.ts
        · have hno : ¬ Shows p wallet := fun hsh =>
            absurd (settle_iff.mpr ⟨hsh, h.good.mem.1.lot p hp⟩) (by rw [hs]; nofun)
          have hg := hr.good.release (hk.gaveUp h.good.mem.2 hp ht hl hx hno)
          simp only [decide_eq_true hl]
          refine sound_release (hr.good.now trivial rfl) ?_
          exact sound_write (k := .ret) (hg.now trivial rfl) hg.write
        · simp only [decide_eq_false hl]
          exact hr

/-- A change of neither the open swap nor the book, written down. -/
theorem save_sound (hk : KeepsHeld ch late T G H) (h : Joined d.rule G w) {s : State F} (hs : SameBook w.mem s) {α : Type}
    (a : α) : ((ask (.set s)).bind fun _ => (ask .write).bind fun _ => .ret a).Sound (desk d ch K).answers
      (AsksNow ch d.rule G) (fun _ w' => Joined d.rule G w') w := by
  have he := h.edit hk hs
  exact sound_set (h.good.now hs.pending rfl) (sound_write (he.good.now trivial rfl) he.good.write)

theorem fund_sound (hk : KeepsHeld ch late T G H) (h : Joined d.rule G w) (hn : w.mem.pending = none) (bid : F) (ts : ℤ) :
    (fund d bid ts).Sound (desk d ch K).answers (AsksNow ch d.rule G)
      (fun _ w' => Joined d.rule G w' ∧ (w'.mem.funded = true → w'.mem.pending = none)) w := by
  unfold fund
  simp only [Prog.bind_eq]
  refine sound_state (h.good.now trivial rfl) (.ite (fun _ => ⟨h, fun _ => hn⟩) fun hf => ?_)
  refine sound_balances (h.good.now trivial rfl) fun a x hx => ?_
  have hr := h.reads hk hx
  cases a with
  | none => exact ⟨hr, fun _ => hn⟩
  | some wallet =>
    refine .ite (fun _ => ?_) fun _ => ?_
    · exact sound_set (k := .ret) (hr.good.now rfl rfl) ⟨hr.edit hk ⟨rfl, rfl, rfl⟩, fun _ => hn⟩
    generalize wrapU64 (_ + wrapU64 (d.feeReserve + fundHeadroom)) = least
    refine .ite (fun _ => ⟨hr, fun _ => hn⟩) fun _ => ?_
    refine Prog.Sound.seq (actFor_sound hk hr hn .fund _ 0 ts bid nofun nofun heldTo_nothing) ?_
    rintro c w' ⟨hj, hc⟩
    refine ⟨hj, fun hfund => ?_⟩
    cases c with
    | true => exact hc.yes rfl
    | false =>
      obtain ⟨q, hq⟩ := hc.no rfl
      simp only [Bool.or_eq_true, not_or, Bool.not_eq_true] at hf
      rw [hq] at hfund
      exact absurd (hf.1.symm.trans hfund) nofun

theorem lower_sound (hk : KeepsHeld ch late T G H) (h : Joined d.rule G w) (old to_ : F) :
    (lower w.mem old to_).Sound (desk d ch K).answers (AsksNow ch d.rule G) (fun _ w' => Joined d.rule G w') w := by
  unfold lower
  refine .ite (fun _ => h) fun _ => ?_
  refine save_sound hk h ?_ _
  exact ⟨rfl, rfl, rfl⟩

theorem raise_sound (hk : KeepsHeld ch late T G H) (h : Joined d.rule G w) (hn : w.mem.pending = none) (old to_ bid : F)
    (ts : ℤ) : (raise d w.mem old to_ bid ts).Sound (desk d ch K).answers (AsksNow ch d.rule G)
      (fun _ w' => Joined d.rule G w') w := by
  unfold raise
  simp only [Prog.bind_eq]
  refine sound_balances (h.good.now trivial rfl) fun a x hx => ?_
  have hr := h.reads hk hx
  cases a with
  | none => exact hr
  | some wallet =>
    refine .ite (fun _ => ?_) fun _ => .ite (fun _ => hr) fun _ => ?_
    · refine save_sound hk hr ?_ _
      exact ⟨rfl, rfl, rfl⟩
    refine Prog.Sound.seq (actFor_sound hk hr hn (.raise to_) _ 0 ts bid nofun nofun heldTo_nothing) ?_
    rintro c w' ⟨hj, -⟩
    exact .ite (fun _ => hj) fun _ => hj

/-- The budget is changed with no swap open. -/
theorem rebudget_sound (hk : KeepsHeld ch late T G H) (h : Joined d.rule G w) (to_ bid : F) {ts : ℤ} (ht : late ts w.chain) :
    (rebudget d to_ bid ts).Sound (desk d ch K).answers (AsksNow ch d.rule G) (fun _ w' => Joined d.rule G w') w := by
  unfold rebudget
  simp only [Prog.bind_eq]
  refine sound_state (h.good.now trivial rfl) ?_
  refine .ite (fun _ => h) fun _ => .ite (fun _ => h) fun _ => ?_
  refine Prog.Sound.seq (reconcile_sound hk h ht) ?_
  rintro - w' hj
  refine sound_state (hj.good.now trivial rfl) ?_
  refine .ite (fun _ => hj) fun hn => .ite (fun _ => hj) fun _ => ?_
  have hn' : w'.mem.pending = none := by simpa using hn
  refine .ite (fun _ => ?_) fun _ => ?_
  · refine save_sound hk hj ?_ _
    exact ⟨rfl, rfl, rfl⟩
  exact .ite (fun _ => lower_sound hk hj _ to_) fun _ => raise_sound hk hj hn' _ to_ bid ts

/-- The lots are sold one by one, each when the sale before it is settled. -/
theorem sellAllLoop_sound (hk : KeepsHeld ch late T G H) (ts : ℤ) (close : F) : ∀ (n : ℕ) {w : World F X},
    Joined d.rule G w → w.mem.pending = none →
    (sellAllLoop ts close n).Sound (desk d ch K).answers (AsksNow ch d.rule G) (fun _ w' => Joined d.rule G w') w
  | 0, _, h, _ => h
  | n + 1, w, h, hn => by
    unfold sellAllLoop
    simp only [Prog.bind_eq]
    refine sound_state (h.good.now trivial rfl) ?_
    split
    · exact h
    rename_i l hl
    have hpos : 0 < w.mem.account.lots.length := by
      refine List.length_pos_of_ne_nil fun h0 => ?_
      rw [h0] at hl
      exact nomatch hl
    refine Prog.Sound.seq (actFor_sound hk h hn (.sell _) _ 0 ts close ?_ nofun heldTo_nothing) ?_
    · rintro i ⟨⟩
      omega
    · rintro c w' ⟨hj, hc⟩
      cases c with
      | true => exact sellAllLoop_sound hk ts close n hj (hc.yes rfl)
      | false => exact hj

theorem sellAll_sound (hk : KeepsHeld ch late T G H) (h : Joined d.rule G w) (hn : w.mem.pending = none) (ts : ℤ) (close : F) :
    (sellAll ts close).Sound (desk d ch K).answers (AsksNow ch d.rule G) (fun _ w' => Joined d.rule G w') w := by
  unfold sellAll
  exact sound_state (h.good.now trivial rfl) (sellAllLoop_sound hk ts close _ h hn)

/-- Gains are taken one by one, none on top of an open swap. -/
theorem takeGains_sound (hk : KeepsHeld ch late T G H) {take : F} (hT : T take) (bid : F) (ts : ℤ) (close : F) : ∀ (n : ℕ) {w : World F X},
    Joined d.rule G w → (takeGains d take bid ts close n).Sound (desk d ch K).answers (AsksNow ch d.rule G)
      (fun _ w' => Joined d.rule G w') w
  | 0, _, h => h
  | lot + 1, w, h => by
    unfold takeGains
    simp only [Prog.bind_eq]
    refine sound_state (h.good.now trivial rfl) (.ite (fun _ => h) fun hn => ?_)
    have hn' : w.mem.pending = none := by simpa using hn
    split
    · exact h
    rename_i l hl
    refine .ite (fun _ => ?_) fun _ => takeGains_sound hk hT bid ts close lot h
    refine Prog.Sound.seq (actFor_sound hk h hn' (.sell lot) _ _ ts close ?_ nofun ?_) ?_
    · rintro i ⟨⟩
      exact (List.getElem?_eq_some_iff.mp hl).1
    · intro p hp
      exact .inr ⟨lot, l, take, hp, hl, hT, rfl⟩
    · rintro - w' ⟨hj, -⟩
      exact takeGains_sound hk hT bid ts close lot hj

/-! ### What a rule wants -/

/-- What a rule other than a grid can want: nothing, one buy when no lot is
held, or every lot sold. -/
def AllOrNothing (lots : List (Lot F)) (wanted : List (Order F)) : Prop :=
  wanted = [] ∨ (∃ usd, wanted = [.buy usd] ∧ lots = []) ∨ wanted = (List.range lots.length).map .sell

theorem allIn_shape (acct : Account F) (mayBuy want : Bool) :
    AllOrNothing acct.lots (Rule.allIn acct mayBuy want) := by
  unfold Rule.allIn
  split
  · rename_i he
    split
    · exact .inr (.inl ⟨_, rfl, List.isEmpty_iff.mp he⟩)
    · exact .inl rfl
  · exact .inr (.inr rfl)
  · exact .inl rfl

theorem decide_shape {rule : Rule F} (hg : rule.isGrid = false) (history : ℕ) (bars : List (Bar F)) (acct : Account F)
    (capital : F) (mayBuy : Bool) : AllOrNothing acct.lots (rule.decide history bars acct capital mayBuy) := by
  unfold Rule.decide
  split
  · exact .inl rfl
  by_cases hw : bars.length < rule.warmup history
  · rw [if_pos hw]
    exact .inl rfl
  rw [if_neg hw]
  cases rule with
  | signReversal =>
    simp only
    split
    · exact allIn_shape ..
    · exact .inl rfl
  | dip window k exitZ stop =>
    simp only
    split <;> exact allIn_shape ..
  | grid step lots => exact nomatch hg
  | breakout entry exit =>
    simp only
    split <;> exact allIn_shape ..
  | model => exact .inl rfl

theorem orders_shape {rule : Rule F} (hg : rule.isGrid = false) (stops : Stops F) (capital : F) (acct : Account F)
    (bars : List (Bar F)) (ctx : Ctx F) : AllOrNothing acct.lots (orders rule stops capital acct bars ctx).1 := by
  unfold orders
  split
  · exact .inl rfl
  rename_i bar _
  have hmark := (mark_same acct stops capital bar).lots
  simp only
  split
  · rename_i m _
    -- whether or not the bar it holds until is set, the lots are the account's
    have key : ∀ a : Account F, a.lots = acct.lots → ∀ mayBuy : Bool, AllOrNothing acct.lots
        (if a.lots.isEmpty then (if mayBuy then [Order.buy a.cash] else [], a)
          else if a.holdUntil.all fun t => t ≤ bar.ts then ((List.range a.lots.length).map .sell, a)
          else ([], a)).1 := by
      intro a ha mayBuy
      split
      · rename_i he
        cases mayBuy
        · exact .inl rfl
        · exact .inr (.inl ⟨_, rfl, ha ▸ List.isEmpty_iff.mp he⟩)
      · split
        · exact .inr (.inr (by rw [ha]))
        · exact .inl rfl
    split
    · split
      · refine key _ ?_ _
        exact hmark
      · exact key _ hmark _
    · exact key _ hmark _
  · rw [← hmark]
    exact decide_shape hg ..

/-! ### A bar -/

/-- The sells a rule wants: each taken up when none is open, or there is one only. -/
theorem ruleSells_sound (hk : KeepsHeld ch late T G H) (ts : ℤ) (close : F) : ∀ (sells : List ℕ) {w : World F X},
    Joined d.rule G w → (d.rule.isGrid = false → w.mem.pending = none ∧ sells.length ≤ 1) →
    (∀ w o, K w (.order o) → d.rule.isGrid = true → w.mem.pending = none) →
    (ruleSells ts close sells).Sound (desk d ch K).answers (AsksNow ch d.rule G) (fun _ w' => Joined d.rule G w') w
  | [], _, h, _, _ => h
  | lot :: rest, w, h, hone, hK => by
    unfold ruleSells
    simp only [Prog.bind_eq]
    refine sound_state (h.good.now trivial rfl) ?_
    have hrest : d.rule.isGrid = false → rest = [] := fun hg =>
      List.length_eq_zero_iff.mp (by have := (hone hg).2; simp only [List.length_cons] at this; omega)
    split
    · exact ruleSells_sound hk ts close rest h (fun hg => ⟨(hone hg).1, by simp [hrest hg]⟩) hK
    rename_i l hl
    refine sound_order (h.good.now trivial rfl) fun hko => ?_
    have hn : w.mem.pending = none := by
      cases hg : d.rule.isGrid with
      | true => exact hK w _ hko hg
      | false => exact (hone hg).1
    refine Prog.Sound.seq (actFor_sound hk h hn (.sell lot) _ 0 ts close ?_ nofun heldTo_nothing) ?_
    · rintro i ⟨⟩
      exact (List.getElem?_eq_some_iff.mp hl).1
    · rintro - w' ⟨hj, -⟩
      cases hg : d.rule.isGrid with
      | true => exact ruleSells_sound hk ts close rest hj (by simp [hg]) hK
      | false =>
        rw [hrest hg]
        exact hj

/-- The buys a rule wants: likewise, and a rule other than a grid buys when it holds nothing. -/
theorem ruleBuys_sound (hk : KeepsHeld ch late T G H) (ts : ℤ) (close : F) : ∀ (wanted : List (Order F)) {w : World F X},
    Joined d.rule G w →
    (d.rule.isGrid = false → (∀ usd, .buy usd ∉ wanted) ∨
      w.mem.pending = none ∧ w.mem.account.lots = [] ∧ ∃ usd, wanted = [.buy usd]) →
    (∀ w o, K w (.order o) → d.rule.isGrid = true → w.mem.pending = none) →
    (ruleBuys ts close wanted).Sound (desk d ch K).answers (AsksNow ch d.rule G) (fun _ w' => Joined d.rule G w') w
  | [], _, h, _, _ => h
  | .sell i :: rest, w, h, hone, hK => by
    refine ruleBuys_sound hk ts close rest h (fun hg => .inl fun usd hm => ?_) hK
    rcases hone hg with hno | ⟨-, -, u, hu⟩
    · exact hno usd (List.mem_cons_of_mem _ hm)
    · exact nomatch hu
  | .buy usd :: rest, w, h, hone, hK => by
    unfold ruleBuys
    simp only [Prog.bind_eq]
    refine sound_state (h.good.now trivial rfl) ?_
    refine sound_order (h.good.now trivial rfl) fun hko => ?_
    have hplain : d.rule.isGrid = false → w.mem.pending = none ∧ w.mem.account.lots = [] ∧ rest = [] := by
      intro hg
      rcases hone hg with hno | ⟨hn, h0, u, hu⟩
      · exact absurd List.mem_cons_self (hno usd)
      · exact ⟨hn, h0, (List.cons.inj hu).2⟩
    have hn : w.mem.pending = none := by
      cases hg : d.rule.isGrid with
      | true => exact hK w _ hko hg
      | false => exact (hplain hg).1
    refine Prog.Sound.seq (actFor_sound hk h hn .buy _ 0 ts close nofun (fun hg _ => (hplain hg).2.1) heldTo_nothing) ?_
    rintro - w' ⟨hj, -⟩
    cases hg : d.rule.isGrid with
    | true => exact ruleBuys_sound hk ts close rest hj (by simp [hg]) hK
    | false =>
      rw [(hplain hg).2.2]
      exact hj

theorem ruleOrders_sound (hk : KeepsHeld ch late T G H) (h : Joined d.rule G w) (hn : w.mem.pending = none)
    (hK : ∀ w o, K w (.order o) → d.rule.isGrid = true → w.mem.pending = none) (bars : List (Bar F)) (ctx : Ctx F)
    (close : F) (ts : ℤ) : (ruleOrders d bars ctx close ts).Sound (desk d ch K).answers (AsksNow ch d.rule G)
      (fun _ w' => Joined d.rule G w') w := by
  unfold ruleOrders
  simp only [Prog.bind_eq]
  refine sound_state (h.good.now trivial rfl) ?_
  have hbook := orders_same d.rule ⟨d.stops.dailyLoss, none⟩ (budgetOf w.mem d.live) w.mem.account bars ctx
  have hshape := fun hg => @orders_shape _ _ d.rule hg ⟨d.stops.dailyLoss, none⟩ (budgetOf w.mem d.live) w.mem.account bars ctx
  generalize orders d.rule ⟨d.stops.dailyLoss, none⟩ (budgetOf w.mem d.live) w.mem.account bars ctx = both at hbook hshape
  obtain ⟨wanted, account⟩ := both
  refine sound_set (h.good.now rfl rfl) ?_
  have he := h.edit hk (s := { w.mem with account }) ⟨rfl, hbook.lots, hbook.trades⟩
  -- a rule other than a grid sells one lot, or buys once and sells nothing
  have hsells : d.rule.isGrid = false → (sellsOf wanted).length ≤ 1 := by
    intro hg
    rcases hshape hg with hw | ⟨u, hw, -⟩ | hw
    · simp only at hw
      simp [hw, sellsOf]
    · simp only at hw
      simp [hw, sellsOf]
    · simp only at hw
      have h1 := h.good.mem.1.one hg
      rw [hw]
      exact le_trans (List.length_filterMap_le ..) (by simpa using h1)
  refine Prog.Sound.seq (Q := fun _ w' => Joined d.rule G w' ∧ (sellsOf wanted = [] → w'.mem = { w.mem with account }))
    ?_ ?_
  · rcases hs : sellsOf wanted with _ | ⟨i, rest⟩
    · simp only [List.insertionSort_nil]
      exact ⟨he, fun _ => rfl⟩
    · rw [← hs]
      refine (ruleSells_sound hk ts close _ he (fun hg => ⟨hn, ?_⟩) hK).mono fun _ w' hj => ⟨hj, fun h0 => ?_⟩
      · rw [List.length_insertionSort]
        exact hsells hg
      · exact nomatch hs.symm.trans h0
  · rintro - w' ⟨hj, hsame⟩
    refine ruleBuys_sound hk ts close wanted hj (fun hg => ?_) hK
    rcases hshape hg with hw | ⟨u, hw, h0⟩ | hw
    · simp only at hw
      exact .inl (by simp [hw])
    · simp only at hw
      have hm := hsame (by simp [hw, sellsOf])
      refine .inr ⟨?_, ?_, u, hw⟩
      · rw [hm]
        exact hn
      · rw [hm]
        exact hbook.lots.trans h0
    · simp only at hw
      exact .inl (by simp [hw])

theorem stopRun_sound (hk : KeepsHeld ch late T G H) (h : Joined d.rule G w) (hn : w.mem.pending = none) (close : F) (ts : ℤ) :
    (stopRun close ts).Sound (desk d ch K).answers (AsksNow ch d.rule G) (fun _ w' => Joined d.rule G w') w := by
  unfold stopRun
  simp only [Prog.bind_eq]
  refine sound_state (h.good.now trivial rfl) (sound_set (h.good.now rfl rfl) ?_)
  have he := h.edit hk (s := { w.mem with account := { w.mem.account with frozen := true } }) ⟨rfl, rfl, rfl⟩
  refine Prog.Sound.seq (sellAll_sound hk he hn ts close) fun c w' hj => ?_
  cases c with
  | false => exact hj
  | true =>
    refine sound_state (hj.good.now trivial rfl) ?_
    exact sound_set (k := .ret) (hj.good.now rfl rfl) (hj.edit hk ⟨rfl, rfl, rfl⟩)

theorem tradeBar_sound (hk : KeepsHeld ch late T G H) (h : Joined d.rule G w) (hn : w.mem.pending = none)
    (hK : ∀ w o, K w (.order o) → d.rule.isGrid = true → w.mem.pending = none)
    (hT : ∀ w, K w .state → ∀ take, (actsOf w.mem d.live).takeProfit = some take → T take) (bars : List (Bar F)) (ctx : Ctx F)
    (close bid : F) (ts : ℤ) : (tradeBar d bars ctx close bid ts).Sound (desk d ch K).answers (AsksNow ch d.rule G)
      (fun _ w' => Joined d.rule G w') w := by
  unfold tradeBar
  simp only [Prog.bind_eq]
  refine sound_read (h.good.now trivial rfl) fun hread => ?_
  split
  · exact ruleOrders_sound hk h hn hK bars ctx close ts
  rename_i take htake
  refine Prog.Sound.seq (takeGains_sound hk (hT w hread take htake) bid ts close _ h) ?_
  rintro - w' hj
  refine sound_state (hj.good.now trivial rfl) (.ite (fun _ => hj) fun hnot => ?_)
  have hn' : w'.mem.pending = none := by
    simp only [Bool.or_eq_true, not_or, Bool.not_eq_true, Option.isSome_eq_false_iff, Option.isNone_iff_eq_none] at hnot
    exact hnot.1
  exact ruleOrders_sound hk hj hn' hK bars ctx close ts

/-- One bar: an open swap first, then the budget, the stop, the gains and the rule. -/
theorem onBar_sound (hk : KeepsHeld ch late T G H) (h : Joined d.rule G w)
    (hK : ∀ w o, K w (.order o) → d.rule.isGrid = true → w.mem.pending = none)
    (hT : ∀ w, K w .state → ∀ take, (actsOf w.mem d.live).takeProfit = some take → T take) (bars : List (Bar F)) (ctx : Ctx F)
    (bid : F) {ts : ℤ} (ht : late ts w.chain) : (onBar d bars ctx bid ts).Sound (desk d ch K).answers (AsksNow ch d.rule G)
      (fun _ w' => Joined d.rule G w') w := by
  unfold onBar
  simp only [Prog.bind_eq]
  split
  · exact h
  refine sound_state (h.good.now trivial rfl) (.ite (fun _ => h) fun _ => ?_)
  refine Prog.Sound.seq (reconcile_sound hk h ht) ?_
  rintro - w₁ h₁
  refine sound_state (h₁.good.now trivial rfl) (.ite (fun _ => h₁) fun hn => ?_)
  have hn₁ : w₁.mem.pending = none := by simpa using hn
  refine Prog.Sound.seq (fund_sound hk h₁ hn₁ bid ts) ?_
  rintro - w₂ ⟨h₂, hf⟩
  refine sound_state (h₂.good.now trivial rfl) (.ite (fun _ => h₂) fun hfunded => ?_)
  have hn₂ : w₂.mem.pending = none := hf (by simpa using hfunded)
  exact .ite (fun _ => stopRun_sound hk h₂ hn₂ _ ts) fun _ => tradeBar_sound hk h₂ hn₂ hK hT bars ctx _ bid ts

theorem look_sound (hk : KeepsHeld ch late T G H) (h : Joined d.rule G w)
    (hK : ∀ w o, K w (.order o) → d.rule.isGrid = true → w.mem.pending = none)
    (hT : ∀ w, K w .state → ∀ take, (actsOf w.mem d.live).takeProfit = some take → T take) (bars : List (Bar F)) (ctx : Ctx F)
    (bid ask_ : F) {ts : ℤ} (ht : late ts w.chain) : (Lab.look d bars ctx bid ask_ ts).Sound (desk d ch K).answers
      (AsksNow ch d.rule G) (fun _ w' => Joined d.rule G w') w := by
  unfold Lab.look
  simp only [Prog.bind_eq]
  refine sound_state (h.good.now trivial rfl) ?_
  exact .ite (fun _ => h) fun _ => onBar_sound hk h hK hT bars ctx bid ht

theorem changeActs_sound (hk : KeepsHeld ch late T G H) (h : Joined d.rule G w) (to_ : Acts F) :
    (changeActs d to_).Sound (desk d ch K).answers (AsksNow ch d.rule G) (fun _ w' => Joined d.rule G w') w := by
  unfold changeActs
  simp only [Prog.bind_eq]
  refine sound_state (h.good.now trivial rfl) (.ite (fun _ => h) fun _ => .ite (fun _ => h) fun _ => ?_)
  refine save_sound hk h ?_ ()
  exact ⟨rfl, rfl, rfl⟩

/-! ### The calls, and every run of them -/

/-- The clock is read, for a time that is now or past ever after. -/
theorem sound_clock (hk : KeepsHeld ch late T G H) (h : Joined d.rule G w) {α : Type} {Q : α → World F X → Prop}
    {k : ℤ → Act F α} (hnext : ∀ t w', Joined d.rule G w' → late t w'.chain → w'.mem = w.mem →
      (k t).Sound (desk d ch K).answers (AsksNow ch d.rule G) Q w') :
    (nowMs.bind k).Sound (desk d ch K).answers (AsksNow ch d.rule G) Q w :=
  sound_now (h.good.now trivial rfl) fun t _ hx => hnext t _ (h.clocks hk hx) (hk.late_clock hx) rfl

/-- A good state is written down at the end of a call. -/
theorem write_sound (h : Good d.rule G w) : (ask (F := F) .write).Sound (desk d ch K).answers (AsksNow ch d.rule G)
    (fun _ w' => Joined d.rule G w') w := sound_write (k := .ret) (h.now trivial rfl) h.write

theorem prog_sound (hk : KeepsHeld ch late T G H) (hK : ∀ w o, K w (.order o) → d.rule.isGrid = true → w.mem.pending = none)
    (hT : ∀ w, K w .state → ∀ take, (actsOf w.mem d.live).takeProfit = some take → T take)
    (h : Joined d.rule G w) (c : Call F) : (c.prog d).Sound (desk d ch K).answers (AsksNow ch d.rule G)
      (fun _ w' => Joined d.rule G w') w := by
  cases c with
  | start toActs toBudget bid =>
    simp only [Call.prog, Prog.bind_eq]
    refine sound_clock hk h fun t w₁ h₁ ht₁ _ => ?_
    refine Prog.Sound.seq (reconcile_sound hk h₁ ht₁) ?_
    rintro - w₂ h₂
    -- the budget is set aside last, after the wishes left for it
    have hfund : ∀ w₃ : World F X, Joined d.rule G w₃ → (state.bind fun s => if s.pending.isNone then
        nowMs.bind fun t => (fund d bid t).bind fun _ => ask .write else ask .write).Sound
          (desk d ch K).answers (AsksNow ch d.rule G) (fun _ w' => Joined d.rule G w') w₃ := by
      intro w₃ h₃
      refine sound_state (h₃.good.now trivial rfl) (.ite (fun hn => ?_) fun _ => write_sound h₃.good)
      refine sound_clock hk h₃ fun t₄ w₄ h₄ _ hm₄ => ?_
      have hn₄ : w₄.mem.pending = none := by
        rw [hm₄]
        exact Option.isNone_iff_eq_none.mp hn
      exact Prog.Sound.seq (fund_sound hk h₄ hn₄ bid t₄) fun _ w₅ h₅ => write_sound h₅.1.good
    have hwish : ∀ to_ (w₃ : World F X), Joined d.rule G w₃ → (nowMs.bind fun t => (rebudget d to_ bid t).bind fun _ =>
        state.bind fun s => if s.pending.isNone then nowMs.bind fun t => (fund d bid t).bind fun _ => ask .write
          else ask .write).Sound (desk d ch K).answers (AsksNow ch d.rule G) (fun _ w' => Joined d.rule G w') w₃ :=
      fun to_ w₃ h₃ => sound_clock hk h₃ fun t₄ w₄ h₄ ht₄ _ =>
        Prog.Sound.seq (rebudget_sound hk h₄ to_ bid ht₄) fun _ w₅ h₅ => hfund w₅ h₅
    cases toActs with
    | none =>
      cases toBudget with
      | none => exact hfund w₂ h₂
      | some to_ => exact hwish to_ w₂ h₂
    | some acts =>
      refine Prog.Sound.seq (changeActs_sound hk h₂ acts) fun _ w₃ h₃ => ?_
      cases toBudget with
      | none => exact hfund w₃ h₃
      | some to_ => exact hwish to_ w₃ h₃
  | acts to_ => exact changeActs_sound hk h to_
  | wish to_ bid =>
    simp only [Call.prog, Prog.bind_eq]
    refine sound_clock hk h fun t w₁ h₁ ht₁ _ => ?_
    refine Prog.Sound.seq (rebudget_sound hk h₁ to_ bid ht₁) ?_
    rintro - w₂ h₂
    exact write_sound h₂.good
  | look bars ctx bid ask_ saves =>
    simp only [Call.prog, Prog.bind_eq]
    refine sound_clock hk h fun t w₁ h₁ ht₁ _ => ?_
    refine Prog.Sound.seq (look_sound hk h₁ hK hT bars ctx bid ask_ ht₁) ?_
    rintro - w₂ h₂
    exact .ite (fun _ => write_sound h₂.good) fun _ => h₂
  | close bid =>
    simp only [Call.prog, Prog.bind_eq]
    refine sound_clock hk h fun t w₁ h₁ ht₁ _ => ?_
    refine Prog.Sound.seq (reconcile_sound hk h₁ ht₁) ?_
    rintro - w₂ h₂
    refine sound_state (h₂.good.now trivial rfl) (.ite (fun hn => ?_) fun _ => write_sound h₂.good)
    refine sound_clock hk h₂ fun t₃ w₃ h₃ _ hm₃ => ?_
    have hn₃ : w₃.mem.pending = none := by
      rw [hm₃]
      exact Option.isNone_iff_eq_none.mp hn
    refine Prog.Sound.seq (sellAll_sound hk h₃ hn₃ t₃ bid) ?_
    rintro c w₄ h₄
    refine .ite (fun _ => ?_) fun _ => write_sound h₄.good
    refine sound_state (h₄.good.now trivial rfl) (sound_set (h₄.good.now rfl rfl) ?_)
    refine write_sound (h₄.edit hk ?_).good
    exact ⟨rfl, rfl, rfl⟩

/-- In every run the states are good, one swap is open at a time, and what is settled is the open one. -/
theorem desk_held (hk : KeepsHeld ch late T G H) (hK : ∀ w o, K w (.order o) → d.rule.isGrid = true → w.mem.pending = none)
    (hT : ∀ w, K w .state → ∀ take, (actsOf w.mem d.live).takeProfit = some take → T take)
    {w₀ : World F X} (h : Joined d.rule G w₀) {s : Shell.Status (Op.Ans (F := F)) (World F X)}
    (hs : (desk d ch K).Reach w₀ s) : (desk d ch K).Safe (Joined d.rule G) (AsksNow ch d.rule G) s := by
  refine Shell.safe (desk d ch K) h (fun c w hj _ => prog_sound hk hK hT hj c) (fun w o ha => ha.restart)
    (fun w hj => hj.restart) ?_ hs
  rintro w w' hj ⟨x, hx, rfl⟩
  exact hj.passes hk hx

/-- **In every run, whatever the chain does and wherever it is stopped, the
states are good and one swap is open at a time.** -/
theorem desk_safe (hk : Keeps ch late G H) (hK : ∀ w o, K w (.order o) → d.rule.isGrid = true → w.mem.pending = none)
    {w₀ : World F X} (h : Joined d.rule G w₀) {s : Shell.Status (Op.Ans (F := F)) (World F X)}
    (hs : (desk d ch K).Reach w₀ s) : (desk d ch K).Safe (Joined d.rule G) (Asks d.rule G) s :=
  (desk_held (hk.anyHeld (T := fun _ => True)) hK (fun _ _ _ _ => trivial) h hs).weaken fun _ _ ha => ha.toAsks

end Specs

end Lab
end MobiusSearcher
