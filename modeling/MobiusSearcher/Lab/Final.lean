/-
# The total stop is final

The trader's operations, asked for in any order and each stopped anywhere
(`operator`). Once the stop has frozen the account, every swap that is sent is
a sale of a lot that is held and the budget is never raised; once the run has
ended, nothing is sent and the state does not change (`stop_is_final`).

Two conditions. `rebudget` looks at whether the run has ended and not at
whether it is frozen: no raise may be asked of a frozen run (`NoRaise`), or it
sends one (`raised_while_frozen`). And the two flags are set in memory first:
the program may not be stopped before they are written down (`Goes`).

Key definitions: `Deed`, `operator`, `Raises`, `Goes`, `Final`, `Heeds`.
Key theorems: `deed_kept`, `goes_step`, `stop_is_final`, `raised_while_frozen`.
-/
import MobiusSearcher.Lab.OneSwap

namespace MobiusSearcher
namespace Lab

open FloatOps Machine

/-- An operation of the trader, a run closed by hand, or the state written down. -/
inductive Deed (F : Type)
  | onBar (bars : List (Bar F)) (ctx : Ctx F) (bid : F) (ts : ℤ)
  | look (bars : List (Bar F)) (ctx : Ctx F) (bid ask : F) (ts : ℤ)
  | rebudget (to_ bid : F) (ts : ℤ)
  | sellAll (ts : ℤ) (close : F)
  | fund (bid : F) (ts : ℤ)
  | reconcile (ts : ℤ)
  | acts (to_ : Acts F)
  | closeRun (bid : F) (ts : ℤ)
  | write

variable {F X : Type}

/-! ### What every operation keeps -/

/-- A frozen run has its budget set aside, and no swap open but a sale; one
that has ended holds nothing and has none open. -/
structure Final (s : State F) : Prop where
  frozen : s.account.frozen = true → s.funded = true ∧ ∀ p, s.pending = some p → ∃ i, p.what = .sell i
  ended : s.ended.isSome = true → s.pending = none ∧ s.account.lots = []

/-- So in memory and in what is written down; and what has ended there is what is in memory. -/
structure Kept (w : World F X) : Prop where
  mem : Final w.mem
  disk : Final w.disk
  past : w.disk.ended.isSome = true → w.mem = w.disk

/-- The flags are as they were, what was set aside is, and a frozen run's budget is as it was. -/
structure Since (s s' : State F) : Prop where
  frozen : s'.account.frozen = s.account.frozen
  ended : s'.ended = s.ended
  funded : s.funded = true → s'.funded = true
  budget : s.account.frozen = true → s'.budget = s.budget

section Data

variable {s s' s'' : State F} {w : World F X}

theorem Since.refl (s : State F) : Since s s := ⟨rfl, rfl, id, fun _ => rfl⟩

theorem Since.trans (h : Since s s') (h' : Since s' s'') : Since s s'' :=
  ⟨h'.frozen.trans h.frozen, h'.ended.trans h.ended, fun hf => h'.funded (h.funded hf), fun hf =>
    (h'.budget (h.frozen.trans hf)).trans (h.budget hf)⟩

theorem Final.since (h : Final s) (he : s.ended = none) (hs : Since s s')
    (hp : s'.account.frozen = true → ∀ p, s'.pending = some p → ∃ i, p.what = .sell i) : Final s' := by
  refine ⟨fun hf => ⟨hs.funded (h.frozen (hs.frozen ▸ hf)).1, hp hf⟩, fun ho => ?_⟩
  rw [hs.ended, he] at ho
  exact nomatch ho

theorem Final.noPending (h : Final s) (he : s.ended = none) : Final { s with pending := none } :=
  h.since he ⟨rfl, rfl, id, fun _ => rfl⟩ fun _ _ hp => nomatch hp

theorem Kept.diskOpen (h : Kept w) (he : w.mem.ended = none) : w.disk.ended = none := by
  by_contra hd
  have hsome : w.disk.ended.isSome = true := Option.isSome_iff_ne_none.mpr hd
  rw [← h.past hsome] at hd
  exact hd he

theorem Kept.setMem (h : Kept w) (he : w.mem.ended = none) (hs : Final s) : Kept { w with mem := s } := by
  refine ⟨hs, h.disk, fun ho => ?_⟩
  have hd : w.disk.ended.isSome = true := ho
  rw [h.diskOpen he] at hd
  exact nomatch hd

theorem Kept.write (h : Kept w) : Kept { w with disk := w.mem, kept := w.applied } := ⟨h.mem, h.mem, fun _ => rfl⟩

theorem Kept.chain (h : Kept w) (x : X) : Kept { w with chain := x } := ⟨h.mem, h.disk, h.past⟩

theorem Kept.restart (h : Kept w) : Kept w.restart := ⟨h.disk, h.disk, fun _ => rfl⟩

theorem Kept.noPending (h : Kept w) (he : w.mem.ended = none) :
    Kept { w with mem := { w.mem with pending := none } } := h.setMem he (h.mem.noPending he)

/-- A state with an open swap has not ended. -/
theorem Final.openNone (h : Final s) {p : Pending F} (hp : s.pending = some p) : s.ended = none := by
  by_contra he
  have hno := (h.ended (Option.isSome_iff_ne_none.mpr he)).1
  rw [hp] at hno
  exact nomatch hno

/-- A run that trades: its stop is not set. -/
structure Trading (w : World F X) : Prop where
  kept : Kept w
  going : w.mem.ended = none
  melted : w.mem.account.frozen = false

theorem Trading.since {w' : World F X} (h : Trading w) (hk : Kept w') (hs : Since w.mem w'.mem) : Trading w' :=
  ⟨hk, hs.ended.trans h.going, hs.frozen.trans h.melted⟩

theorem Trading.not_frozen (h : Trading w) {P : Prop} (hf : w.mem.account.frozen = true) : P := by
  rw [h.melted] at hf
  exact nomatch hf

end Data

/-! ### The operations, in any order -/

variable [FloatOps F]

def Deed.prog (d : Desk F) : Deed F → Act F Unit
  | .onBar bars ctx bid ts => Lab.onBar d bars ctx bid ts
  | .look bars ctx bid ask_ ts => Lab.look d bars ctx bid ask_ ts
  | .rebudget to_ bid ts => do
    let _ ← Lab.rebudget d to_ bid ts
    pure ()
  | .sellAll ts close => do
    let _ ← Lab.sellAll ts close
    pure ()
  | .fund bid ts => Lab.fund d bid ts
  | .reconcile ts => Lab.reconcile ts
  | .acts to_ => changeActs d to_
  | .closeRun bid ts => do
    Lab.reconcile ts
    let s ← state
    if s.pending.isNone then
      if ← Lab.sellAll ts bid then
        let s ← state
        ask (.set { s with ended := some .closedByHand })
      else pure ()
    else pure ()
  | .write => ask .write

/-- The operations, in any order; `A` is a condition on what is asked for. A
run that has ended is not closed by hand. -/
def operator (d : Desk F) (ch : Chain F X) (A : World F X → Deed F → Prop) :
    Shell (Op.Ans (F := F)) (World F X) (Deed F) where
  prog := Deed.prog d
  calls c w := A w c ∧ ∀ bid ts, c = .closeRun bid ts → w.mem.ended = none
  answers := (desk d ch fun _ _ => True).answers
  restart := World.restart
  passes w w' := ∃ x, ch.passes w.chain x ∧ w' = { w with chain := x }

/-- The wish is for a larger budget, and is not refused at once. -/
def Raises (live : Live F) (s : State F) (to_ : F) : Prop :=
  s.ended = none ∧ (le minBudgetUsd to_ && le to_ maxBudgetUsd) = true ∧
    lt (abs (to_ - budgetOf s live)) (lit (5 / 1000)) = false ∧ lt to_ (budgetOf s live) = false

/-- No raise is asked of a frozen run. -/
def NoRaise (d : Desk F) (w : World F X) : Deed F → Prop
  | .rebudget to_ _ _ => w.mem.account.frozen = true → ¬Raises d.live w.mem to_
  | _ => True

/-- What a stopped run has in memory is written down: its flags and its budget. -/
def Written (w : World F X) : Prop :=
  w.mem.account.frozen = true ∨ w.mem.ended.isSome = true →
    w.disk.account.frozen = w.mem.account.frozen ∧ w.disk.ended = w.mem.ended ∧ w.disk.budget = w.mem.budget

/-- A step in which no raise is asked of a frozen run, and no flag is lost. -/
structure Goes (d : Desk F) (ch : Chain F X) (s t : Shell.Status (Op.Ans (F := F)) (World F X)) : Prop where
  moves : (operator d ch (NoRaise d)).Moves s t
  written : t = .idle s.world.restart → Written s.world

/-- What is sent is the sale of a lot that is held. -/
def SendsHeld : Shell.Status (Op.Ans (F := F)) (World F X) → Prop
  | .busy w (.ask (.swap sellSol amount _) _) =>
    sellSol = true ∧ ∃ p i l, w.mem.pending = some p ∧ p.what = .sell i ∧ w.mem.account.lots[i]? = some l ∧
      amount = saleAmount l.sol
  | _ => True

/-- Nothing is sent. -/
def SendsNothing : Shell.Status (Op.Ans (F := F)) (World F X) → Prop
  | .busy _ (.ask (.swap ..) _) => False
  | _ => True

/-- The budget is the same, or lower. -/
def NotRaised (live : Live F) (s s' : State F) : Prop :=
  budgetOf s' live = budgetOf s live ∨ lt (budgetOf s' live) (budgetOf s live) = true

/-- What a frozen run asks for keeps it frozen, raises nothing and sends only
sales of what is held; a run that has ended asks for no change. -/
def Heeds (live : Live F) (w : World F X) : Op F → Prop
  | .set s => w.mem.ended = none ∧ (w.mem.account.frozen = true → s.account.frozen = true ∧ NotRaised live w.mem s)
  | .hold _ | .release => w.mem.ended = none
  | .settle p _ _ => w.mem.ended = none ∧ (w.mem.account.frozen = true → ∃ i, p.what = .sell i)
  | .swap sellSol amount _ => w.mem.ended = none ∧ (w.mem.account.frozen = true → sellSol = true ∧ ∃ p i l,
      w.mem.pending = some p ∧ p.what = .sell i ∧ w.mem.account.lots[i]? = some l ∧ amount = saleAmount l.sol)
  | _ => True

structure Heeded (live : Live F) (w : World F X) (o : Op F) : Prop where
  kept : Kept w
  op : Heeds live w o

section Data

variable {s : State F} {live : Live F}

theorem sold_frozen (a : Account F) (i : ℕ) (usd : F) (ts : ℤ) (close : F) :
    (a.sold i usd ts close).frozen = a.frozen := by
  unfold Account.sold
  split <;> rfl

/-- A sale that is read from the wallet touches neither the flags nor the budget; no swap touches the flags. -/
theorem settle_since {p : Pending F} {wallet : Wallet} {lastLook : Bool}
    (hp : s.account.frozen = true → ∃ i, p.what = .sell i) : Since s (s.settle live p wallet lastLook).1 := by
  unfold State.settle
  simp only
  cases hw : p.what with
  | fund =>
    simp only
    split
    · exact ⟨rfl, rfl, fun _ => rfl, fun _ => rfl⟩
    · exact .refl s
  | buy =>
    simp only
    split
    · exact ⟨rfl, rfl, id, fun _ => rfl⟩
    · exact .refl s
  | sell i =>
    simp only
    split
    · exact ⟨sold_frozen .., rfl, id, fun _ => rfl⟩
    · exact .refl s
  | «raise» to_ =>
    simp only
    split
    · refine ⟨rfl, rfl, id, fun hf => ?_⟩
      obtain ⟨i, hi⟩ := hp hf
      rw [hw] at hi
      exact nomatch hi
    · exact .refl s

end Data

/-! ### What an operation asks -/

section Specs

variable {d : Desk F} {ch : Chain F X} {w : World F X}

/-- What the questions are answered by. -/
abbrev hears (d : Desk F) (ch : Chain F X) := (desk d ch fun _ _ => True).answers

/-- The open swap that was read from the wallet is closed. -/
theorem seen_kept (h : Kept w) {p : Pending F} (hp : w.mem.pending = some p) {wallet : Wallet} {x : X} :
    Kept { w with
      mem := (w.mem.settle d.live p wallet false).1, applied := w.applied ++ [(p, wallet)], chain := x } ∧
    Since w.mem (w.mem.settle d.live p wallet false).1 := by
  have he := h.mem.openNone hp
  have hsell : w.mem.account.frozen = true → ∃ i, p.what = .sell i := fun hf => (h.mem.frozen hf).2 p hp
  have hsince : Since w.mem (w.mem.settle d.live p wallet false).1 := settle_since hsell
  have hfinal : Final (w.mem.settle d.live p wallet false).1 := by
    refine h.mem.since he hsince fun hf q hq => ?_
    rw [settle_pending, hp] at hq
    obtain rfl := Option.some.inj hq
    exact hsell (hsince.frozen ▸ hf)
  exact ⟨⟨hfinal, h.disk, fun ho => (h.setMem he hfinal).past ho⟩, hsince⟩

theorem lookFor_kept {p : Pending F} : ∀ (n : ℕ) {w : World F X}, Kept w → w.mem.pending = some p →
    (lookFor p n).Sound (hears d ch) (Heeded d.live)
      (fun c w' => Kept w' ∧ Since w.mem w'.mem ∧ (c = true → w'.mem.pending = none) ∧ (c = false → w'.mem = w.mem)) w
  | 0, w, h, _ => ⟨h, .refl _, nofun, fun _ => rfl⟩
  | n + 1, w, h, hp => by
    have he := h.mem.openNone hp
    unfold lookFor
    simp only [Prog.bind_eq]
    refine sound_balances ⟨h, trivial⟩ fun a x _ => ?_
    cases a with
    | none => exact lookFor_kept n (h.chain x) hp
    | some wallet =>
      refine sound_settle ⟨h.chain x, he, fun hf => (h.mem.frozen hf).2 p hp⟩ (fun _ => ?_) fun _ => ?_
      · obtain ⟨hk, hs⟩ := @seen_kept _ _ _ d w h p hp wallet x
        have he' := hs.ended.trans he
        refine sound_release ⟨hk, he'⟩ ?_
        exact ⟨hk.noPending he', ⟨hs.frozen, hs.ended, hs.funded, hs.budget⟩, fun _ => rfl, nofun⟩
      · exact lookFor_kept n (h.chain x) hp

/-- A swap of a run that has not ended: if the run is frozen, the sale of a lot that is held. -/
theorem actFor_kept (h : Kept w) (he : w.mem.ended = none) {what : What F} {amount : ℕ}
    (hf : w.mem.account.frozen = true → ∃ i l, what = .sell i ∧ w.mem.account.lots[i]? = some l ∧
      amount = saleAmount l.sol) (atLeast : ℕ) (ts : ℤ) (close : F) :
    (actFor what amount atLeast ts close).Sound (hears d ch) (Heeded d.live)
      (fun c w' => Kept w' ∧ Since w.mem w'.mem ∧ (c = true → w'.mem.pending = none) ∧
        (c = false → ∃ q, w'.mem = { w.mem with pending := q })) w := by
  unfold actFor
  simp only [Prog.bind_eq]
  refine sound_balances ⟨h, trivial⟩ fun a x _ => ?_
  have hr := h.chain x
  cases a with
  | none => exact ⟨hr, .refl _, nofun, fun _ => ⟨w.mem.pending, rfl⟩⟩
  | some wallet =>
    obtain ⟨lamports, usdc⟩ := wallet
    refine .ite (fun _ => ⟨hr, .refl _, nofun, fun _ => ⟨w.mem.pending, rfl⟩⟩) fun _ => ?_
    set p : Pending F := ⟨what, lamports, usdc, ts, close⟩
    have hheld : Kept { w with mem := { w.mem with pending := some p }, chain := x } := by
      refine hr.setMem he (h.mem.since he ⟨rfl, rfl, id, fun _ => rfl⟩ fun hfz q hq => ?_)
      obtain rfl := Option.some.inj hq
      obtain ⟨i, l, hi, -⟩ := hf hfz
      exact ⟨i, hi⟩
    refine sound_hold ⟨hr, he⟩ (sound_write ⟨hheld, trivial⟩ ?_)
    have hw := hheld.write
    refine Prog.Sound.seq (Q := fun c w' => Kept w' ∧ Since w.mem w'.mem ∧ (c = true → w'.mem.pending = none) ∧
      (c = false → ∃ q, w'.mem = { w.mem with pending := q })) ?_ ?_
    · refine sound_swap ⟨hw, he, fun hfz => ?_⟩ fun a x' _ => ?_
      · obtain ⟨i, l, hi, hl, hamount⟩ := hf hfz
        rw [hi]
        exact ⟨rfl, p, i, l, rfl, hi, hl, hamount⟩
      · have hsent := hw.chain x'
        cases a with
        | notSent =>
          refine sound_release ⟨hsent, he⟩ ?_
          exact ⟨hsent.noPending he, ⟨rfl, rfl, id, fun _ => rfl⟩, nofun, fun _ => ⟨none, rfl⟩⟩
        | simulated =>
          refine sound_release ⟨hsent, he⟩ ?_
          exact ⟨hsent.noPending he, ⟨rfl, rfl, id, fun _ => rfl⟩, nofun, fun _ => ⟨none, rfl⟩⟩
        | sent =>
          refine (lookFor_kept 6 hsent rfl).mono fun c w' hc => ?_
          obtain ⟨hk, hs, hyes, hno⟩ := hc
          exact ⟨hk, ⟨hs.frozen, hs.ended, hs.funded, hs.budget⟩, hyes, fun hc' => ⟨some p, hno hc'⟩⟩
    · rintro c w' ⟨hk, hs, hyes, hno⟩
      exact sound_write ⟨hk, trivial⟩ ⟨hk.write, hs, hyes, hno⟩

theorem reconcile_kept (h : Kept w) (now : ℤ) : (reconcile now).Sound (hears d ch) (Heeded d.live)
    (fun _ w' => Kept w' ∧ Since w.mem w'.mem) w := by
  unfold reconcile
  simp only [Prog.bind_eq]
  refine sound_state ⟨h, trivial⟩ ?_
  split
  · exact ⟨h, .refl _⟩
  · rename_i p hp
    have he := h.mem.openNone hp
    refine sound_balances ⟨h, trivial⟩ fun a x _ => ?_
    have hr := h.chain x
    cases a with
    | none => exact ⟨hr, .refl _⟩
    | some wallet =>
      refine sound_settle ⟨hr, he, fun hf => (h.mem.frozen hf).2 p hp⟩ (fun _ => ?_) fun _ => ?_
      · obtain ⟨hk, hs⟩ := @seen_kept _ _ _ d w h p hp wallet x
        have he' := hs.ended.trans he
        have hrel := hk.noPending he'
        refine sound_release ⟨hk, he'⟩ (sound_write (k := .ret) ⟨hrel, trivial⟩ ?_)
        exact ⟨hrel.write, hs.frozen, hs.ended, hs.funded, hs.budget⟩
      · by_cases hl : settledAfterMs ≤ now - p.ts
        · simp only [decide_eq_true hl]
          have hrel := hr.noPending he
          refine sound_release ⟨hr, he⟩ (sound_write (k := .ret) ⟨hrel, trivial⟩ ?_)
          exact ⟨hrel.write, rfl, rfl, id, fun _ => rfl⟩
        · simp only [decide_eq_false hl]
          exact ⟨hr, .refl _⟩

/-- A frozen run has its budget: only one that is not frozen sets it aside. -/
theorem fund_kept (h : Kept w) (bid : F) (ts : ℤ) : (fund d bid ts).Sound (hears d ch) (Heeded d.live)
    (fun _ w' => Kept w' ∧ Since w.mem w'.mem ∧
      (w.mem.pending = none → w'.mem.funded = true → w'.mem.pending = none)) w := by
  unfold fund
  simp only [Prog.bind_eq]
  refine sound_state ⟨h, trivial⟩ (.ite (fun _ => ⟨h, .refl _, fun hn _ => hn⟩) fun hopen => ?_)
  have hnew : w.mem.funded = false ∧ w.mem.ended = none := by simpa using hopen
  have hmelt : w.mem.account.frozen = true → False := by
    intro hf
    have hfund := (h.mem.frozen hf).1
    rw [hnew.1] at hfund
    exact nomatch hfund
  refine sound_balances ⟨h, trivial⟩ fun a x _ => ?_
  have hr := h.chain x
  cases a with
  | none => exact ⟨hr, .refl _, fun hn _ => hn⟩
  | some wallet =>
    refine .ite (fun _ => ?_) fun _ => ?_
    · refine sound_set (k := .ret) ⟨hr, hnew.2, fun hf => (hmelt hf).elim⟩ ?_
      refine ⟨hr.setMem hnew.2 (h.mem.since hnew.2 ⟨rfl, rfl, fun _ => rfl, fun _ => rfl⟩ ?_),
        ⟨rfl, rfl, fun _ => rfl, fun _ => rfl⟩, fun hn _ => hn⟩
      exact fun hf => (hmelt hf).elim
    · generalize wrapU64 (_ + wrapU64 (d.feeReserve + fundHeadroom)) = least
      refine .ite (fun _ => ⟨hr, .refl _, fun hn _ => hn⟩) fun _ => ?_
      refine Prog.Sound.seq (actFor_kept hr hnew.2 (fun hf => (hmelt hf).elim) _ _ _) ?_
      rintro c w' ⟨hk, hs, hyes, hno⟩
      refine ⟨hk, hs, fun _ hfund => ?_⟩
      cases c with
      | true => exact hyes rfl
      | false =>
        obtain ⟨q, hq⟩ := hno rfl
        rw [hq] at hfund
        exact absurd (hnew.1.symm.trans hfund) nofun

/-- A change of the budget or of how it acts, written down. -/
theorem save_kept (h : Kept w) (he : w.mem.ended = none) {s : State F} (hs : Since { w.mem with budget := s.budget } s)
    (hp : s.pending = w.mem.pending) (hb : w.mem.account.frozen = true → NotRaised d.live w.mem s) {α : Type} (a : α) :
    ((ask (.set s)).bind fun _ => (ask .write).bind fun _ => .ret a).Sound (hears d ch) (Heeded d.live)
      (fun _ w' => Kept w') w := by
  have hfinal : Final s := by
    refine ⟨fun hf => ?_, fun ho => ?_⟩
    · have hfz : w.mem.account.frozen = true := hs.frozen ▸ hf
      refine ⟨hs.funded (h.mem.frozen hfz).1, fun p hsp => ?_⟩
      exact (h.mem.frozen hfz).2 p (hp ▸ hsp)
    · have hends : s.ended = none := hs.ended.trans he
      rw [hends] at ho
      exact nomatch ho
  have hset := h.setMem he hfinal
  refine sound_set ⟨h, he, fun hf => ⟨hs.frozen.trans hf, hb hf⟩⟩ ?_
  exact sound_write ⟨hset, trivial⟩ hset.write

theorem lower_kept (h : Kept w) (he : w.mem.ended = none) {to_ : F} (hlow : lt to_ (budgetOf w.mem d.live) = true) :
    (lower w.mem (budgetOf w.mem d.live) to_).Sound (hears d ch) (Heeded d.live) (fun _ w' => Kept w') w := by
  unfold lower
  refine .ite (fun _ => h) fun _ => ?_
  refine save_kept h he ?_ ?_ (fun _ => ?_) _
  · exact ⟨rfl, rfl, id, fun _ => rfl⟩
  · rfl
  · exact .inr hlow

/-- The budget of a run that is not frozen is raised. -/
theorem raise_kept (h : Kept w) (he : w.mem.ended = none) (hf : w.mem.account.frozen = false) (old to_ bid : F) (ts : ℤ) :
    (raise d w.mem old to_ bid ts).Sound (hears d ch) (Heeded d.live) (fun _ w' => Kept w') w := by
  have hmelt : w.mem.account.frozen = true → False := by
    intro hf'
    rw [hf] at hf'
    exact nomatch hf'
  unfold raise
  simp only [Prog.bind_eq]
  refine sound_balances ⟨h, trivial⟩ fun a x _ => ?_
  have hr := h.chain x
  cases a with
  | none => exact hr
  | some wallet =>
    refine .ite (fun _ => ?_) fun _ => .ite (fun _ => hr) fun _ => ?_
    · refine save_kept hr he ?_ ?_ (fun hf => (hmelt hf).elim) _
      · exact ⟨rfl, rfl, id, fun _ => rfl⟩
      · rfl
    · refine Prog.Sound.seq (actFor_kept hr he (fun hf => (hmelt hf).elim) _ _ _) ?_
      rintro c w' ⟨hk, -⟩
      exact .ite (fun _ => hk) fun _ => hk

/-- The budget is changed; that of a frozen run is not raised. -/
theorem rebudget_kept (h : Kept w) {to_ : F} (hno : w.mem.account.frozen = true → ¬Raises d.live w.mem to_) (bid : F)
    (ts : ℤ) : (rebudget d to_ bid ts).Sound (hears d ch) (Heeded d.live) (fun _ w' => Kept w') w := by
  unfold rebudget
  simp only [Prog.bind_eq]
  refine sound_state ⟨h, trivial⟩ (.ite (fun _ => h) fun hopen => .ite (fun _ => h) fun hrange => ?_)
  have he : w.mem.ended = none := by simpa using hopen
  have hin : (le minBudgetUsd to_ && le to_ maxBudgetUsd) = true := by simpa using hrange
  refine Prog.Sound.seq (reconcile_kept h ts) ?_
  rintro - w' ⟨hk, hs⟩
  have he' : w'.mem.ended = none := hs.ended.trans he
  refine sound_state ⟨hk, trivial⟩ (.ite (fun _ => hk) fun _ => .ite (fun _ => hk) fun hfar => ?_)
  refine .ite (fun hnew => ?_) fun _ => .ite (fun hlow => lower_kept hk he' hlow) fun hhigh => ?_
  · refine save_kept hk he' ?_ ?_ (fun hf => ?_) _
    · exact ⟨rfl, rfl, id, fun _ => rfl⟩
    · rfl
    · have hfund := (hk.mem.frozen hf).1
      rw [hfund] at hnew
      exact nomatch hnew
  · refine raise_kept hk he' ?_ _ to_ bid ts
    -- a frozen run is not asked for more
    by_contra hfz
    have hf' : w'.mem.account.frozen = true := by simpa using hfz
    have hf : w.mem.account.frozen = true := hs.frozen ▸ hf'
    have hbudget : budgetOf w'.mem d.live = budgetOf w.mem d.live := by
      unfold budgetOf
      rw [hs.budget hf]
    rw [hbudget] at hfar hhigh
    exact hno hf ⟨he, hin, by simpa using hfar, by simpa using hhigh⟩

theorem changeActs_kept (h : Kept w) (to_ : Acts F) : (changeActs d to_).Sound (hears d ch) (Heeded d.live)
    (fun _ w' => Kept w') w := by
  unfold changeActs
  simp only [Prog.bind_eq]
  refine sound_state ⟨h, trivial⟩ (.ite (fun _ => h) fun hopen => .ite (fun _ => h) fun _ => ?_)
  have he : w.mem.ended = none := by
    simp only [Bool.or_eq_true, not_or, Bool.not_eq_true, Option.isSome_eq_false_iff, Option.isNone_iff_eq_none] at hopen
    exact hopen.2
  refine save_kept h he ?_ ?_ (fun _ => ?_) ()
  · exact ⟨rfl, rfl, id, fun _ => rfl⟩
  · rfl
  · exact .inl rfl

/-- The lots are sold one by one: when none is left, no swap is open that was not before. -/
theorem sellAllLoop_kept (ts : ℤ) (close : F) : ∀ (n : ℕ) {w : World F X}, Kept w →
    (sellAllLoop ts close n).Sound (hears d ch) (Heeded d.live) (fun c w' => Kept w' ∧ Since w.mem w'.mem ∧
      (c = true → w'.mem.account.lots = [] ∧ (w.mem.pending = none → w'.mem.pending = none))) w
  | 0, w, h => ⟨h, .refl _, nofun⟩
  | n + 1, w, h => by
    unfold sellAllLoop
    simp only [Prog.bind_eq]
    refine sound_state ⟨h, trivial⟩ ?_
    split
    · rename_i hlast
      exact ⟨h, .refl _, fun _ => ⟨List.getLast?_eq_none_iff.mp hlast, id⟩⟩
    rename_i l hl
    have hheld : w.mem.account.lots[w.mem.account.lots.length - 1]? = some l := by
      rw [← List.getLast?_eq_getElem?]
      exact hl
    have he : w.mem.ended = none := by
      by_contra hover
      have hnil := (h.mem.ended (Option.isSome_iff_ne_none.mpr hover)).2
      rw [hnil] at hl
      exact nomatch hl
    refine Prog.Sound.seq (actFor_kept h he (fun _ => ⟨_, l, rfl, hheld, rfl⟩) _ _ _) ?_
    rintro c w' ⟨hk, hs, hyes, -⟩
    cases c with
    | true =>
      refine (sellAllLoop_kept ts close n hk).mono fun c' w'' hc => ⟨hc.1, hs.trans hc.2.1, fun hc' => ?_⟩
      exact ⟨(hc.2.2 hc').1, fun _ => (hc.2.2 hc').2 (hyes rfl)⟩
    | false => exact ⟨hk, hs, nofun⟩

theorem sellAll_kept (h : Kept w) (ts : ℤ) (close : F) : (sellAll ts close).Sound (hears d ch) (Heeded d.live)
    (fun c w' => Kept w' ∧ Since w.mem w'.mem ∧
      (c = true → w'.mem.account.lots = [] ∧ (w.mem.pending = none → w'.mem.pending = none))) w := by
  unfold sellAll
  exact sound_state ⟨h, trivial⟩ (sellAllLoop_kept ts close _ h)

/-- A run that holds nothing and has no swap open ends. -/
theorem end_kept (h : Kept w) (he : w.mem.ended = none) (hlots : w.mem.account.lots = []) (hn : w.mem.pending = none)
    (why : End) : (ask (.set { w.mem with ended := some why })).Sound (hears d ch) (Heeded d.live)
      (fun _ w' => Kept w') w := by
  refine sound_set (k := .ret) ⟨h, he, fun hf => ⟨hf, .inl rfl⟩⟩ (h.setMem he ?_)
  refine ⟨fun hf => ⟨(h.mem.frozen hf).1, fun p hp => ?_⟩, fun _ => ⟨hn, hlots⟩⟩
  exact nomatch hn.symm.trans hp

/-- The stop freezes a run whose budget is set aside. -/
theorem stopRun_kept (h : Kept w) (he : w.mem.ended = none) (hfund : w.mem.funded = true) (hn : w.mem.pending = none)
    (close : F) (ts : ℤ) : (stopRun close ts).Sound (hears d ch) (Heeded d.live) (fun _ w' => Kept w') w := by
  unfold stopRun
  simp only [Prog.bind_eq]
  have hfinal : Final { w.mem with account := { w.mem.account with frozen := true } } := by
    refine ⟨fun _ => ⟨hfund, fun p hp => nomatch hn.symm.trans hp⟩, fun ho => ?_⟩
    exact nomatch he.symm.trans (Option.isSome_iff_exists.mp ho).choose_spec
  refine sound_state ⟨h, trivial⟩ (sound_set ⟨h, he, fun _ => ⟨rfl, .inl rfl⟩⟩ ?_)
  refine Prog.Sound.seq (sellAll_kept (h.setMem he hfinal) ts close) ?_
  rintro c w' ⟨hk, hs, hsold⟩
  cases c with
  | false => exact hk
  | true =>
    obtain ⟨hlots, hopen⟩ := hsold rfl
    exact sound_state ⟨hk, trivial⟩ (end_kept hk (hs.ended.trans he) hlots (hopen hn) .stopped)

/-- Its own day and reference, and the end of a model's hold: the orders do not touch the stop. -/
theorem orders_frozen (rule : Rule F) (daily : Option F) (capital : F) (acct : Account F) (bars : List (Bar F))
    (ctx : Ctx F) : (orders rule ⟨daily, none⟩ capital acct bars ctx).2.frozen = acct.frozen := by
  have hmark : ∀ bar, (acct.mark ⟨daily, none⟩ capital bar).frozen = acct.frozen := by
    intro bar
    unfold Account.mark
    simp only [Option.any_none, Bool.false_eq_true, if_false]
    split <;> rfl
  unfold orders
  split
  · rfl
  · rename_i bar _
    rw [← hmark bar]
    simp only
    split <;> (repeat' split) <;> rfl

theorem Trading.asks (h : Trading w) {what : What F} {amount atLeast : ℕ} {ts : ℤ} {close : F} :
    (actFor what amount atLeast ts close).Sound (hears d ch) (Heeded d.live) (fun _ w' => Trading w') w := by
  refine (actFor_kept h.kept h.going (fun hf => h.not_frozen hf) atLeast ts close).mono fun _ w' hc => ?_
  exact h.since hc.1 hc.2.1

theorem takeGains_kept (take bid : F) (ts : ℤ) (close : F) : ∀ (n : ℕ) {w : World F X}, Trading w →
    (takeGains d take bid ts close n).Sound (hears d ch) (Heeded d.live) (fun _ w' => Trading w') w
  | 0, _, h => h
  | n + 1, w, h => by
    unfold takeGains
    simp only [Prog.bind_eq]
    refine sound_state ⟨h.kept, trivial⟩ (.ite (fun _ => h) fun _ => ?_)
    split
    · exact h
    · refine .ite (fun _ => ?_) fun _ => takeGains_kept take bid ts close n h
      refine Prog.Sound.seq h.asks ?_
      rintro - w' h'
      exact takeGains_kept take bid ts close n h'

theorem ruleSells_kept (ts : ℤ) (close : F) : ∀ (sells : List ℕ) {w : World F X}, Trading w →
    (ruleSells ts close sells).Sound (hears d ch) (Heeded d.live) (fun _ w' => Trading w') w
  | [], _, h => h
  | i :: rest, w, h => by
    unfold ruleSells
    simp only [Prog.bind_eq]
    refine sound_state ⟨h.kept, trivial⟩ ?_
    split
    · exact ruleSells_kept ts close rest h
    · refine sound_order ⟨h.kept, trivial⟩ fun _ => Prog.Sound.seq h.asks ?_
      rintro - w' h'
      exact ruleSells_kept ts close rest h'

theorem ruleBuys_kept (ts : ℤ) (close : F) : ∀ (wanted : List (Order F)) {w : World F X}, Trading w →
    (ruleBuys ts close wanted).Sound (hears d ch) (Heeded d.live) (fun _ w' => Trading w') w
  | [], _, h => h
  | .sell _ :: rest, w, h => ruleBuys_kept ts close rest h
  | .buy usd :: rest, w, h => by
    unfold ruleBuys
    simp only [Prog.bind_eq]
    refine sound_state ⟨h.kept, trivial⟩ (sound_order ⟨h.kept, trivial⟩ fun _ => Prog.Sound.seq h.asks ?_)
    rintro - w' h'
    exact ruleBuys_kept ts close rest h'

theorem ruleOrders_kept (h : Trading w) (bars : List (Bar F)) (ctx : Ctx F) (close : F) (ts : ℤ) :
    (ruleOrders d bars ctx close ts).Sound (hears d ch) (Heeded d.live) (fun _ w' => Trading w') w := by
  unfold ruleOrders
  simp only [Prog.bind_eq]
  refine sound_state ⟨h.kept, trivial⟩ ?_
  have hstop := orders_frozen d.rule d.stops.dailyLoss (budgetOf w.mem d.live) w.mem.account bars ctx
  generalize orders d.rule ⟨d.stops.dailyLoss, none⟩ (budgetOf w.mem d.live) w.mem.account bars ctx = both at hstop
  obtain ⟨wanted, account⟩ := both
  have hsince : Since w.mem { w.mem with account } := ⟨hstop, rfl, id, fun _ => rfl⟩
  have hfinal : Final { w.mem with account } := by
    refine h.kept.mem.since h.going hsince fun hf => ?_
    exact h.not_frozen (hstop ▸ hf)
  refine sound_set ⟨h.kept, h.going, fun hf => h.not_frozen hf⟩ ?_
  refine Prog.Sound.seq (ruleSells_kept ts close _ (h.since (h.kept.setMem h.going hfinal) hsince)) ?_
  rintro - w' h'
  exact ruleBuys_kept ts close wanted h'

theorem tradeBar_kept (h : Trading w) (bars : List (Bar F)) (ctx : Ctx F) (close bid : F) (ts : ℤ) :
    (tradeBar d bars ctx close bid ts).Sound (hears d ch) (Heeded d.live) (fun _ w' => Kept w') w := by
  unfold tradeBar
  simp only [Prog.bind_eq]
  refine sound_state ⟨h.kept, trivial⟩ ?_
  split
  · exact (ruleOrders_kept h bars ctx close ts).mono fun _ _ h' => h'.kept
  refine Prog.Sound.seq (takeGains_kept _ bid ts close _ h) ?_
  rintro - w' h'
  refine sound_state ⟨h'.kept, trivial⟩ (.ite (fun _ => h'.kept) fun _ => ?_)
  exact (ruleOrders_kept h' bars ctx close ts).mono fun _ _ h'' => h''.kept

/-- One bar: a run whose stop is set sells, and does not trade. -/
theorem onBar_kept (h : Kept w) (bars : List (Bar F)) (ctx : Ctx F) (bid : F) (ts : ℤ) :
    (onBar d bars ctx bid ts).Sound (hears d ch) (Heeded d.live) (fun _ w' => Kept w') w := by
  unfold onBar
  simp only [Prog.bind_eq]
  split
  · exact h
  refine sound_state ⟨h, trivial⟩ (.ite (fun _ => h) fun hopen => ?_)
  have he : w.mem.ended = none := by simpa using hopen
  refine Prog.Sound.seq (reconcile_kept h ts) ?_
  rintro - w₁ ⟨h₁, hs₁⟩
  refine sound_state ⟨h₁, trivial⟩ (.ite (fun _ => h₁) fun hn => ?_)
  have hn₁ : w₁.mem.pending = none := by simpa using hn
  refine Prog.Sound.seq (fund_kept h₁ bid ts) ?_
  rintro - w₂ ⟨h₂, hs₂, hfund⟩
  refine sound_state ⟨h₂, trivial⟩ (.ite (fun _ => h₂) fun hfunded => ?_)
  have hset : w₂.mem.funded = true := by simpa using hfunded
  have he₂ : w₂.mem.ended = none := (hs₂.ended.trans hs₁.ended).trans he
  refine .ite (fun _ => stopRun_kept h₂ he₂ hset (hfund hn₁ hset) _ ts) fun hgoes => ?_
  have hmelted : w₂.mem.account.frozen = false := by
    rw [Bool.or_eq_true, not_or] at hgoes
    exact Bool.not_eq_true _ ▸ hgoes.2
  exact tradeBar_kept ⟨h₂, he₂, hmelted⟩ bars ctx _ bid ts

theorem look_kept (h : Kept w) (bars : List (Bar F)) (ctx : Ctx F) (bid ask_ : F) (ts : ℤ) :
    (Lab.look d bars ctx bid ask_ ts).Sound (hears d ch) (Heeded d.live) (fun _ w' => Kept w') w := by
  unfold Lab.look
  simp only [Prog.bind_eq]
  refine sound_state ⟨h, trivial⟩ (.ite (fun _ => h) fun _ => ?_)
  exact onBar_kept h bars ctx bid ts

/-- **What every operation keeps**, whatever the chain answers. -/
theorem deed_kept (h : Kept w) {c : Deed F} (hc : (operator d ch (NoRaise d)).calls c w) :
    (c.prog d).Sound (hears d ch) (Heeded d.live) (fun _ w' => Kept w') w := by
  obtain ⟨hno, hopen⟩ := hc
  cases c with
  | onBar bars ctx bid ts => exact onBar_kept h bars ctx bid ts
  | look bars ctx bid ask_ ts => exact look_kept h bars ctx bid ask_ ts
  | rebudget to_ bid ts =>
    refine Prog.Sound.seq (rebudget_kept h hno bid ts) ?_
    exact fun _ _ h' => h'
  | sellAll ts close =>
    refine Prog.Sound.seq (sellAll_kept h ts close) ?_
    exact fun _ _ h' => h'.1
  | fund bid ts => exact (fund_kept h bid ts).mono fun _ _ h' => h'.1
  | reconcile ts => exact (reconcile_kept h ts).mono fun _ _ h' => h'.1
  | acts to_ => exact changeActs_kept h to_
  | write => exact sound_write (k := .ret) ⟨h, trivial⟩ h.write
  | closeRun bid ts =>
    have he := hopen bid ts rfl
    unfold Deed.prog
    simp only [Prog.bind_eq]
    refine Prog.Sound.seq (reconcile_kept h ts) ?_
    rintro - w₁ ⟨h₁, hs₁⟩
    refine sound_state ⟨h₁, trivial⟩ (.ite (fun hn => ?_) fun _ => h₁)
    have hn₁ : w₁.mem.pending = none := Option.isNone_iff_eq_none.mp hn
    refine Prog.Sound.seq (sellAll_kept h₁ ts bid) ?_
    rintro sold w₂ ⟨h₂, hs₂, hsold⟩
    refine .ite (fun hs => ?_) fun _ => h₂
    obtain ⟨hlots, hclosed⟩ := hsold hs
    have he₂ : w₂.mem.ended = none := (hs₂.ended.trans hs₁.ended).trans he
    exact sound_state ⟨h₂, trivial⟩ (end_kept h₂ he₂ hlots (hclosed hn₁) .closedByHand)

/-- In every state of a run, what its operations keep holds, and what they ask heeds the stop. -/
theorem goes_safe (x : X) {s : Shell.Status (Op.Ans (F := F)) (World F X)}
    (hs : Relation.ReflTransGen (Goes d ch) (.idle (.fresh x)) s) :
    (operator d ch (NoRaise d)).Safe Kept (Heeded d.live) s := by
  have hreach : (operator d ch (NoRaise d)).Reach (.fresh x) s := hs.lift id fun _ _ h => h.moves
  have hdefault : Final (.default : State F) := ⟨nofun, nofun⟩
  refine Shell.safe _ ⟨hdefault, hdefault, nofun⟩ (fun c w h hc => deed_kept h hc) ?_ ?_ ?_ hreach
  · exact fun w o h => h.kept.restart
  · exact fun w h => h.restart
  · rintro w _ h ⟨x', -, rfl⟩
    exact h.chain x'

/-! ### What a frozen run, and one that has ended, come to -/

/-- What a step does to the flags and the budget. -/
structure Holds (live : Live F) (s s' : State F) : Prop where
  frozen : s.account.frozen = true → s'.account.frozen = true ∧ NotRaised live s s'
  ended : s.ended.isSome = true → s' = s

theorem Holds.refl (live : Live F) (s : State F) : Holds live s s := ⟨fun h => ⟨h, .inl rfl⟩, fun _ => rfl⟩

theorem Holds.going {live : Live F} {s s' : State F} (he : s.ended = none)
    (hf : s.account.frozen = true → s'.account.frozen = true ∧ NotRaised live s s') : Holds live s s' := by
  refine ⟨hf, fun ho => ?_⟩
  rw [he] at ho
  exact nomatch ho

/-- An answer to a question that heeds the stop. -/
theorem answer_holds {w' : World F X} {o : Op F} {a : o.Ans} (ha : w.answers d.live ch o a w')
    (ho : Heeds d.live w o) : Holds d.live w.mem w'.mem := by
  cases o with
  | state =>
    rw [ha.2]
    exact .refl ..
  | set s =>
    subst ha
    exact .going ho.1 ho.2
  | hold p =>
    subst ha
    exact .going ho fun hf => ⟨hf, .inl rfl⟩
  | release =>
    subst ha
    exact .going ho fun hf => ⟨hf, .inl rfl⟩
  | settle p wallet lastLook =>
    obtain ⟨-, rfl⟩ := ha
    have hs : Since w.mem (w.mem.settle d.live p wallet lastLook).1 := settle_since ho.2
    refine .going ho.1 fun hf => ⟨hs.frozen.trans hf, .inl ?_⟩
    show budgetOf (w.mem.settle d.live p wallet lastLook).1 d.live = budgetOf w.mem d.live
    unfold budgetOf
    rw [hs.budget hf]
  | balances =>
    obtain ⟨x, -, rfl⟩ := ha
    exact .refl ..
  | swap b n m =>
    obtain ⟨x, -, rfl⟩ := ha
    exact .refl ..
  | write =>
    subst ha
    exact .refl ..
  | now =>
    obtain ⟨x, -, rfl⟩ := ha
    exact .refl ..
  | order q =>
    subst ha
    exact .refl ..

/-- A run that is stopped after its flags were written down starts with them. -/
theorem restart_holds (hk : Kept w) (hw : Written w) : Holds d.live w.mem w.restart.mem := by
  refine ⟨fun hf => ?_, fun ho => ?_⟩
  · obtain ⟨hfrozen, -, hbudget⟩ := hw (.inl hf)
    refine ⟨hfrozen.trans hf, .inl ?_⟩
    show budgetOf w.disk d.live = budgetOf w.mem d.live
    unfold budgetOf
    rw [hbudget]
  · have hends := (hw (.inr ho)).2.1
    rw [← hends] at ho
    exact (hk.past ho).symm

theorem Safe.kept {s : Shell.Status (Op.Ans (F := F)) (World F X)}
    (h : (operator d ch (NoRaise d)).Safe Kept (Heeded d.live) s) : Kept s.world := by
  cases s with
  | idle w => exact h
  | busy w p =>
    cases p with
    | ret u => exact h
    | ask o k => exact h.at_ask.kept

/-- One step of a run: a frozen state stays frozen and its budget is not
raised; one that has ended does not change. -/
theorem goes_step {s t : Shell.Status (Op.Ans (F := F)) (World F X)}
    (hs : (operator d ch (NoRaise d)).Safe Kept (Heeded d.live) s) (h : Goes d ch s t) :
    Holds d.live s.world.mem t.world.mem := by
  obtain ⟨hmoves, hwritten⟩ := h
  cases hmoves with
  | call c hc => exact .refl ..
  | answer a ha => exact answer_holds ha.1 hs.at_ask.op
  | done => exact .refl ..
  | stop => exact restart_holds (Safe.kept hs) (hwritten rfl)
  | pass hp =>
    obtain ⟨x, -, rfl⟩ := hp
    exact .refl ..

/-- **The total stop is final.** In every run of the operations in which a
frozen run is not asked for a larger budget and no flag is lost with the
program: a frozen run is frozen for good, sends only the sale of a lot that it
holds and its budget only falls; one that has ended sends nothing and does not
change. -/
theorem stop_is_final (d : Desk F) (ch : Chain F X) (x : X) {s t : Shell.Status (Op.Ans (F := F)) (World F X)}
    (hs : Relation.ReflTransGen (Goes d ch) (.idle (.fresh x)) s) (ht : Relation.ReflTransGen (Goes d ch) s t) :
    (s.world.mem.account.frozen = true → t.world.mem.account.frozen = true ∧ SendsHeld t ∧
      Relation.ReflTransGen (fun a b => lt b a = true) (budgetOf s.world.mem d.live) (budgetOf t.world.mem d.live)) ∧
    (s.world.mem.ended.isSome = true → t.world.mem = s.world.mem ∧ SendsNothing t) := by
  have hsafe := goes_safe x (hs.trans ht)
  have hsends : t.world.mem.account.frozen = true → SendsHeld t := by
    intro hf
    rcases t with w | ⟨w, u | ⟨o, k⟩⟩
    · trivial
    · trivial
    · cases o with
      | swap b n m => exact hsafe.at_ask.op.2 hf
      | _ => trivial
  have hnothing : t.world.mem.ended.isSome = true → SendsNothing t := by
    intro ho
    rcases t with w | ⟨w, u | ⟨o, k⟩⟩
    · trivial
    · trivial
    · cases o with
      | swap b n m =>
        have he : w.mem.ended = none := hsafe.at_ask.op.1
        have ho' : w.mem.ended.isSome = true := ho
        rw [he] at ho'
        exact nomatch ho'
      | _ => trivial
  -- each step keeps the flags, and so do all of them
  have hrun : (s.world.mem.account.frozen = true → t.world.mem.account.frozen = true ∧
      Relation.ReflTransGen (fun a b => lt b a = true) (budgetOf s.world.mem d.live) (budgetOf t.world.mem d.live)) ∧
      (s.world.mem.ended.isSome = true → t.world.mem = s.world.mem) := by
    clear hsafe hsends hnothing
    induction ht with
    | refl => exact ⟨fun hf => ⟨hf, .refl⟩, fun _ => rfl⟩
    | @tail b c hb hstep ih =>
      have hholds := goes_step (goes_safe x (hs.trans hb)) hstep
      refine ⟨fun hf => ?_, fun ho => ?_⟩
      · obtain ⟨hfb, hrun⟩ := ih.1 hf
        obtain ⟨hfc, hsame | hlow⟩ := hholds.frozen hfb
        · rw [hsame]
          exact ⟨hfc, hrun⟩
        · exact ⟨hfc, hrun.tail hlow⟩
      · have hb' := ih.2 ho
        rw [hholds.ended (hb' ▸ ho)]
        exact hb'
  refine ⟨fun hf => ⟨(hrun.1 hf).1, hsends (hrun.1 hf).1, (hrun.1 hf).2⟩, fun ho => ?_⟩
  have hsame := hrun.2 ho
  exact ⟨hsame, hnothing (hsame ▸ ho)⟩

end Specs

/-! ### Runs -/

namespace AfterTheStop

/-- Down a quarter of 20 USD, it is stopped. -/
def trader : Desk ℚ := ⟨⟨20, 1 / 4, 50, .close, none⟩, 1000000, .signReversal, ⟨none, none⟩, 60000, true⟩

/-- Ten SOL and 20 USDC. -/
def opening : Ledger ℚ := .start 0 (10000000000, 20000000)

def bar (n : ℤ) (price : ℚ) : Bar ℚ := ⟨n, price, price, price, price, 0⟩

/-- The bar closes at 10 after one at 20, and a SOL is bought. -/
def buys : Deed ℚ := .onBar [bar 0 20, bar 1 10] ⟨none, [], 1⟩ 10 0

/-- The price is 5: the stop. -/
def stops : Deed ℚ := .onBar [bar 0 20, bar 1 10, bar 2 5] ⟨none, [], 1⟩ 5 60000

/-- The next day, with the sale not landed, a larger budget is asked for. -/
def raises : Deed ℚ := .rebudget 25 5 86400000

def replies : World ℚ (Ledger ℚ) → (o : Op ℚ) → o.Ans × World ℚ (Ledger ℚ) := reply trader.live

def ready (w : World ℚ (Ledger ℚ)) : Bool := !w.mem.account.frozen && w.mem.ended.isNone

/-- The operations, whatever is asked for. -/
abbrev free : Shell (Op.Ans (F := ℚ)) (World ℚ (Ledger ℚ)) (Deed ℚ) := operator trader (venue Moved) fun _ _ => True

abbrev Going (s t : Shell.Status (Op.Ans (F := ℚ)) (World ℚ (Ledger ℚ))) : Prop := Goes trader (venue Moved) s t

theorem free_replies (w : World ℚ (Ledger ℚ)) (o : Op ℚ) : free.answers w o (replies w o).1 (replies w o).2 :=
  ⟨reply_answers _ w o, trivial⟩

theorem goes_answer (w : World ℚ (Ledger ℚ)) (o : Op ℚ) (k : o.Ans → Act ℚ Unit) :
    Going (.busy w (.ask o k)) (.busy (replies w o).2 (k (replies w o).1)) := ⟨.answer _ (free_replies w o), nofun⟩

theorem goes_call (c : Deed ℚ) (w : World ℚ (Ledger ℚ)) (hw : ready w = true) :
    Going (.idle w) (.busy w (c.prog trader)) := by
  unfold ready at hw
  rw [Bool.and_eq_true, Bool.not_eq_true', Option.isNone_iff_eq_none] at hw
  obtain ⟨hmelted, he⟩ := hw
  refine ⟨@Shell.Moves.call _ _ _ _ (operator trader (venue Moved) (NoRaise trader)) w c ⟨?_, fun _ _ _ => he⟩, nofun⟩
  cases c with
  | rebudget to_ bid ts =>
    intro hf
    rw [hmelted] at hf
    exact nomatch hf
  | _ => trivial

theorem goes_done (w : World ℚ (Ledger ℚ)) (u : Unit) : Going (.busy w (.ret u)) (.idle w) := by
  refine ⟨.done, fun hw _ => ?_⟩
  have hdisk : w = w.restart := Shell.Status.idle.inj hw
  have hmem : w.mem = w.disk := congrArg World.mem hdisk
  show w.disk.account.frozen = w.mem.account.frozen ∧ w.disk.ended = w.mem.ended ∧ w.disk.budget = w.mem.budget
  rw [hmem]
  exact ⟨rfl, rfl, rfl⟩

/-- A SOL has been bought. -/
def held : World ℚ (Ledger ℚ) := (free.played replies ready 60 (.fresh opening) [buys]).get (by decide +kernel)

/-- At the close of the next bar: this many questions were answered. -/
def atStop (n : ℕ) : World ℚ (Ledger ℚ) × Act ℚ Unit := Shell.steps replies n (held, stops.prog trader)

/-- The first swap after the stop is about to be sent. -/
def atSale : World ℚ (Ledger ℚ) × Act ℚ Unit := Shell.steps replies 5 ((atStop 7).1, (atStop 7).2)

/-- At the wish for a larger budget, after the stop. -/
def atRaise (n : ℕ) : World ℚ (Ledger ℚ) × Act ℚ Unit := Shell.steps replies n ((atStop 60).1, raises.prog trader)

theorem run_held : Relation.ReflTransGen Going (.idle (.fresh opening)) (.idle held) :=
  @Shell.run_played _ _ _ _ free _ replies ready 60 goes_answer goes_call goes_done [buys] _ _ (Option.some_get _).symm

/-- A swap about to be sent that is no sale. -/
def sendsOther : World ℚ (Ledger ℚ) × Act ℚ Unit → Bool
  | (w, .ask (.swap ..) _) => !w.mem.pending.any fun p => match p.what with
    | .sell _ => true
    | _ => false
  | _ => false

theorem not_sendsHeld {x : World ℚ (Ledger ℚ) × Act ℚ Unit} (h : sendsOther x = true) :
    ¬SendsHeld (.busy x.1 x.2) := by
  obtain ⟨w, u | ⟨o, k⟩⟩ := x
  · exact nomatch h
  · cases o with
    | swap b n m =>
      rintro ⟨-, p, i, l, hp, hi, -⟩
      have hpending : w.mem.pending = some p := hp
      simp [sendsOther, hpending, hi] at h
    | _ => exact nomatch h

/-- Whether a swap is about to be sent. -/
def sends : Act ℚ Unit → Bool
  | .ask (.swap ..) _ => true
  | _ => false

end AfterTheStop

open AfterTheStop in
/-- The first swap after the stop is the sale of the lot. -/
theorem stop_is_final_first_sale :
    (atStop 7).1.mem.account.frozen = true ∧ sends atSale.2 = true ∧ SendsHeld (.busy atSale.1 atSale.2) := by
  have hfrozen : (atStop 7).1.mem.account.frozen = true := by decide +kernel
  have hcall : Relation.ReflTransGen Going (.idle (.fresh opening)) (.busy held (stops.prog trader)) :=
    run_held.tail (goes_call stops held (by decide +kernel))
  have hstop := hcall.trans (Shell.run_steps goes_answer 7 held (stops.prog trader))
  have hsale := Shell.run_steps goes_answer 5 (atStop 7).1 (atStop 7).2
  exact ⟨hfrozen, by decide +kernel, ((stop_is_final trader (venue Moved) opening hstop hsale).1 hfrozen).2.1⟩

open AfterTheStop in
/-- A frozen run whose sale did not land is asked for a larger budget, and sells
SOL that is not its own for it. -/
theorem raised_while_frozen : ∃ s t, free.Reach (.fresh opening) s ∧ s.world.mem.account.frozen = true ∧
    Relation.ReflTransGen free.Moves s t ∧ ¬SendsHeld t := by
  have hheld : free.Reach (.fresh opening) (.idle held) := by
    refine Shell.reach_played free_replies (fun c w hw => And.intro trivial fun _ _ _ => ?_) [buys] .refl (Option.some_get _).symm
    unfold ready at hw
    rw [Bool.and_eq_true, Option.isNone_iff_eq_none] at hw
    exact hw.2
  have hopen : held.mem.ended = none := Option.isNone_iff_eq_none.mp (by decide +kernel)
  have hstop : free.Reach (.fresh opening) (.busy (atStop 60).1 (atStop 60).2) :=
    Shell.reach_steps free_replies (hheld.tail (.call stops ⟨trivial, fun _ _ _ => hopen⟩))
  have hret : (atStop 60).2 = .ret () := by
    have hend : (match (atStop 60).2 with | .ret _ => true | .ask .. => false) = true := by decide +kernel
    rcases h : (atStop 60).2 with u | ⟨o, k⟩
    · rfl
    · rw [h] at hend
      exact nomatch hend
  rw [hret] at hstop
  have hasks : Relation.ReflTransGen free.Moves (.idle (atStop 60).1) (.busy (atRaise 11).1 (atRaise 11).2) := by
    refine .head (.call raises ⟨trivial, nofun⟩) ?_
    exact Shell.run_steps (fun w o _ => .answer (replies w o).1 (free_replies w o)) 11 _ _
  refine ⟨_, _, hstop.tail .done, ?_, hasks, not_sendsHeld ?_⟩
  · show (atStop 60).1.mem.account.frozen = true
    decide +kernel
  · decide +kernel

end Lab
end MobiusSearcher
