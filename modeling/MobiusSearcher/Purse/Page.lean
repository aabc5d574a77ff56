/-
# The wallet page

The page of `apps/mobius-searcher/src/purse.rs` and the tasks that its requests
begin (`port`): each runs by itself and is waited for at every question it asks
of the chain, so a check's answer or the end of a transfer may find the page as
another request left it.

Beside the page stand the reviews that were completed and shown, each with what
its task had read of the chain; which of them was taken up by which task to be
sent; and what was handed over. What is sent is the plan of the check made then,
and the plan that was shown is only kept: the two are the same when the chain
said the same both times of the account that may have to be opened
(`sent_as_shown`).

Key definitions: `Page`, `World`, `purse`, `AsShown`, `Agree`.
Key theorems: `rules`, `check_spec`, `act_holds`, `sent_as_shown`.
-/
import MobiusSearcher.Purse.Check
import MobiusSearcher.Lib.Tasks

namespace MobiusSearcher
namespace Purse

open Machine Lab

/-- What the page shows of a transfer, and the request the operator was shown with what sending it means. -/
structure Page where
  sending : Option Sending
  reviewed : Option (SendRequest × Plan)
  usdc : Option ℕ
  cannotSend : Option String
  deriving DecidableEq, Repr

namespace Page

/-- The answer of a check, unless it was walked away from while it was being checked. -/
def answered (p : Page) (req : SendRequest) (answer : Except Why (Review × Plan)) : Page :=
  if p.sending = some (.checking req) then
    match answer with
    | .ok (review, plan) => { p with reviewed := some (req, plan), sending := some (.reviewed review) }
    | .error why => { p with sending := some (.refused req why) }
  else p

/-- The request the page shows as reviewed is being sent from here on: a second
`Send` finds nothing reviewed. -/
def take (p : Page) (req : SendRequest) : Option Review × Page :=
  match p.sending with
  | some (.reviewed r) =>
    if r.request = req ∧ p.reviewed.any (fun x => x.1 = req) then
      (some r, { p with reviewed := none, sending := some (.sending r) })
    else (none, p)
  | _ => (none, p)

/-- A transfer that is being sent stays on the page until its end is known. -/
def clear (p : Page) : Page :=
  match p.sending with
  | some (.sending _) => p
  | _ => { p with sending := none, reviewed := none }

end Page

/-- What a task has read of the chain: the USDC account it would send from, and which accounts there are. -/
structure Read where
  own : Option Address
  there : Address → Bool

/-- What an answer of the chain adds. -/
def Read.hear (r : Read) : (o : Op) → o.Ans → Read
  | .account a, .ok x => { r with there := Function.update r.there a x.isSome }
  | .usdcAccount, .ok x => { r with own := x.map Prod.fst }
  | _, _ => r

/-- A transfer that was handed over, and what its task had read. -/
structure Dispatched where
  task : ℕ
  req : SendRequest
  ixs : List RawInstruction
  cuLimit : ℕ
  price : ℕ
  read : Read

/-- Lamports of its fee. -/
def Dispatched.fee (d : Dispatched) : ℕ := signatureFee + (d.cuLimit * d.price + 999999) / 1000000

def RawInstruction.opens : RawInstruction → Bool
  | .ataCreateIdempotent .. => true
  | _ => false

/-- Lamports its new accounts lock. -/
def Dispatched.rent (d : Dispatched) : ℕ := d.ixs.countP RawInstruction.opens * tokenAccountRent

/-- A review that was completed and shown. -/
structure Completed where
  review : Review
  plan : Plan
  read : Read

/-- A completed review, by its number, was taken up by a task, and what the page showed then. -/
structure Taken where
  task : ℕ
  nth : ℕ
  page : Option Sending

structure World where
  page : Page
  read : ℕ → Read
  completed : List Completed
  /-- Which of the completed reviews the page shows. -/
  shown : Option ℕ
  taken : List Taken
  sent : List Dispatched

namespace World

/-- What the page can answer; the chain answers as it likes. -/
def may (w : World) : (o : Op) → o.Ans → Prop
  | .cannotSend, a => a = w.page.cannotSend
  | .viewUsdc, a => a = w.page.usdc
  | .take req, a => a = (w.page.take req).1
  | _, _ => True

/-- What becomes of the world when task `i` is answered. -/
def next (w : World) (i : ℕ) : (o : Op) → o.Ans → World
  | .sendPlain req ixs cuLimit price, _ => { w with sent := w.sent ++ [⟨i, req, ixs, cuLimit, price, w.read i⟩] }
  | .checking req, _ => { w with page := { w.page with sending := some (.checking req) }, shown := none }
  | .answered req answer, _ =>
    if w.page.sending = some (.checking req) then
      match answer with
      | .ok (review, plan) =>
        { w with
          page := w.page.answered req answer
          completed := w.completed ++ [⟨review, plan, w.read i⟩]
          shown := some w.completed.length }
      | .error _ => { w with page := w.page.answered req answer, shown := none }
    else { w with page := w.page.answered req answer }
  | .take req, some _ =>
    { w with
      page := (w.page.take req).2
      taken := w.taken ++ (w.shown.map fun n => ⟨i, n, w.page.sending⟩).toList
      shown := none }
  | .take req, none => { w with page := (w.page.take req).2 }
  | .ended s, _ => { w with page := { w.page with sending := some s }, shown := none }
  | .clear, _ =>
    { w with
      page := w.page.clear
      shown := none }
  | .refreshed read, _ =>
    { w with page := { w.page with usdc := match read with
      | some r => some r.2
      | none => w.page.usdc } }
  | o, a => { w with read := Function.update w.read i ((w.read i).hear o a) }

/-- Nothing was asked of the page yet. -/
def start (cannotSend : Option String) (usdc : Option ℕ) (read : ℕ → Read) : World where
  page := ⟨none, none, usdc, cannotSend⟩
  read := read
  completed := []
  shown := none
  taken := []
  sent := []

end World

variable (k : Keys)

/-- The tasks of the page's requests. -/
def purse : Tasks Op.Ans World WalletAction where
  prog := act k
  answers i w o a w' := w.may o a ∧ w' = w.next i o a

/-- The plan of a request, from what is read of the chain. -/
def planOf (req : SendRequest) (read : Read) : Option Plan :=
  (k.parse req.to_).bind fun to_ => req.atoms.bind fun amount =>
    match req.asset with
    | .sol => some ⟨.sol, to_, amount, none, false⟩
    | .usdc => read.own.map fun own => ⟨.usdc, to_, amount, some (own, k.ata to_), !read.there (k.ata to_)⟩

/-- The review shows its plan, which is the request's on what was read. -/
structure Shows (c : Completed) : Prop where
  plan : planOf k c.review.request c.read = some c.plan
  to_ : c.review.to_ = c.plan.to_
  amount : c.review.amount = c.plan.atoms
  fee : c.review.fee = signatureFee + priorityFee
  opens : c.review.opensAccount = if c.plan.opens then some tokenAccountRent else none

/-- What was handed over is the plan of the request on what was read. -/
structure Sends (d : Dispatched) (p : Plan) : Prop where
  read : planOf k d.req d.read = some p
  ixs : d.ixs = p.instructions k
  cuLimit : d.cuLimit = p.cuLimit
  price : d.price = priorityFee * 1000000 / p.cuLimit

/-- The transfer a review shows, from `source` when it is of USDC. -/
def shownInstructions (r : Review) (source : Address) : List RawInstruction :=
  match r.request.asset with
  | .sol => [.systemTransfer k.me r.to_ r.amount]
  | .usdc =>
    (if r.opensAccount.isSome then [RawInstruction.ataCreateIdempotent k.me (k.ata r.to_) r.to_ k.usdcMint] else []) ++
      [RawInstruction.tokenTransferChecked source k.usdcMint (k.ata r.to_) k.me r.amount 6]

/-- What was handed over is what the review shows: who receives which token and
how much of it, the accounts that are opened, and what all that takes. -/
structure AsShown (r : Review) (d : Dispatched) : Prop where
  instructions : ∃ source, d.ixs = shownInstructions k r source
  fee : d.fee = r.fee
  rent : d.rent = r.opensAccount.getD 0

/-- Two readings say the same of what a request may open: nothing for SOL, and
for USDC the recipient's account. -/
def Agree (req : SendRequest) (r r' : Read) : Prop :=
  req.asset = .usdc → ∀ to_, k.parse req.to_ = some to_ → r.there (k.ata to_) = r'.there (k.ata to_)

structure Inv (w : World) : Prop where
  shows : ∀ c ∈ w.completed, Shows k c
  shown : ∀ r, w.page.sending = some (.reviewed r) → ∃ n c, w.shown = some n ∧ w.completed[n]? = some c ∧ c.review = r
  untaken : ∀ n, w.shown = some n → (∀ t ∈ w.taken, t.nth ≠ n) ∧ n < w.completed.length
  held : ∀ t ∈ w.taken, ∃ c, w.completed[t.nth]? = some c ∧ t.page = some (.reviewed c.review)
  once : (w.taken.map Taken.nth).Nodup
  sent : ∀ d ∈ w.sent, ∃ t ∈ w.taken, ∃ c p, t.task = d.task ∧ w.completed[t.nth]? = some c ∧
    c.review.request = d.req ∧ Sends k d p
  sentOnce : (w.sent.map Dispatched.task).Nodup

/-- Task `i` has taken up and sent what it had. -/
structure Same (i : ℕ) (w w' : World) : Prop where
  taken : ∀ t, t.task = i → (t ∈ w'.taken ↔ t ∈ w.taken)
  sent : (∀ d ∈ w.sent, d.task ≠ i) → ∀ d ∈ w'.sent, d.task ≠ i
  completed : w.completed <+: w'.completed

/-- What a task relies on the others for. -/
structure Rely (i : ℕ) (w w' : World) : Prop where
  same : Same i w w'
  read : w'.read i = w.read i

/-- Task `i` has neither taken up nor sent anything. -/
structure Fresh (i : ℕ) (w : World) : Prop where
  taken : ∀ t ∈ w.taken, t.task ≠ i
  sent : ∀ d ∈ w.sent, d.task ≠ i

/-- What holds at a task's questions. -/
def Asks (i : ℕ) (w : World) : Op → Prop
  | .answered req answer => ∀ review plan, answer = .ok (review, plan) →
      review.request = req ∧ Shows k ⟨review, plan, w.read i⟩
  | .sendPlain req ixs cuLimit price => ∃ t ∈ w.taken, ∃ c p, t.task = i ∧ w.completed[t.nth]? = some c ∧
      c.review.request = req ∧ Sends k ⟨i, req, ixs, cuLimit, price, w.read i⟩ p ∧ ∀ d ∈ w.sent, d.task ≠ i
  | .ended s => ∀ r, s ≠ .reviewed r
  | _ => True

/-! ### The page -/

section Page

variable {p : Page} {req : SendRequest} {r : Review}

theorem Page.take_some {p' : Page} (h : p.take req = (some r, p')) :
    p.sending = some (.reviewed r) ∧ r.request = req ∧ p'.sending = some (.sending r) := by
  unfold Page.take at h
  split at h
  · rename_i r' hr'
    split at h
    · rename_i hc
      obtain ⟨rfl, rfl⟩ := Prod.mk.inj h |>.imp_left Option.some.inj
      exact ⟨hr', hc.1, rfl⟩
    · exact nomatch (Prod.mk.inj h).1
  · exact nomatch (Prod.mk.inj h).1

theorem Page.take_none {p' : Page} (h : p.take req = (none, p')) : p' = p := by
  unfold Page.take at h
  split at h
  · split at h
    · exact nomatch (Prod.mk.inj h).1
    · exact (Prod.mk.inj h).2.symm
  · exact (Prod.mk.inj h).2.symm

theorem Page.clear_sending : p.clear.sending ≠ some (.reviewed r) := by
  unfold Page.clear
  split
  · rename_i hs
    rw [hs]
    nofun
  · nofun

end Page

/-! ### One answer -/

section Rules

variable {k} {i j : ℕ} {w w₁ w' : World}

theorem Same.refl (i : ℕ) (w : World) : Same i w w := ⟨fun _ _ => Iff.rfl, fun h => h, List.prefix_refl _⟩

theorem Same.trans (h₁ : Same i w w₁) (h₂ : Same i w₁ w') : Same i w w' :=
  ⟨fun t ht => (h₂.taken t ht).trans (h₁.taken t ht), fun h => h₂.sent (h₁.sent h), h₁.completed.trans h₂.completed⟩

theorem Fresh.same (h : Fresh i w) (hs : Same i w w') : Fresh i w' :=
  ⟨fun t ht hi => h.taken t ((hs.taken t hi).mp ht) hi, hs.sent h.sent⟩

theorem getElem?_prefix {α : Type} {l l' : List α} (h : l <+: l') {n : ℕ} {a : α} (hn : l[n]? = some a) :
    l'[n]? = some a := by
  obtain ⟨r, rfl⟩ := h
  rw [List.getElem?_append_left (List.getElem?_eq_some_iff.mp hn).1]
  exact hn

theorem asks_stable {o : Op} (h : Asks k i w o) (hr : Rely i w w') : Asks k i w' o := by
  cases o with
  | answered req answer =>
    intro review plan ha
    rw [hr.read]
    exact h review plan ha
  | sendPlain req ixs cuLimit price =>
    obtain ⟨t, ht, c, p, hti, hc, hreq, hs, hno⟩ := h
    refine ⟨t, (hr.same.taken t hti).mpr ht, c, p, hti, getElem?_prefix hr.same.completed hc, hreq, ?_,
      hr.same.sent hno⟩
    rw [hr.read]
    exact hs
  | ended s => exact h
  | _ => trivial

/-- The page shows a request in another way than as reviewed. -/
theorem Inv.page (h : Inv k w) {p : Page} (hp : ∀ r, p.sending ≠ some (.reviewed r)) :
    Inv k { w with page := p, shown := none } where
  shows := h.shows
  shown r hr := absurd hr (hp r)
  untaken := nofun
  held := h.held
  once := h.once
  sent := h.sent
  sentOnce := h.sentOnce

theorem Inv.complete (h : Inv k w) {p : Page} {c : Completed} (hc : Shows k c)
    (hp : p.sending = some (.reviewed c.review)) :
    Inv k { w with page := p, completed := w.completed ++ [c], shown := some w.completed.length } where
  shows c' hc' := (List.mem_append.mp hc').elim (h.shows c') fun hm => List.mem_singleton.mp hm ▸ hc
  shown r hr := by
    refine ⟨w.completed.length, c, rfl, List.getElem?_concat_length, ?_⟩
    rw [hp] at hr
    exact Sending.reviewed.inj (Option.some.inj hr)
  untaken n hn := by
    obtain rfl := Option.some.inj hn
    refine ⟨fun t ht hn => ?_, by simp only [List.length_append, List.length_singleton]; omega⟩
    obtain ⟨c, hc, -⟩ := h.held t ht
    rw [hn, List.getElem?_eq_none le_rfl] at hc
    exact nomatch hc
  held t ht := by
    obtain ⟨c, hc, hp⟩ := h.held t ht
    exact ⟨c, getElem?_prefix (List.prefix_append _ _) hc, hp⟩
  once := h.once
  sent d hd := by
    obtain ⟨t, ht, c, p, hi, hc, hr, hs⟩ := h.sent d hd
    exact ⟨t, ht, c, p, hi, getElem?_prefix (List.prefix_append _ _) hc, hr, hs⟩
  sentOnce := h.sentOnce

theorem Inv.take (h : Inv k w) {req : SendRequest} {r : Review} (hr : (w.page.take req).1 = some r) :
    Inv k (w.next i (.take req) (some r)) := by
  obtain ⟨hpage, -, hsending⟩ := Page.take_some (Prod.ext hr rfl)
  obtain ⟨n, c, hn, hc, hcr⟩ := h.shown r hpage
  have hw : w.next i (.take req) (some r) = { w with
      page := (w.page.take req).2, taken := w.taken ++ [⟨i, n, w.page.sending⟩], shown := none } := by
    simp only [World.next, hn, Option.map_some, Option.toList_some]
  rw [hw]
  have hp := h.page (p := (w.page.take req).2) fun r' hr' => by
    rw [hsending] at hr'
    exact nomatch hr'
  refine ⟨hp.shows, hp.shown, nofun, fun t ht => ?_, ?_, fun d hd => ?_, hp.sentOnce⟩
  · rcases List.mem_append.mp ht with ht | ht
    · exact h.held t ht
    · obtain rfl := List.mem_singleton.mp ht
      exact ⟨c, hc, by rw [hcr, hpage]⟩
  · rw [List.map_append, List.map_singleton, List.nodup_append]
    refine ⟨h.once, List.nodup_singleton _, fun m hm m' hm' => ?_⟩
    obtain ⟨t, ht, rfl⟩ := List.mem_map.mp hm
    obtain rfl := List.mem_singleton.mp hm'
    exact (h.untaken _ hn).1 t ht
  · obtain ⟨t, ht, rest⟩ := h.sent d hd
    exact ⟨t, List.mem_append_left _ ht, rest⟩

theorem Inv.sendPlain (h : Inv k w) {req : SendRequest} {ixs : List RawInstruction} {cuLimit price : ℕ}
    (ha : Asks k i w (.sendPlain req ixs cuLimit price)) :
    Inv k { w with sent := w.sent ++ [⟨i, req, ixs, cuLimit, price, w.read i⟩] } where
  shows := h.shows
  shown := h.shown
  untaken := h.untaken
  held := h.held
  once := h.once
  sent d hd := by
    obtain ⟨t, ht, c, p, hti, hc, hreq, hs, -⟩ := ha
    rcases List.mem_append.mp hd with hd | hd
    · exact h.sent d hd
    · obtain rfl := List.mem_singleton.mp hd
      exact ⟨t, ht, c, p, hti, hc, hreq, hs⟩
  sentOnce := by
    obtain ⟨_, _, _, _, _, _, _, _, hno⟩ := ha
    rw [List.map_append, List.map_singleton, List.nodup_append]
    refine ⟨h.sentOnce, List.nodup_singleton _, fun m hm m' hm' => ?_⟩
    obtain ⟨d, hd, rfl⟩ := List.mem_map.mp hm
    obtain rfl := List.mem_singleton.mp hm'
    exact hno d hd

/-- What the world keeps of a task when another is answered. -/
theorem rely_next {o : Op} (a : o.Ans) (hj : j ≠ i) : Rely j w (w.next i o a) := by
  have hrefl : Rely j w w := ⟨Same.refl j w, rfl⟩
  have hread : ∀ x, Rely j w { w with read := Function.update w.read i x } := fun x =>
    ⟨⟨fun _ _ => Iff.rfl, fun h => h, List.prefix_refl _⟩, Function.update_of_ne hj x w.read⟩
  cases o with
  | sendPlain req ixs cuLimit price =>
    refine ⟨⟨fun _ _ => Iff.rfl, fun h d hd => ?_, List.prefix_refl _⟩, rfl⟩
    rcases List.mem_append.mp hd with hd | hd
    · exact h d hd
    · obtain rfl := List.mem_singleton.mp hd
      exact fun he => hj he.symm
  | answered req answer =>
    simp only [World.next]
    split
    · split
      · exact ⟨⟨fun _ _ => Iff.rfl, fun h => h, List.prefix_append _ _⟩, rfl⟩
      · exact ⟨⟨fun _ _ => Iff.rfl, fun h => h, List.prefix_refl _⟩, rfl⟩
    · exact ⟨⟨fun _ _ => Iff.rfl, fun h => h, List.prefix_refl _⟩, rfl⟩
  | take req =>
    cases a with
    | none => exact ⟨⟨fun _ _ => Iff.rfl, fun h => h, List.prefix_refl _⟩, rfl⟩
    | some r =>
      refine ⟨⟨fun t ht => ⟨fun hm => ?_, List.mem_append_left _⟩, fun h => h, List.prefix_refl _⟩, rfl⟩
      rcases List.mem_append.mp hm with hm | hm
      · exact hm
      · obtain ⟨n, -, rfl⟩ := Option.map_eq_some_iff.mp (Option.mem_toList.mp hm)
        exact absurd ht.symm hj
  | cannotSend => exact hread _
  | viewUsdc => exact hread _
  | balances => exact hread _
  | account _ => exact hread _
  | usdcAccount => exact hread _
  | sender => exact hread _
  | _ => exact ⟨⟨fun _ _ => Iff.rfl, fun h => h, List.prefix_refl _⟩, rfl⟩

theorem inv_next {o : Op} {a : o.Ans} (h : Inv k w) (ha : Asks k i w o) (hm : w.may o a) : Inv k (w.next i o a) := by
  have hread : ∀ x, Inv k { w with read := x } := fun x =>
    ⟨h.shows, h.shown, h.untaken, h.held, h.once, h.sent, h.sentOnce⟩
  cases o with
  | sendPlain req ixs cuLimit price => exact h.sendPlain ha
  | checking req => exact h.page nofun
  | answered req answer =>
    simp only [World.next, Page.answered]
    split
    · split
      · exact h.complete (ha _ _ rfl).2 rfl
      · exact h.page nofun
    · exact h
  | take req =>
    cases a with
    | none =>
      simp only [World.next, Page.take_none (Prod.ext hm.symm rfl)]
      exact h
    | some r => exact h.take hm.symm
  | ended s => exact h.page fun r hr => ha r (Option.some.inj hr)
  | clear => exact h.page fun _ => Page.clear_sending
  | refreshed read => exact ⟨h.shows, h.shown, h.untaken, h.held, h.once, h.sent, h.sentOnce⟩
  | _ => exact hread _

variable (k) in
/-- The page's tasks may be reasoned about one at a time. -/
theorem rules : (purse k).Rules (Inv k) Rely Fresh (Asks k) where
  refl i w := ⟨Same.refl i w, rfl⟩
  trans h₁ h₂ := ⟨h₁.same.trans h₂.same, h₂.read.trans h₁.read⟩
  fresh h hr := h.same hr.same
  stable h hr _ := asks_stable h hr
  step h ha := by
    rintro ⟨hm, rfl⟩
    exact ⟨inv_next h ha hm, fun j hj => rely_next _ hj⟩

end Rules

/-! ### The tasks -/

section Tasks

variable {k} {i : ℕ} {w : World}

/-- What the chain and the standing facts of the page answer. -/
def Op.reads : Op → Bool
  | .cannotSend | .viewUsdc | .balances | .account _ | .usdcAccount | .sender => true
  | _ => false

/-- A reading, whatever the other tasks did before it. -/
theorem sound_hear {β : Type} {o : Op} (ho : o.reads = true) {f : o.Ans → Act β} {Q : β → World → Prop}
    (h : ∀ a w', Same i w w' → w'.read i = (w.read i).hear o a →
      (f a).Sound ((purse k).among (Inv k) Rely i) (Asks k i) Q w') :
    ((ask o).bind f).Sound ((purse k).among (Inv k) Rely i) (Asks k i) Q w := by
  refine Prog.Sound.ask ?_ ?_
  · cases o <;> trivial
  · rintro a w' ⟨w₁, hr, -, -, rfl⟩
    have hnext : w₁.next i o a = { w₁ with read := Function.update w₁.read i ((w₁.read i).hear o a) } := by
      cases o <;> first | rfl | exact nomatch ho
    rw [hnext]
    refine h a _ (hr.same.trans ⟨fun _ _ => Iff.rfl, fun h => h, List.prefix_refl _⟩) ?_
    rw [← hr.read]
    exact Function.update_self i _ w₁.read

theorem judge_shows {req : SendRequest} {plan p : Plan} {lamports spent leftUsdc : ℕ} {held : Option ℕ} {read : Read}
    {review : Review} (hp : planOf k req read = some plan)
    (h : judge k req plan lamports spent leftUsdc held = .ok (review, p)) :
    review.request = req ∧ Shows k ⟨review, p, read⟩ := by
  unfold judge at h
  split at h
  · exact nomatch h
  simp only at h
  split at h
  · exact nomatch h
  obtain ⟨rfl, rfl⟩ := Prod.mk.inj (Except.ok.inj h)
  exact ⟨rfl, hp, rfl, rfl, rfl, rfl⟩

/-- What a check finds is the request's plan on what was read of the chain, and what the review shows. -/
def Checked (k : Keys) (i : ℕ) (w : World) (req : SendRequest) (answer : Except Why (Review × Plan)) (w' : World) :
    Prop :=
  Same i w w' ∧ ∀ review plan, answer = .ok (review, plan) → review.request = req ∧ Shows k ⟨review, plan, w'.read i⟩

theorem Checked.refused {req : SendRequest} {w' : World} (h : Same i w w') (why : Why) :
    Checked k i w req (.error why) w' := ⟨h, nofun⟩

theorem check_spec (req : SendRequest) :
    (check k req).Sound ((purse k).among (Inv k) Rely i) (Asks k i) (Checked k i w req) w := by
  unfold check
  simp only [Prog.bind_eq]
  refine sound_hear rfl fun cannot w₁ s₁ _ => ?_
  cases cannot with
  | some why => exact Checked.refused s₁ _
  | none =>
  simp only
  split
  · exact Checked.refused s₁ _
  rename_i to_ hto
  split
  · exact Checked.refused s₁ _
  split
  · exact Checked.refused s₁ _
  rename_i amount hamount
  refine sound_hear rfl fun read w₂ s₂ _ => ?_
  cases read with
  | error e => exact Checked.refused (s₁.trans s₂) _
  | ok read =>
  refine sound_hear rfl fun there w₃ s₃ _ => ?_
  have h₃ := (s₁.trans s₂).trans s₃
  cases there with
  | error e => exact Checked.refused h₃ _
  | ok there =>
  simp only
  split
  · exact Checked.refused h₃ _
  rename_i held _
  split
  · rename_i hasset
    split
    · exact Checked.refused h₃ _
    refine sound_hear rfl fun usdc w₄ s₄ _ => ⟨h₃.trans s₄, fun review plan h => ?_⟩
    exact judge_shows (by simp only [planOf, hto, hamount, hasset, Option.bind_some]) h
  · rename_i hasset
    refine sound_hear rfl fun own w₄ s₄ r₄ => ?_
    have h₄ := h₃.trans s₄
    rcases own with e | _ | ⟨source, has⟩
    · exact Checked.refused h₄ _
    · exact Checked.refused h₄ _
    simp only
    split
    · exact Checked.refused h₄ _
    refine sound_hear rfl fun atDest w₅ s₅ r₅ => ?_
    have h₅ := h₄.trans s₅
    cases atDest with
    | error e => exact Checked.refused h₅ _
    | ok atDest =>
    refine ⟨h₅, fun review plan h => judge_shows ?_ h⟩
    rw [r₅, r₄]
    simp only [planOf, hto, hamount, hasset, Option.bind_some, Read.hear, Option.map_some, Function.update_self,
      Option.not_isSome]

theorem review_holds (req : SendRequest) : (purse k).Holds (Inv k) Rely (Asks k) i (review k req) w := by
  unfold review
  refine Prog.Sound.ask trivial fun _ w₁ _ => ?_
  change ((check k req).bind _).Sound _ _ _ _
  refine Prog.Sound.seq (check_spec req) fun answer w₂ h => ?_
  exact Prog.Sound.ask h.2 fun _ _ _ => trivial

theorem refresh_holds : (purse k).Holds (Inv k) Rely (Asks k) i refresh w := by
  unfold refresh
  simp only [Prog.bind_eq]
  refine sound_hear rfl fun read w₁ _ _ => ?_
  cases read with
  | error e => exact Prog.Sound.ask trivial fun _ _ _ => trivial
  | ok read => exact Prog.Sound.ask trivial fun _ _ _ => trivial

theorem endOf_ne_reviewed (r : Review) (x : Except Mainnet.Unsent (String × Fate)) (r' : Review) : endOf r x ≠ .reviewed r' := by
  unfold endOf
  split <;> nofun

/-- What was taken up is sent once, as the plan of the request on what was read for it. -/
theorem dispatch_spec {t : Taken} {c : Completed} (ht : t ∈ w.taken) (hi : t.task = i)
    (hc : w.completed[t.nth]? = some c) (hno : ∀ d ∈ w.sent, d.task ≠ i) :
    (dispatch k c.review.request c.review).Sound ((purse k).among (Inv k) Rely i) (Asks k i)
      (fun s _ => ∀ r, s ≠ .reviewed r) w := by
  unfold dispatch
  simp only [Prog.bind_eq]
  refine Prog.Sound.seq (check_spec _) fun answer w₁ ⟨s₁, h₁⟩ => ?_
  match answer with
  | .error why => exact nofun
  | .ok (review, plan) =>
  obtain ⟨hreq, hshows⟩ := h₁ review plan rfl
  refine sound_hear rfl fun taker w₂ s₂ r₂ => ?_
  cases taker with
  | error e => exact nofun
  | ok taker =>
  simp only
  split
  · exact nofun
  have h₂ := s₁.trans s₂
  have hread : w₂.read i = w₁.read i := r₂
  refine Prog.Sound.ask ⟨t, (h₂.taken t hi).mpr ht, c, plan, hi, getElem?_prefix h₂.completed hc, rfl, ?_,
    h₂.sent hno⟩ fun sent w₃ _ => endOf_ne_reviewed _ _
  refine ⟨?_, rfl, rfl, rfl⟩
  rw [hread, ← hreq]
  exact hshows.plan

theorem send_holds (hf : Fresh i w) (req : SendRequest) :
    (purse k).Holds (Inv k) Rely (Asks k) i (send k req) w := by
  unfold send
  simp only [Prog.bind_eq]
  refine Prog.Sound.ask trivial ?_
  rintro a _ ⟨w₁, hr, hinv, hm, rfl⟩
  cases a with
  | none => trivial
  | some r =>
  obtain ⟨hpage, hreq, -⟩ := Page.take_some (Prod.ext hm.symm rfl)
  obtain ⟨n, c, hn, hc, rfl⟩ := hinv.shown r hpage
  have hf₁ := hf.same hr.same
  subst hreq
  change ((dispatch k c.review.request c.review).bind _).Sound _ _ _ _
  refine Prog.Sound.seq (dispatch_spec (t := ⟨i, n, w₁.page.sending⟩) ?_ rfl hc hf₁.sent) fun s w₂ hs => ?_
  · simp only [World.next, hn, Option.map_some, Option.toList_some]
    exact List.mem_append_right _ (List.mem_singleton_self _)
  · exact Prog.Sound.ask hs fun _ _ _ => refresh_holds

theorem act_holds (c : WalletAction) (hf : Fresh i w) : (purse k).Holds (Inv k) Rely (Asks k) i (act k c) w := by
  cases c with
  | check req => exact review_holds req
  | send req => exact send_holds hf req
  | clear => exact Prog.Sound.ask trivial fun _ _ _ => trivial
  | refresh => exact refresh_holds

variable {cannotSend : Option String} {usdc : Option ℕ} {read : ℕ → Read} {ts : List (Prog Op.Ans Unit)}

theorem inv_start : Inv k (.start cannotSend usdc read) where
  shows := List.forall_mem_nil _
  shown := nofun
  untaken := nofun
  held := List.forall_mem_nil _
  once := List.nodup_nil
  sent := List.forall_mem_nil _
  sentOnce := List.nodup_nil

theorem fresh_start : Fresh i (.start cannotSend usdc read) := ⟨List.forall_mem_nil _, List.forall_mem_nil _⟩

theorem inv_reach (h : (purse k).Reach (.start cannotSend usdc read) (w, ts)) : Inv k w :=
  (Tasks.safe (rules k) inv_start (fun _ => fresh_start) (fun c _ _ _ hf => act_holds c hf) h).1

end Tasks

/-! ### What was sent and what was shown -/

section Shown

variable {k} {req : SendRequest} {c : Completed} {d : Dispatched} {p : Plan} {read : Read}

theorem planOf_cases (h : planOf k req read = some p) : ∃ to_ amount, k.parse req.to_ = some to_ ∧
    (req.asset = .sol ∧ p = ⟨.sol, to_, amount, none, false⟩ ∨
      req.asset = .usdc ∧ ∃ own, p = ⟨.usdc, to_, amount, some (own, k.ata to_), !read.there (k.ata to_)⟩) := by
  obtain ⟨to_, hto, h⟩ := Option.bind_eq_some_iff.mp h
  obtain ⟨amount, -, h⟩ := Option.bind_eq_some_iff.mp h
  refine ⟨to_, amount, hto, ?_⟩
  split at h
  · exact .inl ⟨‹_›, (Option.some.inj h).symm⟩
  · obtain ⟨own, -, rfl⟩ := Option.map_eq_some_iff.mp h
    exact .inr ⟨‹_›, own, rfl⟩

theorem planOf_amount {read' : Read} {p' : Plan} (h : planOf k req read = some p) (h' : planOf k req read' = some p') :
    p.atoms = p'.atoms ∧ p.to_ = p'.to_ ∧ p.asset = p'.asset := by
  unfold planOf at h h'
  obtain ⟨to_, hto, h⟩ := Option.bind_eq_some_iff.mp h
  obtain ⟨amount, ha, h⟩ := Option.bind_eq_some_iff.mp h
  rw [hto, Option.bind_some, ha, Option.bind_some] at h'
  split at h
  · rename_i hs
    rw [hs] at h'
    obtain rfl := Option.some.inj h
    obtain rfl := Option.some.inj h'
    exact ⟨rfl, rfl, rfl⟩
  · rename_i hs
    rw [hs] at h'
    obtain ⟨_, -, rfl⟩ := Option.map_eq_some_iff.mp h
    obtain ⟨_, -, rfl⟩ := Option.map_eq_some_iff.mp h'
    exact ⟨rfl, rfl, rfl⟩

/-- Whatever its limit of compute units, a transfer pays the fee that is shown. -/
theorem Sends.fee (h : Sends k d p) : d.fee = signatureFee + priorityFee := by
  simp only [Dispatched.fee, h.price, h.cuLimit, Plan.cuLimit]
  split <;> rfl

/-- **What is sent is what was shown when the chain said the same both times of
the account that may be opened.** Who receives what is always as shown. -/
theorem asShown_iff (hc : Shows k c) (hd : Sends k d p) (hr : c.review.request = d.req) :
    AsShown k c.review d ↔ Agree k d.req c.read d.read := by
  have hfee : d.fee = c.review.fee := hd.fee.trans hc.fee.symm
  have hplan := hc.plan
  rw [hr] at hplan
  obtain ⟨hatoms, -, -⟩ := planOf_amount hplan hd.read
  obtain ⟨to_, amount, hto, h⟩ := planOf_cases hplan
  obtain ⟨to_', amount', hto', h'⟩ := planOf_cases hd.read
  obtain rfl : to_ = to_' := Option.some.inj (hto.symm.trans hto')
  rcases h with ⟨hasset, hcp⟩ | ⟨hasset, own, hcp⟩ <;> rcases h' with ⟨hasset', hdp⟩ | ⟨hasset', own', hdp⟩
  · obtain rfl : amount = amount' := by rwa [hcp, hdp] at hatoms
    have hixs : d.ixs = [.systemTransfer k.me to_ amount] := by rw [hd.ixs, hdp]; rfl
    refine ⟨fun _ hu => (nomatch hasset.symm.trans hu), fun _ => ⟨⟨to_, ?_⟩, hfee, ?_⟩⟩
    · rw [hixs]
      simp only [shownInstructions, hr, hasset, hc.to_, hc.amount, hcp]
    · have hcount : d.ixs.countP RawInstruction.opens = 0 := by rw [hixs]; rfl
      rw [Dispatched.rent, hcount, hc.opens, hcp, Nat.zero_mul]
      rfl
  · exact nomatch hasset.symm.trans hasset'
  · exact nomatch hasset.symm.trans hasset'
  · obtain rfl : amount = amount' := by rwa [hcp, hdp] at hatoms
    have hixs : d.ixs = (if !d.read.there (k.ata to_) then
        [RawInstruction.ataCreateIdempotent k.me (k.ata to_) to_ k.usdcMint] else []) ++
          [RawInstruction.tokenTransferChecked own' k.usdcMint (k.ata to_) k.me amount 6] := by rw [hd.ixs, hdp]; rfl
    have hopens : c.review.opensAccount = if !c.read.there (k.ata to_) then some tokenAccountRent else none := by
      rw [hc.opens, hcp]
    have hagree : Agree k d.req c.read d.read ↔ c.read.there (k.ata to_) = d.read.there (k.ata to_) := by
      refine ⟨fun h => h hasset to_ hto, fun h _ to' hto' => ?_⟩
      obtain rfl := Option.some.inj (hto.symm.trans hto')
      exact h
    have hcount : d.ixs.countP RawInstruction.opens = if d.read.there (k.ata to_) then 0 else 1 := by
      rw [hixs]
      cases d.read.there (k.ata to_) <;> rfl
    rw [hagree]
    constructor
    · rintro ⟨-, -, hrent⟩
      rw [Dispatched.rent, hcount, hopens] at hrent
      cases hx : c.read.there (k.ata to_) <;> cases hy : d.read.there (k.ata to_) <;> rw [hx, hy] at hrent
      · exact absurd hrent (by decide)
      · exact absurd hrent (by decide)
    · intro he
      refine ⟨⟨own', ?_⟩, hfee, ?_⟩
      · rw [hixs, ← he]
        simp only [shownInstructions, hr, hasset, hopens, hc.to_, hc.amount, hcp]
        cases c.read.there (k.ata to_) <;> rfl
      · rw [Dispatched.rent, hcount, hopens, ← he]
        cases c.read.there (k.ata to_) <;> decide

variable {w : World} {ts : List (Prog Op.Ans Unit)} {cannotSend : Option String} {usdc : Option ℕ} {reads : ℕ → Read}

/-- **The page sends what was reviewed, once, and as it was shown exactly when
the chain says the same of the recipient's account.** In every state the
requests can come to: no completed review is taken up twice and no task sends
twice; whatever was handed over was taken up from a completed review of that very
request while the page showed it; and it is what that review shows if and only
if the two checks read the same of the account that may have to be opened. -/
theorem sent_as_shown (h : (purse k).Reach (.start cannotSend usdc reads) (w, ts)) :
    (w.taken.map Taken.nth).Nodup ∧ (w.sent.map Dispatched.task).Nodup ∧
      ∀ d ∈ w.sent, ∃ t ∈ w.taken, ∃ c, t.task = d.task ∧ w.completed[t.nth]? = some c ∧
        t.page = some (.reviewed c.review) ∧ c.review.request = d.req ∧
        (AsShown k c.review d ↔ Agree k d.req c.read d.read) := by
  have hinv := inv_reach h
  refine ⟨hinv.once, hinv.sentOnce, fun d hd => ?_⟩
  obtain ⟨t, ht, c, p, hi, hc, hr, hs⟩ := hinv.sent d hd
  obtain ⟨c', hc', hpage⟩ := hinv.held t ht
  obtain rfl : c = c' := Option.some.inj (hc.symm.trans hc')
  exact ⟨t, ht, c, hi, hc, hpage, hr, asShown_iff (hinv.shows c (List.mem_of_getElem? hc)) hs hr⟩

/-! A wallet with a token account of its own sends one USDC to another wallet,
whose token account is there when the request is checked. -/

/-- The addresses of such a wallet: `1` is its own, `2` the other's, `20` its token account. -/
def someKeys : Keys where
  me := ⟨1⟩
  usdcMint := ⟨3⟩
  parse _ := some ⟨2⟩
  onCurve _ := true
  ata a := ⟨a.id * 10⟩
  reserve := 0

def oneUsdc : SendRequest := ⟨.usdc, "2", "1"⟩

/-- A chain that answers, on which the other's token account is `there` or not. -/
def someReply (there : Bool) (i : ℕ) (w : World) (o : Op) : o.Ans × World :=
  let a : o.Ans := match o with
    | .cannotSend => w.page.cannotSend
    | .viewUsdc => w.page.usdc
    | .balances => .ok (1000000000, 5000000)
    | .account a => .ok (if a = ⟨20⟩ && !there then none else some ⟨none, none, some 1000000⟩)
    | .usdcAccount => .ok (some (⟨10⟩, 5000000))
    | .sender => .ok ⟨1⟩
    | .sendPlain .. => .ok ("", .confirmed)
    | .take req => (w.page.take req).1
    | .checking _ | .answered .. | .ended _ | .clear | .refreshed _ => ()
  (a, w.next i o a)

theorem someReply_answers (there : Bool) (i : ℕ) (w : World) (o : Op) :
    (purse someKeys).answers i w o (someReply there i w o).1 (someReply there i w o).2 := by
  refine ⟨?_, rfl⟩
  cases o <;> trivial

/-- Checked with the other's token account there, and sent when it is there or gone. -/
def someTurns (there : Bool) : List (Tasks.Turn WalletAction Bool) :=
  [[Tasks.Turn.call (.check oneUsdc)], List.replicate 7 (.answer 0 true), [.call (.send oneUsdc)],
    List.replicate 8 (.answer 1 there)].flatten

def someRun (there : Bool) : Tasks.Status Op.Ans World :=
  (purse someKeys).played someReply (someTurns there) (.start none none fun _ => ⟨none, fun _ => false⟩, [])

theorem someRun_reach (there : Bool) :
    (purse someKeys).Reach (.start none none fun _ => ⟨none, fun _ => false⟩) (someRun there) :=
  Tasks.reach_played someReply_answers _ .refl

/-- The other closes its token account after the review: what is sent opens it
again, at a cost the operator was not shown. -/
theorem opens_unshown : ∃ w ts, (purse someKeys).Reach (.start none none fun _ => ⟨none, fun _ => false⟩) (w, ts) ∧
    ∃ d ∈ w.sent, ∀ t ∈ w.taken, ∀ c, w.completed[t.nth]? = some c → ¬AsShown someKeys c.review d := by
  refine ⟨(someRun false).1, (someRun false).2, someRun_reach false, ?_⟩
  have hsent : (someRun false).1.sent.map Dispatched.rent = [tokenAccountRent] := by decide +kernel
  have hshown : (someRun false).1.completed.map (fun c => c.review.opensAccount) = [none] := by decide +kernel
  obtain ⟨d, hd, hrent⟩ := List.map_eq_singleton_iff.mp hsent
  obtain ⟨c₀, hc₀, hnone⟩ := List.map_eq_singleton_iff.mp hshown
  refine ⟨d, hd ▸ List.mem_singleton_self d, fun t _ c hc hs => ?_⟩
  obtain rfl : c = c₀ := List.mem_singleton.mp (hc₀ ▸ List.mem_of_getElem? hc)
  have hr := hs.rent
  rw [hrent, hnone] at hr
  exact absurd hr (by decide)

theorem sent_as_shown_once : ∃ w ts, (someRun true) = (w, ts) ∧ w.sent.length = 1 ∧
    ∀ d ∈ w.sent, ∃ t ∈ w.taken, ∃ c, t.task = d.task ∧ w.completed[t.nth]? = some c ∧
      t.page = some (.reviewed c.review) ∧ c.review.request = d.req ∧
      (AsShown someKeys c.review d ↔ Agree someKeys d.req c.read d.read) := by
  refine ⟨(someRun true).1, (someRun true).2, rfl, by decide +kernel, ?_⟩
  exact (sent_as_shown (someRun_reach true)).2.2

end Shown

end Purse
end MobiusSearcher
