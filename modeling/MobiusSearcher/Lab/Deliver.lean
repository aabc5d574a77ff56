/-
# Handing a transaction over

`deliver` of `apps/mobius-searcher/src/lab/trade.rs`: a signed transaction is
handed over again and again until it is confirmed or its blockhash has
expired. The network (`Wire`) answers each of its three requests as it likes;
a run is the transcript of what it answered.

A run ends in one of three ways (`deliver_ends`): a status that decides, a
block height past the last valid one and one last look, or sixty rounds. A last
look that could not be read counts as one that saw nothing (`told_iff`).

Key definitions: `Fate`, `Wire`, `deliver`, `Told`, `Unread`, `swapEnd`.
Key theorems: `deliver_ends`, `told_iff`.
-/
import MobiusSearcher.Lab.Trade
import MobiusSearcher.Lib.Prog

namespace MobiusSearcher
namespace Lab

/-- What became of a transaction that was handed over. -/
inductive Fate
  | confirmed
  /-- In a block, and it failed there. -/
  | failed (err : String)
  /-- Its blockhash expired: it can no longer land. -/
  | expired
  /-- Neither seen nor known to be expired when the looking stopped. -/
  | unknown
  deriving DecidableEq, Repr

/-- What a status request answers: not in a confirmed block (yet), confirmed,
or confirmed and failed. -/
abbrev Status := Except String (Option (Option String))

/-- Where a signed transaction is handed over and its fate is read. -/
inductive Wire
  /-- Hand it over, by every way there is. -/
  | send
  | status
  | blockHeight
  deriving DecidableEq, Repr

/-- The ways that refused it; the status; the height. -/
def Wire.Ans : Wire → Type
  | send => List String
  | status => Status
  | blockHeight => Except String ℕ

/-- What the network was asked, and what it answered. -/
abbrev Heard := List (Σ o : Wire, o.Ans)

/-- Looks at a transaction before giving up on knowing. -/
def rounds : ℕ := 60

/-- What a status says of it. -/
def seen : Status → Option Fate
  | .ok (some none) => some .confirmed
  | .ok (some (some err)) => some (.failed err)
  | _ => none

def handOver : Prog Wire.Ans (List String) := .query Wire.send

def status : Prog Wire.Ans Status := .query Wire.status

def blockHeight : Prog Wire.Ans (Except String ℕ) := .query Wire.blockHeight

/-- The rounds from `round` on, `n` of them; `refused`: who refused it the first time. -/
def deliverFrom (lastValid round : ℕ) (refused : List String) : ℕ → Prog Wire.Ans (Fate × List String)
  | 0 => pure (.unknown, refused)
  | n + 1 => do
    -- a refusal is not the end: the next round sends again, and the status says what happened
    let no ← handOver
    let refused := if round = 0 then no else refused
    match seen (← status) with
    | some fate => pure (fate, refused)
    | none =>
      match ← blockHeight with
      | .ok h =>
        if lastValid < h then do
          -- it may have landed in the last block it could
          let last ← status
          pure ((seen last).getD .expired, refused)
        else deliverFrom lastValid (round + 1) refused n
      | .error _ => deliverFrom lastValid (round + 1) refused n

/-- Hand a signed transaction over until it is confirmed or its blockhash has expired. -/
def deliver (lastValid : ℕ) : Prog Wire.Ans (Fate × List String) := deliverFrom lastValid 0 [] rounds

/-- The blockhash has expired by this answer. -/
def tooLate (lastValid : ℕ) : (Σ o : Wire, o.Ans) → Bool
  | ⟨.blockHeight, .ok h⟩ => lastValid < h
  | _ => false

/-- No height above the last valid one was read. -/
def Valid (lastValid : ℕ) (l : Heard) : Prop := ∀ x ∈ l, tooLate lastValid x = false

/-- How a run ends, from what was heard. -/
inductive Ends (lastValid : ℕ) (l : Heard) : Fate → Prop
  /-- A status that decides. -/
  | seen {before : Heard} {s : Status} {fate : Fate} : l = before ++ [⟨.status, s⟩] → Valid lastValid before →
    Lab.seen s = some fate → Ends lastValid l fate
  /-- A height past the last valid one, and the last look. -/
  | past {before : Heard} {h : ℕ} {s : Status} : l = before ++ [⟨.blockHeight, .ok h⟩, ⟨.status, s⟩] →
    Valid lastValid before → lastValid < h → Ends lastValid l ((Lab.seen s).getD .expired)
  /-- The looking stopped. -/
  | gaveUp : Valid lastValid l → Ends lastValid l .unknown

theorem Ends.after {lastValid : ℕ} {l : Heard} {fate : Fate} (h : Ends lastValid l fate) {before : Heard}
    (hv : Valid lastValid before) : Ends lastValid (before ++ l) fate := by
  have happ : ∀ {l' : Heard}, Valid lastValid l' → Valid lastValid (before ++ l') := fun hl' x hm =>
    (List.mem_append.mp hm).elim (hv x) (hl' x)
  cases h with
  | seen hl hb hs => exact .seen (by rw [hl, List.append_assoc]) (happ hb) hs
  | past hl hb hh => exact .past (by rw [hl, List.append_assoc]) (happ hb) hh
  | gaveUp hb => exact .gaveUp (happ hb)

theorem deliverFrom_ends {lastValid : ℕ} {fate : Fate} {out : List String} : ∀ (n round : ℕ) (refused : List String)
    {l : Heard}, (deliverFrom lastValid round refused n).Gives l (fate, out) → Ends lastValid l fate
  | 0, _, _, l, h => by
    obtain ⟨rfl, heq⟩ := h
    obtain rfl := congrArg Prod.fst heq
    exact .gaveUp nofun
  | n + 1, round, refused, l, h => by
    unfold deliverFrom at h
    simp only [Prog.bind_eq] at h
    obtain ⟨no, _, rfl, h₁⟩ := Prog.gives_query.mp h
    obtain ⟨s, _, rfl, h₂⟩ := Prog.gives_query.mp h₁
    cases hs : seen s with
    | some f =>
      simp only [hs] at h₂
      obtain ⟨rfl, heq⟩ := h₂
      obtain rfl := congrArg Prod.fst heq
      exact @Ends.seen _ _ [⟨.send, no⟩] _ _ rfl (by simp [Valid, tooLate]) hs
    | none =>
      simp only [hs] at h₂
      obtain ⟨height, rest, rfl, h₃⟩ := Prog.gives_query.mp h₂
      -- a round that decides nothing, and the rounds after it
      have hnext : ∀ {r' : List String}, Valid lastValid [⟨.blockHeight, height⟩] →
          (deliverFrom lastValid (round + 1) r' n).Gives rest (fate, out) →
          Ends lastValid (⟨.send, no⟩ :: ⟨.status, s⟩ :: ⟨.blockHeight, height⟩ :: rest) fate := fun hv h =>
        @Ends.after _ _ _ (deliverFrom_ends n _ _ h) [⟨.send, no⟩, ⟨.status, s⟩, ⟨.blockHeight, height⟩]
          (by simpa [Valid, tooLate] using hv)
      cases height with
      | error e => exact hnext (by simp [Valid, tooLate]) h₃
      | ok k =>
        by_cases hk : lastValid < k
        · simp only [if_pos hk] at h₃
          obtain ⟨last, _, rfl, rfl, heq⟩ := Prog.gives_query.mp h₃
          obtain rfl := congrArg Prod.fst heq
          exact @Ends.past _ _ [⟨.send, no⟩, ⟨.status, s⟩] _ _ rfl (by simp [Valid, tooLate]) hk
        · simp only [if_neg hk] at h₃
          exact hnext (by simpa [Valid, tooLate] using hk) h₃

/-- **How a delivery ends**, whatever the network answers. -/
theorem deliver_ends {lastValid : ℕ} {l : Heard} {fate : Fate} {refused : List String}
    (h : (deliver lastValid).Gives l (fate, refused)) : Ends lastValid l fate := deliverFrom_ends _ _ _ h

/-! ### What a fate says -/

def said (s : Status) : Σ o : Wire, o.Ans := ⟨.status, s⟩

def height (h : Except String ℕ) : Σ o : Wire, o.Ans := ⟨.blockHeight, h⟩

/-- The fate is what was heard: expired, that the signature is in no confirmed
block, said after a height above the last valid one; confirmed or failed, a
status that says so. -/
structure Told (lastValid : ℕ) (l : Heard) (fate : Fate) : Prop where
  expired : fate = .expired → ∃ l₁ h l₂, l = l₁ ++ height (.ok h) :: l₂ ∧ lastValid < h ∧ said (.ok none) ∈ l₂
  confirmed : fate = .confirmed → said (.ok (some none)) ∈ l
  failed : ∀ err, fate = .failed err → said (.ok (some (some err))) ∈ l

/-- The last look, past the last valid height, could not be read. -/
def Unread (lastValid : ℕ) (l : Heard) : Prop :=
  ∃ before h e, l = before ++ [height (.ok h), said (.error e)] ∧ lastValid < h

theorem Told.of_seen {lastValid : ℕ} {l : Heard} {s : Status} {fate : Fate} (hs : seen s = some fate)
    (hl : said s ∈ l) : Told lastValid l fate := by
  unfold seen at hs
  split at hs
  · obtain rfl := Option.some.inj hs
    exact ⟨nofun, fun _ => hl, nofun⟩
  · obtain rfl := Option.some.inj hs
    exact ⟨nofun, nofun, fun err he => Fate.failed.inj he ▸ hl⟩
  · exact nomatch hs

/-- Nothing but the last look comes after the first height that is too high. -/
theorem after_tooLate {lastValid : ℕ} {before l₁ l₂ : Heard} {a b x : Σ o : Wire, o.Ans} (hv : Valid lastValid before)
    (hx : tooLate lastValid x = true) (hb : tooLate lastValid b = false) (h : before ++ [a, b] = l₁ ++ x :: l₂) :
    l₂ = [b] := by
  rcases List.append_eq_append_iff.mp h with ⟨c, -, hc⟩ | ⟨c, rfl, hc⟩
  · match c with
    | [] => exact (List.cons.inj hc).2.symm
    | [_] =>
      obtain ⟨rfl, -⟩ := List.cons.inj (List.cons.inj hc).2
      exact nomatch hx.symm.trans hb
    | _ :: _ :: _ => exact absurd (List.cons.inj (List.cons.inj hc).2).2.symm (by simp)
  · match c with
    | [] => exact (List.cons.inj hc).2
    | y :: c =>
      obtain ⟨rfl, -⟩ := List.cons.inj hc
      exact nomatch hx.symm.trans (hv x (List.mem_append_right _ List.mem_cons_self))

theorem Ends.told_iff {lastValid : ℕ} {l : Heard} {fate : Fate} (h : Ends lastValid l fate) :
    Told lastValid l fate ↔ ¬Unread lastValid l := by
  cases h with
  | @seen before s fate hl hv hs =>
    refine iff_of_true (.of_seen hs (hl ▸ List.mem_append_right _ (List.mem_singleton_self _))) ?_
    rintro ⟨before', h, e, hl', hh⟩
    have hlast := (hl.symm.trans hl').trans (List.append_assoc before' [height (.ok h)] [said (.error e)]).symm
    have hse : said s = said (.error e) := List.cons.inj (List.append_inj_right' hlast rfl) |>.1
    obtain rfl : s = .error e := eq_of_heq (Sigma.mk.inj hse).2
    exact nomatch hs
  | @past before h s hl hv hh =>
    match s with
    | .error e =>
      refine iff_of_false (fun ht => ?_) (not_not_intro ⟨before, h, e, hl, hh⟩)
      obtain ⟨l₁, h', l₂, hl', hh', hm⟩ := ht.expired rfl
      have hone := after_tooLate hv (x := height (.ok h')) (by simpa [tooLate, height] using hh') rfl (hl.symm.trans hl')
      rw [hone] at hm
      have hse := List.mem_singleton.mp hm
      exact nomatch eq_of_heq (Sigma.mk.inj hse).2
    | .ok none =>
      refine iff_of_true ⟨fun _ => ⟨before, h, [said (.ok none)], hl, hh, List.mem_singleton_self _⟩, nofun, nofun⟩ ?_
      rintro ⟨before', h', e, hl', -⟩
      have hse := List.cons.inj (List.cons.inj (List.append_inj_right' (hl.symm.trans hl') rfl)).2 |>.1
      exact nomatch eq_of_heq (Sigma.mk.inj hse).2
    | .ok (some x) =>
      have hm : said (.ok (some x)) ∈ l := hl ▸ List.mem_append_right _ (List.mem_cons_of_mem _ (List.mem_singleton_self _))
      refine iff_of_true ?_ ?_
      · cases x with
        | none => exact .of_seen rfl hm
        | some err => exact .of_seen rfl hm
      · rintro ⟨before', h', e, hl', -⟩
        have hse := List.cons.inj (List.cons.inj (List.append_inj_right' (hl.symm.trans hl') rfl)).2 |>.1
        exact nomatch eq_of_heq (Sigma.mk.inj hse).2
  | gaveUp hv =>
    refine iff_of_true ⟨nofun, nofun, nofun⟩ ?_
    rintro ⟨before, h, e, rfl, hh⟩
    have hlate := hv (height (.ok h)) (List.mem_append_right _ List.mem_cons_self)
    exact absurd hh (by simpa [tooLate, height] using hlate)

/-- **A fate is what was heard, but for a last look that could not be read.** -/
theorem told_iff {lastValid : ℕ} {l : Heard} {fate : Fate} {refused : List String}
    (h : (deliver lastValid).Gives l (fate, refused)) : Told lastValid l fate ↔ ¬Unread lastValid l :=
  (deliver_ends h).told_iff

/-! ### What a trader makes of it -/

/-- Why a transaction was not sent. -/
inductive Mainnet.Unsent
  | simulation (why : String)
  | other (why : String)
  deriving DecidableEq, Repr

def Fate.words : Fate → String
  | confirmed => "confirmed"
  | failed err => "it landed and failed (" ++ err ++ "): its fee is paid, nothing was swapped"
  | expired => "it expired without landing"
  | unknown => "nothing was heard of it in two minutes"

/-- The end of a swap: why its last simulation failed, or what became of it and what is said. -/
def swapEnd : Except Mainnet.Unsent Fate → Except String (Sent × String)
  | .ok fate => .ok (.sent, fate.words)
  | .error (.simulation why) => .error why
  | .error (.other why) => .ok (.notSent, why)

end Lab
end MobiusSearcher
