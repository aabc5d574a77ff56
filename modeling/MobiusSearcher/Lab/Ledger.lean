/-
# A chain on which a swap lands once or never

The wallet changes by the run's swaps and their fees only. A swap that was sent
is in flight until it lands, or fails and costs its fee, or its blockhash has
expired (`settledAfterMs` after it was held): what is in flight then stays
there for good. The wallet that is read is the wallet at that moment.

`venue lands` is such a chain; `lands` says what a swap that lands may make of
the wallet.

`reply` is one such chain that can be run: it lands the first swap in flight when
a buy is sent, and each time the clock is read.

Key definitions: `Ledger`, `Ledger.Drifts`, `venue`, `reply`.
Key theorems: `Ledger.Drifts.still`, `Ledger.Drifts.flying`, `reply_answers`.
-/
import MobiusSearcher.Lab.Protocol

namespace MobiusSearcher
namespace Lab

structure Ledger (F : Type) where
  clock : ℤ
  wallet : Wallet
  /-- Sent, and not seen to land or fail. -/
  flights : List (Pending F)
  /-- What landed, in order, with the USDC atoms each moved. -/
  landed : List (Pending F × ℤ)

namespace Ledger

variable {F : Type}

/-- A swap held at `p.ts` can still land. -/
def Alive (x : Ledger F) (p : Pending F) : Prop := x.clock < p.ts + settledAfterMs

/-- The swap lands, and leaves the others in flight and this wallet. -/
def landAs (x : Ledger F) (p : Pending F) (others : List (Pending F)) (wallet : Wallet) : Ledger F :=
  { x with wallet := wallet, flights := others, landed := x.landed ++ [(p, (wallet.2 : ℤ) - x.wallet.2)] }

variable (lands : Pending F → Wallet → Wallet → Prop)

inductive Drift : Ledger F → Ledger F → Prop
  | tick {x : Ledger F} {t : ℤ} : x.clock ≤ t → Drift x { x with clock := t }
  | land {x : Ledger F} {p : Pending F} {before after : List (Pending F)} {wallet : Wallet} :
    x.flights = before ++ p :: after → x.Alive p → lands p x.wallet wallet →
    Drift x (x.landAs p (before ++ after) wallet)
  /-- It failed in a block: its fee is paid, nothing else happened. -/
  | fail {x : Ledger F} {p : Pending F} {before after : List (Pending F)} {lamports : ℕ} :
    x.flights = before ++ p :: after → x.Alive p → lamports ≤ x.wallet.1 →
    Drift x { x with wallet := (lamports, x.wallet.2), flights := before ++ after }

/-- Any number of these. -/
abbrev Drifts : Ledger F → Ledger F → Prop := Relation.ReflTransGen (Drift lands)

variable {lands} {x x' : Ledger F}

theorem Drifts.clock (h : Drifts lands x x') : x.clock ≤ x'.clock := by
  induction h with
  | refl => exact le_refl _
  | tail _ hd ih =>
    cases hd with
    | tick ht => exact ih.trans ht
    | land => exact ih
    | fail => exact ih

theorem not_alive_mono {p : Pending F} (h : ¬ x.Alive p) (hc : x.clock ≤ x'.clock) : ¬ x'.Alive p := by
  unfold Alive at h ⊢
  omega

/-- Nothing that is in flight can still land. -/
def Still (x : Ledger F) : Prop := ∀ p ∈ x.flights, ¬ x.Alive p

/-- Then nothing but time changes. -/
theorem Drifts.still (h : Drifts lands x x') (hs : x.Still) :
    x'.Still ∧ x'.wallet = x.wallet ∧ x'.landed = x.landed := by
  induction h with
  | refl => exact ⟨hs, rfl, rfl⟩
  | tail _ hd ih =>
    obtain ⟨hstill, hw, hl⟩ := ih
    cases hd with
    | tick ht => exact ⟨fun p hp => not_alive_mono (hstill p hp) ht, hw, hl⟩
    | land hf ha => exact absurd ha (hstill _ (by simp [hf]))
    | fail hf ha => exact absurd ha (hstill _ (by simp [hf]))

/-- Only `p` can still land, and it was not seen to. -/
def Flying (x : Ledger F) (p : Pending F) : Prop := ∃ rest, x.flights = rest ++ [p] ∧ ∀ q ∈ rest, ¬ x.Alive q

/-- The one that can still land is the last in flight. -/
theorem eq_last {p q : Pending F} {before after rest : List (Pending F)} (h : before ++ q :: after = rest ++ [p])
    (hq : q ∉ rest) : before = rest ∧ q = p ∧ after = [] := by
  rcases List.eq_nil_or_concat after with rfl | ⟨as, a, rfl⟩
  · obtain ⟨h1, h2⟩ := List.append_inj' h rfl
    exact ⟨h1, (List.cons.inj h2).1, rfl⟩
  · have h' : (before ++ q :: as) ++ [a] = rest ++ [p] := by simpa using h
    have := (List.append_inj' h' rfl).1
    exact absurd (this ▸ by simp) hq

/-- What becomes of the one swap in flight: it stays there, it is over with at
most its fee paid, or it has landed. -/
theorem Drifts.flying {p : Pending F} (h : Drifts lands x x') (hf : x.Flying p) :
    (x'.Flying p ∧ x'.wallet = x.wallet ∧ x'.landed = x.landed) ∨
    (x'.Still ∧ x'.wallet.1 ≤ x.wallet.1 ∧ x'.wallet.2 = x.wallet.2 ∧ x'.landed = x.landed) ∨
    (x'.Still ∧ lands p x.wallet x'.wallet ∧ x'.landed = x.landed ++ [(p, (x'.wallet.2 : ℤ) - x.wallet.2)]) := by
  induction h with
  | refl => exact .inl ⟨hf, rfl, rfl⟩
  | @tail y z _ hd ih =>
    rcases ih with ⟨⟨rest, hr, hdead⟩, hw, hl⟩ | ⟨hs, hw₁, hw₂, hl⟩ | ⟨hs, hland, hl⟩
    · cases hd with
      | tick ht => exact .inl ⟨⟨rest, hr, fun q hq => not_alive_mono (hdead q hq) ht⟩, hw, hl⟩
      | land hf ha hland =>
        obtain ⟨rfl, rfl, rfl⟩ := eq_last (hf.symm.trans hr) fun hq => hdead _ hq ha
        refine .inr (.inr ⟨?_, hw ▸ hland, by simp [landAs, hl, hw]⟩)
        intro q hq
        exact hdead q (by simpa [landAs] using hq)
      | fail hf ha hle =>
        obtain ⟨rfl, rfl, rfl⟩ := eq_last (hf.symm.trans hr) fun hq => hdead _ hq ha
        refine .inr (.inl ⟨?_, hw ▸ hle, by simp [hw], hl⟩)
        intro q hq
        exact hdead q (by simpa using hq)
    · obtain ⟨hs', hw', hl'⟩ := Drifts.still (.single hd) hs
      exact .inr (.inl ⟨hs', by rw [hw']; exact hw₁, by rw [hw']; exact hw₂, hl'.trans hl⟩)
    · obtain ⟨hs', hw', hl'⟩ := Drifts.still (.single hd) hs
      exact .inr (.inr ⟨hs', by rw [hw']; exact hland, by rw [hl', hw']; exact hl⟩)

end Ledger

open Ledger in
/-- The chain: a swap that was sent is the one open in the state it was sent from. -/
def venue {F : Type} (lands : Pending F → Wallet → Wallet → Prop) : Chain F (Ledger F) where
  balances x a x' := Drifts lands x x' ∧ (a = none ∨ a = some x'.wallet)
  swap x pending _ _ _ a x' :=
    match a, pending with
    | .sent, some p => Drifts lands { x with flights := x.flights ++ [p] } x'
    | _, _ => Drifts lands x x'
  now x t x' := Drifts lands x x' ∧ t ≤ x'.clock
  passes x x' := Drifts lands x x'

/-- A wallet and a clock, and nothing sent yet. -/
def Ledger.start {F : Type} (clock : ℤ) (wallet : Wallet) : Ledger F := ⟨clock, wallet, [], []⟩

/-! ### Runs -/

/-- The first swap in flight lands: a SOL for 10 USDC, or 10 USDC for it. -/
def Ledger.landNext (x : Ledger ℚ) : Ledger ℚ :=
  match x.flights with
  | [] => x
  | p :: rest =>
    if x.clock < p.ts + settledAfterMs then
      if p.what.sellsSol then
        x.landAs p rest (x.wallet.1 - 1000000000, x.wallet.2 + 10000000)
      else if 10000000 ≤ x.wallet.2 then
        x.landAs p rest (x.wallet.1 + 1000000000, x.wallet.2 - 10000000)
      else x
    else x

open Ledger in
theorem landNext_drifts (x : Ledger ℚ) : Drifts Moved x x.landNext := by
  unfold landNext
  split
  · exact .refl
  rename_i p rest hf
  split
  swap
  · exact .refl
  rename_i ha
  split
  · rename_i hs
    exact .single (@Drift.land _ _ _ _ [] _ _ hf ha (by simp [Moved, hs]))
  · rename_i hs
    split
    · rename_i hle
      exact .single (@Drift.land _ _ _ _ [] _ _ hf ha (by simp [Moved, hs]; omega))
    · exact .refl

def send (w : World ℚ (Ledger ℚ)) (sellSol : Bool) : Sent × World ℚ (Ledger ℚ) :=
  match w.mem.pending with
  | none => (.notSent, w)
  | some p =>
    let x := { w.chain with flights := w.chain.flights ++ [p] }
    (.sent, { w with chain := if sellSol then x else x.landNext })

/-- The answers of a chain that can be read at once, on which a buy is seen at
once too, and a sale when the clock is read next. -/
def reply (live : Live ℚ) (w : World ℚ (Ledger ℚ)) : (o : Op ℚ) → o.Ans × World ℚ (Ledger ℚ)
  | .state => (w.mem, w)
  | .set s => ((), { w with mem := s })
  | .hold p => ((), { w with mem := { w.mem with pending := some p } })
  | .release => ((), { w with mem := { w.mem with pending := none } })
  | .settle p now lastLook =>
    ((w.mem.settle live p now lastLook).2, { w with
      mem := (w.mem.settle live p now lastLook).1
      applied := if (w.mem.settle live p now false).2 then w.applied ++ [(p, now)] else w.applied })
  | .balances => (some w.chain.wallet, w)
  | .swap sellSol .. => send w sellSol
  | .write => ((), { w with disk := w.mem, kept := w.applied })
  | .now => (w.chain.clock, { w with chain := w.chain.landNext })
  | .order _ => ((), w)

theorem reply_answers (live : Live ℚ) (w : World ℚ (Ledger ℚ)) (o : Op ℚ) :
    w.answers live (venue Moved) o (reply live w o).1 (reply live w o).2 := by
  cases o with
  | state => exact ⟨rfl, rfl⟩
  | settle => exact ⟨rfl, rfl⟩
  | balances => exact ⟨w.chain, ⟨.refl, .inr rfl⟩, rfl⟩
  | now => exact ⟨_, ⟨landNext_drifts _, le_trans (landNext_drifts _).clock (le_refl _)⟩, rfl⟩
  | swap sellSol amount atLeast =>
    simp only [reply, send, World.answers]
    cases w.mem.pending with
    | none => exact ⟨w.chain, .refl, rfl⟩
    | some p =>
      refine ⟨_, ?_, rfl⟩
      cases sellSol
      · exact landNext_drifts _
      · exact .refl
  | _ => rfl

end Lab
end MobiusSearcher
