/-
# The orders a rule gives

What holds of the orders of every rule, at any account and candles
(`rules.rs`, `decide` and `orders`): deciding moves no money, and what is to be
sold is held, each lot named once.

Key definitions: `SameMoney`.
Key theorems: `orders_same`, `sells_valid`.
-/
import MobiusSearcher.Lab.Rules

namespace MobiusSearcher
namespace Lab

open FloatOps

/-- Neither cash nor what was bought and sold differs. -/
structure SameMoney {F : Type} (a b : Account F) : Prop where
  cash : b.cash = a.cash
  lots : b.lots = a.lots
  trades : b.trades = a.trades

namespace SameMoney

variable {F : Type} {a b c : Account F}

theorem refl (a : Account F) : SameMoney a a := ⟨rfl, rfl, rfl⟩

theorem trans (h : SameMoney a b) (h' : SameMoney b c) : SameMoney a c :=
  ⟨h'.cash.trans h.cash, h'.lots.trans h.lots, h'.trades.trans h.trades⟩

end SameMoney

theorem sellsOf_map_sell {F : Type} (is : List ℕ) : sellsOf (is.map (Order.sell (F := F))) = is := by
  induction is with
  | nil => rfl
  | cons i is ih =>
    show i :: sellsOf (is.map Order.sell) = i :: is
    rw [ih]

/-- A model rule's orders on an account, and the account. -/
theorem model_orders {F : Type} {a b : Account F} {bar : Bar F} (h : SameMoney a b) (buys : Bool) :
    let r := if b.lots.isEmpty then (if buys then [Order.buy b.cash] else [], b)
      else if b.holdUntil.all fun t => t ≤ bar.ts then ((List.range b.lots.length).map .sell, b)
      else ([], b)
    SameMoney a r.2 ∧ (sellsOf r.1).Sublist (List.range a.lots.length) := by
  simp only
  split
  · refine ⟨h, ?_⟩
    split <;> exact List.nil_sublist _
  split
  · refine ⟨h, ?_⟩
    rw [sellsOf_map_sell, h.lots]
  · exact ⟨h, List.nil_sublist _⟩

variable {F : Type} [FloatOps F]

theorem mark_same (a : Account F) (stops : Stops F) (capital : F) (bar : Bar F) :
    SameMoney a (a.mark stops capital bar) := by
  unfold Account.mark
  constructor <;> simp only <;> split <;> split <;> rfl

theorem allIn_sells (a : Account F) (mayBuy want : Bool) :
    (sellsOf (Rule.allIn a mayBuy want)).Sublist (List.range a.lots.length) := by
  unfold Rule.allIn
  split
  · split <;> exact List.nil_sublist _
  · rw [sellsOf_map_sell]
  · exact List.nil_sublist _

theorem decide_sells (history : ℕ) (rule : Rule F) (bars : List (Bar F)) (a : Account F) (capital : F) (mayBuy : Bool) :
    (sellsOf (rule.decide history bars a capital mayBuy)).Sublist (List.range a.lots.length) := by
  unfold Rule.decide
  cases bars.getLast? with
  | none => exact List.nil_sublist _
  | some last =>
    simp only
    split
    · exact List.nil_sublist _
    cases rule with
    | signReversal =>
      simp only
      split
      · exact allIn_sells ..
      · exact List.nil_sublist _
    | dip window k exitZ stop =>
      simp only
      split <;> exact allIn_sells ..
    | grid step lots =>
      simp only
      split
      · -- the indexes kept are some of all, in order
        have hz : (a.lots.zipIdx.map Prod.snd) = List.range a.lots.length := by simp [List.range_eq_range']
        rw [← hz]
        have hf := @List.filter_sublist _ (fun l => le (l.1.price * (lit 1 + step)) last.close) a.lots.zipIdx
        have hm := hf.map Prod.snd
        rwa [← sellsOf_map_sell (F := F) (List.map Prod.snd _), List.map_map] at hm
      · split <;> exact List.nil_sublist _
    | breakout entry exit =>
      simp only
      split <;> exact allIn_sells ..
    | model => exact List.nil_sublist _

/-- Deciding moves no money, and a rule's orders name lots that are held, each once. -/
theorem orders_spec (rule : Rule F) (stops : Stops F) (capital : F) (a : Account F) (bars : List (Bar F)) (ctx : Ctx F) :
    SameMoney a (orders rule stops capital a bars ctx).2 ∧
      (sellsOf (orders rule stops capital a bars ctx).1).Sublist (List.range a.lots.length) := by
  unfold orders
  cases bars.getLast? with
  | none => exact ⟨.refl a, List.nil_sublist _⟩
  | some bar =>
    have hm := mark_same a stops capital bar
    simp only
    split
    · -- whether or not the bar it holds until is set, the money is the account's
      split
      · split
        · refine model_orders ?_ _
          exact hm.trans ⟨rfl, rfl, rfl⟩
        · exact model_orders hm _
      · exact model_orders hm _
    · refine ⟨hm, ?_⟩
      rw [← hm.lots]
      exact decide_sells ..

theorem orders_same (rule : Rule F) (stops : Stops F) (capital : F) (a : Account F) (bars : List (Bar F)) (ctx : Ctx F) :
    SameMoney a (orders rule stops capital a bars ctx).2 := (orders_spec rule stops capital a bars ctx).1

/-- Nor does deciding count as bought or sold. -/
theorem orders_turnover (rule : Rule F) (stops : Stops F) (capital : F) (a : Account F) (bars : List (Bar F)) (ctx : Ctx F) :
    (orders rule stops capital a bars ctx).2.turnover = a.turnover := by
  have hmark : ∀ bar : Bar F, (a.mark stops capital bar).turnover = a.turnover := by
    intro bar
    unfold Account.mark
    simp only
    split <;> split <;> rfl
  unfold orders
  cases bars.getLast? with
  | none => rfl
  | some bar =>
    simp only
    split
    · split
      · split <;> (split <;> [skip; split]) <;> exact hmark bar
      · split <;> [skip; split] <;> exact hmark bar
    · exact hmark bar

theorem sells_valid (rule : Rule F) (stops : Stops F) (capital : F) (a : Account F) (bars : List (Bar F)) (ctx : Ctx F) :
    (sellsOf (orders rule stops capital a bars ctx).1).Sublist (List.range a.lots.length) :=
  (orders_spec rule stops capital a bars ctx).2

end Lab
end MobiusSearcher
