/-
# The warm-up suffices

No rule looks further back than its warm-up: decided on the last `k` bars, at
least as many, the orders and what is kept of the account are those of the whole
history (`orders_recent`). Each rule is read once through the window it looks
at (`decide_recent`); a model through its features (`signal_recent`). So a
running bot that drains its old bars decides as one that keeps them
(`orders_drained`).

Key definitions: `drained`.
Key theorems: `recent_recent`, `decide_recent`, `signal_recent`, `orders_recent`,
`orders_drained`.
-/
import MobiusSearcher.Lab.Model

namespace MobiusSearcher
namespace Lab

open FloatOps

/-! ### The last of a list -/

section Recent

variable {α β : Type} {xs : List α} {j k : ℕ}

theorem length_recent (k : ℕ) (xs : List α) : (recent k xs).length = min k xs.length := by
  unfold recent
  rw [List.length_drop]
  omega

/-- The last of the last. -/
theorem recent_recent (h : j ≤ k) : recent j (recent k xs) = recent j xs := by
  have hlen := length_recent k xs
  show (recent k xs).drop ((recent k xs).length - j) = xs.drop (xs.length - j)
  rw [hlen]
  unfold recent
  rw [List.drop_drop]
  congr 1
  omega

theorem getLast?_recent (hk : 0 < k) (hlen : k ≤ xs.length) : (recent k xs).getLast? = xs.getLast? := by
  unfold recent
  rw [List.getLast?_drop, if_neg (by omega)]

/-- Counted from the end, the elements are the same. -/
theorem getElem?_recent (hj : j ≤ k) (hlen : k ≤ xs.length) :
    (recent k xs)[(recent k xs).length - j]? = xs[xs.length - j]? := by
  rw [length_recent, min_eq_left hlen]
  unfold recent
  rw [List.getElem?_drop]
  congr 1
  omega

theorem take_recent (hlen : k ≤ xs.length) (hk : 0 < k) :
    (recent k xs).take ((recent k xs).length - 1) = recent (k - 1) (xs.take (xs.length - 1)) := by
  rw [length_recent, min_eq_left hlen]
  unfold recent
  rw [List.take_drop, List.length_take]
  have hsum : xs.length - k + (k - 1) = xs.length - 1 := by omega
  have hidx : min (xs.length - 1) xs.length - (k - 1) = xs.length - k := by omega
  rw [hsum, hidx]

end Recent

variable {F : Type}

/-! ### The rules -/

section Rules

variable [FloatOps F] {rule : Rule F} {bars : List (Bar F)} {acct : Account F} {capital : F} {mayBuy : Bool}
  {history k : ℕ}

theorem zScore_recent {window : ℕ} (hw : window ≤ k) (close : F) :
    Rule.zScore window (recent k bars) close = Rule.zScore window bars close := by
  have hwindow : (recent k bars).drop ((recent k bars).length - window) = bars.drop (bars.length - window) :=
    recent_recent hw
  unfold Rule.zScore
  rw [hwindow]

/-- A rule decides on the last bars, its warm-up or more, as on all of them. -/
theorem decide_recent (hwarm : rule.warmup history ≤ k) (hk : 0 < k) (hlen : k ≤ bars.length) :
    rule.decide history (recent k bars) acct capital mayBuy = rule.decide history bars acct capital mayBuy := by
  have hshort : (recent k bars).length = k := by
    rw [length_recent, min_eq_left hlen]
  unfold Rule.decide
  rw [getLast?_recent hk hlen]
  cases bars.getLast? with
  | none => rfl
  | some last =>
    simp only
    rw [if_neg (by omega), if_neg (by omega)]
    cases rule with
    | signReversal =>
      have hbefore := @getElem?_recent _ bars 2 k hwarm hlen
      simp only [hbefore]
    | dip window d exitZ stop =>
      have hwindow : window ≤ k := hwarm
      simp only [zScore_recent hwindow]
    | grid step lots => rfl
    | breakout entry exit =>
      have hle : max entry exit + 1 ≤ k := hwarm
      have hentry : entry ≤ k - 1 := by omega
      have hexit : exit ≤ k - 1 := by omega
      have hhigh := @recent_recent _ (bars.take (bars.length - 1)) _ _ hentry
      have hlow := @recent_recent _ (bars.take (bars.length - 1)) _ _ hexit
      unfold recent at hhigh hlow
      have htake := @take_recent _ bars k hlen hk
      simp only [htake]
      unfold recent
      rw [hhigh, hlow]
    | model => rfl

/-- A rule whose numbers are in order looks back at least one bar. -/
theorem warmup_pos (hcheck : rule.check = .ok ()) (hhistory : 0 < history) : 0 < rule.warmup history := by
  cases rule with
  | signReversal => exact Nat.two_pos
  | dip window d exitZ stop =>
    show 0 < window
    by_contra hzero
    have hbad : (Rule.dip window d exitZ stop).check =
        .error "window (at least 2), k and stop must be greater than zero" :=
      if_pos (.inl (by omega))
    rw [hbad] at hcheck
    exact nomatch hcheck
  | grid step lots => exact Nat.one_pos
  | breakout entry exit => exact Nat.succ_pos _
  | model => exact hhistory

end Rules

/-! ### The model -/

section Model

variable [FloatFns F] {bars : List (Bar F)} {btc : List F} {k : ℕ}

theorem features_recent (hk : modelHistory ≤ k) (hlen : k ≤ bars.length) (hbtc : btc.length = bars.length) :
    features (recent k bars) (recent k btc) = features bars btc := by
  have hshort : (recent k bars).length = k := by
    rw [length_recent, min_eq_left hlen]
  have hshort' : (recent k btc).length = k := by
    rw [length_recent, min_eq_left (hbtc ▸ hlen)]
  unfold features
  rw [if_neg (by omega), if_neg (by omega), recent_recent hk, recent_recent hk]

theorem signal_recent (m : Trained F) (hk : modelHistory ≤ k) (hlen : k ≤ bars.length)
    (hbtc : btc.length = bars.length) : m.signal (recent k bars) (recent k btc) = m.signal bars btc := by
  have hpos : 0 < k := lt_of_lt_of_le (by decide) hk
  unfold Trained.signal
  rw [getLast?_recent hpos hlen, features_recent hk hlen hbtc]

end Model

/-! ### The orders -/

section Orders

variable [FloatFns F] {rule : Rule F} {stops : Stops F} {capital : F} {acct : Account F} {bars : List (Bar F)}
  {other : List F} {model : Option (Trained F)} {k : ℕ}

/-- What a rule looks at: the model as it was trained, and the other coin's closes. -/
def ctxOf (model : Option (Trained F)) (other : List F) : Ctx F :=
  ⟨model.map Trained.toModel, other, modelHistory⟩

/-- A rule without a model to read decides on the bars alone. -/
theorem orders_of_decide {ctx : Ctx F} (h : rule ≠ .model ∨ ctx.model = none) {bar : Bar F}
    (hbar : bars.getLast? = some bar) :
    orders rule stops capital acct bars ctx =
      (rule.decide ctx.history bars (acct.mark stops capital bar) capital
        (!(acct.mark stops capital bar).frozen &&
          !stops.dailyLoss.any fun s => le ((acct.mark stops capital bar).equity bar.close)
            ((((acct.mark stops capital bar).day.map Prod.snd).getD ((acct.mark stops capital bar).equity bar.close)) -
              capital * s)),
        acct.mark stops capital bar) := by
  unfold orders
  rw [hbar]
  rcases h with hne | hnone
  · cases rule with
    | model => exact absurd rfl hne
    | _ => rfl
  · simp only [hnone]

theorem orders_recent (hwarm : rule.warmup modelHistory ≤ k) (hpos : 0 < k ∨ rule.check = .ok ())
    (hlen : k ≤ bars.length) (hother : rule = .model → other.length = bars.length) :
    orders rule stops capital acct (recent k bars) (ctxOf model (recent k other)) =
      orders rule stops capital acct bars (ctxOf model other) := by
  have hk : 0 < k := by
    rcases hpos with hk | hcheck
    · exact hk
    · exact lt_of_lt_of_le (warmup_pos hcheck (by decide)) hwarm
  have hsignal : ∀ m : Trained F, rule = .model →
      m.signal (recent k bars) (recent k other) = m.signal bars other :=
    fun m hm => signal_recent m (by rw [hm] at hwarm; exact hwarm) hlen (hother hm)
  have hlast := @getLast?_recent _ bars k hk hlen
  cases hbar : bars.getLast? with
  | none =>
    unfold orders
    rw [hlast, hbar]
  | some bar =>
    rw [hbar] at hlast
    by_cases hm : rule = .model ∧ model ≠ none
    · -- the model's signal, and the bar before the last for how long a bar is
      obtain ⟨rfl, hsome⟩ := hm
      obtain ⟨m, rfl⟩ := Option.ne_none_iff_exists'.mp hsome
      have hwide : modelHistory ≤ k := hwarm
      have htwo : 2 ≤ k := le_trans (by decide) hwide
      have hbefore := @getElem?_recent _ bars 2 k htwo hlen
      have hshort : (recent k bars).length = k := by
        rw [length_recent, min_eq_left hlen]
      have hon : m.toModel.signal (recent k bars) (recent k other) = m.toModel.signal bars other :=
        congrArg (fun o => o.getD false) (hsignal m rfl)
      have hlong : decide (2 ≤ (recent k bars).length) = decide (2 ≤ bars.length) := by
        rw [hshort]
        exact decide_eq_decide.mpr ⟨fun _ => le_trans htwo hlen, fun _ => htwo⟩
      unfold orders
      rw [hlast, hbar]
      simp only [ctxOf, Option.map_some, hon, hbefore, hlong]
      rfl
    · have hplain : rule ≠ .model ∨ model = none := by
        by_cases hr : rule = .model
        · exact .inr (by_contra fun hne => hm ⟨hr, hne⟩)
        · exact .inl hr
      have hnone : ∀ o : List F, rule ≠ .model ∨ (ctxOf model o).model = none := by
        intro o
        rcases hplain with hr | hn
        · exact .inl hr
        · rw [hn]
          exact .inr rfl
      rw [orders_of_decide (hnone _) hlast, orders_of_decide (hnone _) hbar]
      show (rule.decide modelHistory (recent k bars) _ _ _, _) = (rule.decide modelHistory bars _ _ _, _)
      rw [decide_recent hwarm hk hlen]

/-- What a running bot keeps of its bars: the last `keep`, once it has more than twice as many. -/
def drained {α : Type} (keep : ℕ) (xs : List α) : List α := if keep * 2 < xs.length then recent keep xs else xs

/-- A bot that drains its bars and the other coin's closes decides as one that keeps them. -/
theorem orders_drained {keep : ℕ} (hkeep : rule.warmup modelHistory + 8 ≤ keep) (hother : other.length = bars.length) :
    orders rule stops capital acct (drained keep bars) (ctxOf model (drained keep other)) =
      orders rule stops capital acct bars (ctxOf model other) := by
  unfold drained
  rw [hother]
  by_cases hmore : keep * 2 < bars.length
  · rw [if_pos hmore, if_pos hmore]
    exact orders_recent (by omega) (.inl (by omega)) (by omega) fun _ => hother
  · rw [if_neg hmore, if_neg hmore]

/-- **The warm-up suffices.** On the last `k` bars, the rule's warm-up or more, the orders
and the account are those on all bars, with the other coin's closes, one for each bar,
cut alike; a model fails on the ones where it fails on the others; and draining old bars
changes no decision. -/
theorem warmup_suffices (hwarm : rule.warmup modelHistory ≤ k) (hpos : 0 < k ∨ rule.check = .ok ())
    (hlen : k ≤ bars.length) (hother : rule = .model → other.length = bars.length) :
    orders rule stops capital acct (recent k bars) (ctxOf model (recent k other)) =
      orders rule stops capital acct bars (ctxOf model other) ∧
    (∀ m : Trained F, rule = .model → m.signal (recent k bars) (recent k other) = m.signal bars other) ∧
    ∀ keep, rule.warmup modelHistory + 8 ≤ keep → other.length = bars.length →
      orders rule stops capital acct (drained keep bars) (ctxOf model (drained keep other)) =
        orders rule stops capital acct bars (ctxOf model other) := by
  refine ⟨orders_recent hwarm hpos hlen hother, ?_, fun keep hkeep hcut => orders_drained hkeep hcut⟩
  intro m hm
  rw [hm] at hwarm
  exact signal_recent m hwarm hlen (hother hm)

end Orders

/-- Bars that open, close and stay at one price each, a quarter of an hour apart. -/
def flatBars (closes : List ℚ) : List (Bar ℚ) := closes.zipIdx.map fun (c, i) => ⟨i * 900000, c, c, c, c, 1⟩

def twoBars : Rule ℚ := .breakout 2 1

def sixBars : List (Bar ℚ) := flatBars [100, 101, 99, 100, 98, 102]

def hundred : Account ℚ := { Account.empty with cash := 100 }

/-- A breakout of two bars on the last three of six. -/
theorem warmup_suffices_breakout :
    orders twoBars ⟨none, none⟩ 100 hundred (recent 3 sixBars) (ctxOf none (recent 3 [])) =
      orders twoBars ⟨none, none⟩ 100 hundred sixBars (ctxOf none []) ∧
    (∀ m : Trained ℚ, twoBars = .model → m.signal (recent 3 sixBars) (recent 3 []) = m.signal sixBars []) ∧
    ∀ keep, twoBars.warmup modelHistory + 8 ≤ keep → ([] : List ℚ).length = sixBars.length →
      orders twoBars ⟨none, none⟩ 100 hundred (drained keep sixBars) (ctxOf none (drained keep [])) =
        orders twoBars ⟨none, none⟩ 100 hundred sixBars (ctxOf none []) :=
  warmup_suffices (by decide) (.inl (by decide)) (by decide) nofun

end Lab
end MobiusSearcher
