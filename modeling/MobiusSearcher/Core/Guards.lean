/-
# What passing the guards says

`check_guards` on what `evaluate` gives, with any simulated net set in it. The
three comparisons are made on rounded and rescaled numbers. Where these numbers
fit their types (`Fits`), passing means that the profit is there, and a profit
there with a rounding unit to spare passes (`guards_right`). `Misjudged` lists
what goes wrong elsewhere: a ratio that no `i64` holds counts as zero, a rescaled
loss is cut to 64 bits, a net above the largest `i64` is rescaled from its
clamped value, and a value that no `i64` or `i128` holds counts as no price.

Key definitions: `Judgement`, `ProfitThere`, `Fits`, `Misjudged`.
Key theorems: `verdict_eq_none`, `usdPasses_iff`, `guards_right_iff`, `guards_right`.
-/
import MobiusSearcher.Core.Cover
import MobiusSearcher.Core.Profit

namespace MobiusSearcher

open Machine

/-- A trade to be judged: what `evaluate` and `check_guards` are given. -/
structure Judgement where
  input : ℕ
  grossOutput : ℕ
  costs : CostBreakdown
  baseDecimals : ℕ
  price : Option UsdPrice
  simulatedNet : Option ℤ
  guards : ProfitGuards

namespace Judgement

variable (j : Judgement)

def eval : ProfitEval :=
  { evaluate j.input j.grossOutput j.costs j.baseDecimals j.price with simulatedNet := j.simulatedNet }

/-- The verdict; `none` when all guards pass. -/
def verdict : Option GuardFailure := checkGuards j.eval j.input j.guards

/-- The expected net before it is clamped. -/
def exactNet : ℤ := (j.grossOutput : ℤ) - j.input - j.costs.total

/-- The net the decision is made on. -/
def net : ℤ := j.eval.net

/-- The net edge in parts per million, rounded down. -/
def edge : ℤ := j.net * ppmOne / j.input

/-- The expected net in micro-USD, when there is a price and the value fits its types. -/
def netValue : Option UsdMicros := j.price.bind fun p => p.value j.exactNet j.baseDecimals

/-- The net meets the three minimums with `margin` units to spare in each. -/
structure ProfitThere (margin : ℤ) : Prop where
  lamports : j.guards.minProfitLamports + margin ≤ j.net
  edge : (j.guards.minProfitEdge.val + margin) * j.input ≤ j.net * ppmOne
  usd : 0 < j.guards.minProfitUsd.val →
    ∃ p, j.price = some p ∧ (j.guards.minProfitUsd.val + margin) * 10 ^ j.baseDecimals ≤ j.net * p.microsPerToken

/-- The fields are in their types' ranges and something is spent. -/
structure InRange : Prop where
  input_pos : 0 < j.input
  simulated : ∀ s, j.simulatedNet = some s → i64Min ≤ s ∧ s ≤ i64Max
  minEdge : i64Min ≤ j.guards.minProfitEdge.val ∧ j.guards.minProfitEdge.val ≤ i64Max

/-! ### The comparisons as made -/

/-- The edge compared is zero when no `i64` holds it. -/
def EdgePasses : Prop :=
  (i64Min ≤ j.edge ∧ j.edge ≤ i64Max) ∧ j.guards.minProfitEdge.val ≤ j.edge ∨
  ¬(i64Min ≤ j.edge ∧ j.edge ≤ i64Max) ∧ j.guards.minProfitEdge.val ≤ 0

def UsdPasses : Prop :=
  j.guards.minProfitUsd.val ≤ 0 ∨ ∃ usd, MobiusSearcher.netUsd j.eval j.net = some usd ∧ j.guards.minProfitUsd.val ≤ usd.val

theorem net_eq : j.net = match j.simulatedNet with
    | some s => min s (clampI64 j.exactNet)
    | none => clampI64 j.exactNet := rfl

theorem net_le : j.net ≤ clampI64 j.exactNet := by
  rw [net_eq]
  cases j.simulatedNet with
  | none => exact le_rfl
  | some s => exact min_le_right _ _

theorem clampI64_mem (x : ℤ) : i64Min ≤ clampI64 x ∧ clampI64 x ≤ i64Max := by
  unfold clampI64 i64Min i64Max
  omega

variable {j}

theorem net_mem (h : j.InRange) : i64Min ≤ j.net ∧ j.net ≤ i64Max := by
  have hclamp := clampI64_mem j.exactNet
  rw [net_eq]
  cases hs : j.simulatedNet with
  | none => exact hclamp
  | some s =>
    have hrange := h.simulated s hs
    exact ⟨le_min hrange.1 hclamp.1, le_trans (min_le_right _ _) hclamp.2⟩

theorem ratio_net (h : j.InRange) :
    (Ppm.ratio j.net j.input).getD Ppm.zero = ⟨if i64Min ≤ j.edge ∧ j.edge ≤ i64Max then j.edge else 0⟩ := by
  have hnet := net_mem h
  have hpos : ¬(j.input : ℤ) ≤ 0 := by
    have := h.input_pos
    omega
  have hscaled : checkedI128 (j.net * ppmOne) = some (j.net * ppmOne) := by
    apply if_pos
    unfold i64Min i64Max at hnet
    unfold ppmOne
    omega
  unfold Ppm.ratio
  rw [if_neg hpos, hscaled]
  show ((checkedI64 j.edge).map Ppm.mk).getD Ppm.zero = _
  unfold checkedI64
  by_cases hrange : i64Min ≤ j.edge ∧ j.edge ≤ i64Max
  · rw [if_pos hrange, if_pos hrange]
    rfl
  · rw [if_neg hrange, if_neg hrange]
    rfl

theorem edgePasses_iff (h : j.InRange) :
    j.EdgePasses ↔ j.guards.minProfitEdge.val ≤ ((Ppm.ratio j.net j.input).getD Ppm.zero).val := by
  rw [ratio_net h]
  unfold EdgePasses
  by_cases hrange : i64Min ≤ j.edge ∧ j.edge ≤ i64Max
  · rw [if_pos hrange]
    exact ⟨fun hp => hp.elim (fun hp => hp.2) fun hp => absurd hrange hp.1, fun hp => .inl ⟨hrange, hp⟩⟩
  · rw [if_neg hrange]
    exact ⟨fun hp => hp.elim (fun hp => absurd hp.1 hrange) fun hp => hp.2, fun hp => .inr ⟨hrange, hp⟩⟩

/-- All guards pass exactly when the three comparisons do. -/
theorem verdict_eq : j.verdict =
    if j.net < j.guards.minProfitLamports then some (.lamports j.net j.guards.minProfitLamports)
    else if ((Ppm.ratio j.net j.input).getD Ppm.zero).val < j.guards.minProfitEdge.val then
      some (.edge ((Ppm.ratio j.net j.input).getD Ppm.zero) j.guards.minProfitEdge)
    else if 0 < j.guards.minProfitUsd.val then
      match MobiusSearcher.netUsd j.eval j.net with
      | none => some .priceUnavailable
      | some usd => if usd.val < j.guards.minProfitUsd.val then some (.usd usd j.guards.minProfitUsd) else none
    else none := rfl

theorem verdict_eq_none (h : j.InRange) :
    j.verdict = none ↔ j.guards.minProfitLamports ≤ j.net ∧ j.EdgePasses ∧ j.UsdPasses := by
  rw [edgePasses_iff h, verdict_eq]
  unfold UsdPasses
  by_cases hlamports : j.net < j.guards.minProfitLamports
  · rw [if_pos hlamports]
    exact ⟨fun hn => absurd hn (Option.some_ne_none _), fun hp => absurd hp.1 (not_le.mpr hlamports)⟩
  · rw [if_neg hlamports]
    by_cases hedge : ((Ppm.ratio j.net j.input).getD Ppm.zero).val < j.guards.minProfitEdge.val
    · rw [if_pos hedge]
      exact ⟨fun hn => absurd hn (Option.some_ne_none _), fun hp => absurd hp.2.1 (not_le.mpr hedge)⟩
    · rw [if_neg hedge]
      have hfirst : ∀ p : Prop, (j.guards.minProfitLamports ≤ j.net ∧
          j.guards.minProfitEdge.val ≤ ((Ppm.ratio j.net j.input).getD Ppm.zero).val ∧ p) ↔ p :=
        fun p => ⟨fun hp => hp.2.2, fun hp => ⟨not_lt.mp hlamports, not_lt.mp hedge, hp⟩⟩
      rw [hfirst]
      by_cases husd : 0 < j.guards.minProfitUsd.val
      · rw [if_pos husd]
        cases hvalue : MobiusSearcher.netUsd j.eval j.net with
        | none =>
          refine ⟨fun hn => absurd hn (Option.some_ne_none _), ?_⟩
          rintro (hle | ⟨usd, hsome, -⟩)
          · exact absurd husd (not_lt.mpr hle)
          · cases hsome
        | some usd =>
          show (if usd.val < j.guards.minProfitUsd.val then _ else none) = none ↔ _
          by_cases hlt : usd.val < j.guards.minProfitUsd.val
          · rw [if_pos hlt]
            refine ⟨fun hn => absurd hn (Option.some_ne_none _), ?_⟩
            rintro (hle | ⟨usd', hsome, hle⟩)
            · exact absurd husd (not_lt.mpr hle)
            · cases hsome
              exact absurd hlt (not_lt.mpr hle)
          · rw [if_neg hlt]
            exact ⟨fun _ => .inr ⟨usd, rfl, not_lt.mp hlt⟩, fun _ => rfl⟩
      · rw [if_neg husd]
        exact ⟨fun _ => .inl (not_lt.mp husd), fun _ => rfl⟩

/-! ### The value in USD -/

theorem value_eq_some {p : UsdPrice} {atoms : ℤ} {decimals : ℕ} {v : UsdMicros}
    (h : p.value atoms decimals = some v) :
    (i64Min ≤ v.val ∧ v.val ≤ i64Max) ∧ v.val = atoms * p.microsPerToken / 10 ^ decimals := by
  unfold UsdPrice.value at h
  obtain ⟨scale, hscale, h⟩ := Option.bind_eq_some_iff.mp h
  obtain ⟨scaled, hscaled, h⟩ := Option.bind_eq_some_iff.mp h
  obtain ⟨w, hw, rfl⟩ := Option.map_eq_some_iff.mp h
  have hs : 10 ^ decimals = scale := Option.some.inj (Option.ite_none_right_eq_some.mp hscale).2
  have hv : atoms * p.microsPerToken = scaled := Option.some.inj (Option.ite_none_right_eq_some.mp hscaled).2
  obtain ⟨hrange, hq⟩ := Option.ite_none_right_eq_some.mp hw
  have hquot : scaled / scale = w := Option.some.inj hq
  rw [hquot] at hrange
  rw [hs, hv]
  exact ⟨hrange, hquot.symm⟩

theorem netValue_eq_some {v : UsdMicros} (h : j.netValue = some v) : ∃ p, j.price = some p ∧
    (i64Min ≤ v.val ∧ v.val ≤ i64Max) ∧ v.val = j.exactNet * p.microsPerToken / 10 ^ j.baseDecimals := by
  obtain ⟨p, hp, hv⟩ := Option.bind_eq_some_iff.mp h
  exact ⟨p, hp, value_eq_some hv⟩

/-- The value rescaled to the net is taken for at least the minimum. -/
def Rescaled (j : Judgement) (v : UsdMicros) : Prop :=
  j.guards.minProfitUsd.val ≤ wrapI64 ((v.val * j.net).tdiv (clampI64 j.exactNet))

theorem clampI64_pos {x : ℤ} : 0 < clampI64 x ↔ 0 < x := by
  unfold clampI64 i64Min i64Max
  omega

theorem clampI64_eq_zero {x : ℤ} : clampI64 x = 0 ↔ x = 0 := by
  unfold clampI64 i64Min i64Max
  omega

/-- A minimum above zero passes exactly when there is a value and, rescaled, it reaches it. -/
theorem usdPasses_iff (hmin : 0 < j.guards.minProfitUsd.val) : j.UsdPasses ↔ ∃ v, j.netValue = some v ∧ j.Rescaled v := by
  have husd : MobiusSearcher.netUsd j.eval j.net = j.netValue.map fun v =>
      if clampI64 j.exactNet ≠ 0 then ⟨wrapI64 ((v.val * j.net).tdiv (clampI64 j.exactNet))⟩ else v := rfl
  unfold UsdPasses
  rw [husd]
  constructor
  · rintro (hle | ⟨usd, hsome, hle⟩)
    · exact absurd hmin (not_lt.mpr hle)
    · obtain ⟨v, hv, rfl⟩ := Option.map_eq_some_iff.mp hsome
      refine ⟨v, hv, ?_⟩
      by_cases hzero : clampI64 j.exactNet = 0
      · -- nothing is earned, so the value is zero
        obtain ⟨p, -, -, hvalue⟩ := netValue_eq_some hv
        rw [if_neg (not_not.mpr hzero), hvalue, clampI64_eq_zero.mp hzero, zero_mul, Int.zero_ediv] at hle
        exact absurd hmin (not_lt.mpr hle)
      · rw [if_pos hzero] at hle
        exact hle
  · rintro ⟨v, hv, hle⟩
    refine .inr ⟨_, Option.map_eq_some_iff.mpr ⟨v, hv, rfl⟩, ?_⟩
    by_cases hzero : clampI64 j.exactNet = 0
    · unfold Rescaled at hle
      rw [hzero, Int.tdiv_zero] at hle
      exact absurd hmin (not_lt.mpr hle)
    · rw [if_pos hzero]
      exact hle

theorem wrapI64_rescaled {v n e : ℤ} (hv : 0 ≤ v) (hmax : v ≤ i64Max) (hn : 0 ≤ n) (hle : n ≤ e) (he : 0 < e) :
    wrapI64 ((v * n).tdiv e) = v * n / e := by
  rw [Int.tdiv_eq_ediv_of_nonneg (mul_nonneg hv hn)]
  have hlow : 0 ≤ v * n / e := Int.ediv_nonneg (mul_nonneg hv hn) he.le
  have hhigh : v * n / e ≤ v := by
    apply Int.ediv_le_of_le_mul he
    exact mul_le_mul_of_nonneg_left hle hv
  apply wrapI64_of_mem
  · unfold i64Min
    omega
  · exact le_trans hhigh hmax

/-- With no loss the rescaled value is the exact quotient, rounded down. -/
theorem rescaled_iff {v : UsdMicros} (hmin : 0 < j.guards.minProfitUsd.val) (hv : j.netValue = some v) (hnet : 0 ≤ j.net) :
    j.Rescaled v ↔ 0 < j.exactNet ∧ j.guards.minProfitUsd.val * clampI64 j.exactNet ≤ v.val * j.net := by
  obtain ⟨p, -, hrange, hvalue⟩ := netValue_eq_some hv
  have hle : j.net ≤ clampI64 j.exactNet := net_le j
  unfold Rescaled
  by_cases hpos : 0 < j.exactNet
  · have he : 0 < clampI64 j.exactNet := clampI64_pos.mpr hpos
    have hnonneg : 0 ≤ v.val := by
      rw [hvalue]
      apply Int.ediv_nonneg
      · exact mul_nonneg hpos.le (Int.natCast_nonneg _)
      · positivity
    rw [wrapI64_rescaled hnonneg hrange.2 hnet hle he, Int.le_ediv_iff_mul_le he]
    exact ⟨fun h => ⟨hpos, h⟩, fun h => h.2⟩
  · have hzero : clampI64 j.exactNet = 0 := by
      have hclamp : ¬0 < clampI64 j.exactNet := fun h => hpos (clampI64_pos.mp h)
      omega
    rw [hzero, Int.tdiv_zero]
    refine ⟨fun h => absurd hmin (not_lt.mpr h), fun h => absurd h.1 hpos⟩

/-- A value rounded down and rescaled, rounded down again, is at most the exact value. -/
theorem there_of_rescaled {u v n net scale p : ℤ} (hnet : 0 < net) (hn : 0 ≤ n) (hvalue : v * scale ≤ net * p)
    (hle : u * net ≤ v * n) (hscale : 0 < scale) : u * scale ≤ n * p := by
  have hchain : u * scale * net ≤ n * p * net := by
    calc u * scale * net = u * net * scale := by ring
      _ ≤ v * n * scale := mul_le_mul_of_nonneg_right hle hscale.le
      _ = v * scale * n := by ring
      _ ≤ net * p * n := mul_le_mul_of_nonneg_right hvalue hn
      _ = n * p * net := by ring
  exact le_of_mul_le_mul_right hchain hnet

/-- The two roundings together take less than a unit off. -/
theorem rescaled_of_there {u v n e net scale p : ℤ} (hn : 0 < n) (hle : n ≤ net) (he : e ≤ net) (hu : 0 ≤ u)
    (hscale : 0 < scale) (hvalue : net * p < (v + 1) * scale) (hthere : (u + 1) * scale ≤ n * p) : u * e ≤ v * n := by
  have hnet : 0 ≤ net := le_trans hn.le hle
  have hchain : (u * net + n) * scale ≤ (v * n + n) * scale := by
    calc (u * net + n) * scale ≤ (u * net + net) * scale :=
          mul_le_mul_of_nonneg_right (by omega) hscale.le
      _ = net * ((u + 1) * scale) := by ring
      _ ≤ net * (n * p) := mul_le_mul_of_nonneg_left hthere hnet
      _ = net * p * n := by ring
      _ ≤ (v + 1) * scale * n := mul_le_mul_of_nonneg_right hvalue.le hn.le
      _ = (v * n + n) * scale := by ring
  have hmul : u * net + n ≤ v * n + n := le_of_mul_le_mul_right hchain hscale
  have hclamp : u * e ≤ u * net := mul_le_mul_of_nonneg_left he hu
  omega

/-! ### When the verdict is right -/

/-- Passing means the profit is there, and a profit with a unit to spare passes. -/
def Right (j : Judgement) : Prop :=
  (j.verdict = none → j.ProfitThere 0) ∧ (j.ProfitThere 1 → j.verdict = none)

/-- A loss whose rescaled value, cut to 64 bits, reaches the minimum. -/
def LossWraps (j : Judgement) : Prop :=
  0 < j.guards.minProfitUsd.val ∧ j.net < 0 ∧ ∃ v, j.netValue = some v ∧ j.Rescaled v

/-- What goes wrong. -/
inductive Misjudged (j : Judgement) : Prop
  /-- The ratio is under every `i64` and counts as zero. -/
  | edgeBelow (hedge : j.edge < i64Min) (hmin : j.guards.minProfitEdge.val ≤ 0)
      (hlamports : j.guards.minProfitLamports ≤ j.net)
      (husd : j.guards.minProfitUsd.val ≤ 0 ∨ j.LossWraps)
  | lossWraps (hlamports : j.guards.minProfitLamports ≤ j.net) (hedge : j.EdgePasses) (husd : j.LossWraps)
  /-- The expected net is above every `i64`: rescaled from the largest one, its value is too high. -/
  | netClamped (hlamports : j.guards.minProfitLamports ≤ j.net) (hedge : j.EdgePasses)
      (husd : 0 < j.guards.minProfitUsd.val) (hclamped : i64Max < j.exactNet) (hnet : 0 ≤ j.net) (p : UsdPrice)
      (hp : j.price = some p) (v : UsdMicros) (hv : j.netValue = some v)
      (hreaches : j.guards.minProfitUsd.val * i64Max ≤ v.val * j.net)
      (hless : j.net * p.microsPerToken < j.guards.minProfitUsd.val * 10 ^ j.baseDecimals)
  /-- The ratio is above every `i64` and counts as zero. -/
  | edgeAbove (hedge : i64Max < j.edge) (hmin : 0 < j.guards.minProfitEdge.val) (hthere : j.ProfitThere 1)
  /-- No `i64` or `i128` holds the value: it counts as no price. -/
  | valueLost (husd : 0 < j.guards.minProfitUsd.val) (hv : j.netValue = none) (hthere : j.ProfitThere 1)

theorem le_edge_iff (h : j.InRange) (k : ℤ) : k ≤ j.edge ↔ k * j.input ≤ j.net * ppmOne :=
  Int.le_ediv_iff_mul_le (by exact_mod_cast h.input_pos)

theorem net_le_exactNet (hpos : 0 < j.net) : j.net ≤ j.exactNet ∧ clampI64 j.exactNet ≤ j.exactNet := by
  have hle : j.net ≤ clampI64 j.exactNet := net_le j
  have hclamp : 0 < j.exactNet := clampI64_pos.mp (lt_of_lt_of_le hpos hle)
  have hmin : clampI64 j.exactNet ≤ j.exactNet := by
    unfold clampI64 i64Min i64Max
    omega
  exact ⟨le_trans hle hmin, hmin⟩

theorem edge_there (h : j.InRange) (hedge : j.EdgePasses) (hlow : i64Min ≤ j.edge) :
    (j.guards.minProfitEdge.val + 0) * j.input ≤ j.net * ppmOne := by
  rw [add_zero, ← le_edge_iff h]
  rcases hedge with ⟨-, hle⟩ | ⟨hout, hle⟩
  · exact hle
  · have hhigh : i64Max < j.edge := by
      by_contra hle'
      exact hout ⟨hlow, not_lt.mp hle'⟩
    unfold i64Max at hhigh
    omega

theorem edge_neg (h : j.InRange) (hlow : j.edge < i64Min) : j.net < 0 := by
  by_contra hneg
  have hzero : 0 ≤ j.edge := by
    rw [le_edge_iff h, zero_mul]
    exact mul_nonneg (not_lt.mp hneg) (Int.natCast_nonneg _)
  unfold i64Min at hlow
  omega

theorem usd_there (h : ¬j.Misjudged) (hlamports : j.guards.minProfitLamports ≤ j.net) (hedge : j.EdgePasses)
    (husd : j.UsdPasses) (hmin : 0 < j.guards.minProfitUsd.val) :
    ∃ p, j.price = some p ∧ (j.guards.minProfitUsd.val + 0) * 10 ^ j.baseDecimals ≤ j.net * p.microsPerToken := by
  obtain ⟨v, hv, hresc⟩ := (usdPasses_iff hmin).mp husd
  have hnet : 0 ≤ j.net := by
    by_contra hneg
    exact h (.lossWraps hlamports hedge ⟨hmin, not_le.mp hneg, v, hv, hresc⟩)
  obtain ⟨p, hp, -, hvalue⟩ := netValue_eq_some hv
  obtain ⟨hpos, hle⟩ := (rescaled_iff hmin hv hnet).mp hresc
  refine ⟨p, hp, ?_⟩
  rw [add_zero]
  by_contra hless
  have hscale : (0 : ℤ) < 10 ^ j.baseDecimals := by positivity
  by_cases hclamped : i64Max < j.exactNet
  · have hmax : clampI64 j.exactNet = i64Max := by
      unfold clampI64 i64Min i64Max at *
      omega
    rw [hmax] at hle
    exact h (.netClamped hlamports hedge hmin hclamped hnet p hp v hv hle (not_le.mp hless))
  · have hexact : clampI64 j.exactNet = j.exactNet := by
      unfold clampI64 i64Min i64Max at *
      omega
    rw [hexact] at hle
    refine hless (there_of_rescaled hpos hnet ?_ hle hscale)
    rw [hvalue]
    exact Int.ediv_mul_le _ hscale.ne'

theorem usd_passes (h : ¬j.Misjudged) (hthere : j.ProfitThere 1) (hmin : 0 < j.guards.minProfitUsd.val) :
    j.UsdPasses := by
  rw [usdPasses_iff hmin]
  cases hv : j.netValue with
  | none => exact absurd (.valueLost hmin hv hthere) h
  | some v =>
    refine ⟨v, rfl, ?_⟩
    obtain ⟨p, hp, hle⟩ := hthere.usd hmin
    obtain ⟨p', hp', -, hvalue⟩ := netValue_eq_some hv
    rw [hp] at hp'
    cases hp'
    have hscale : (0 : ℤ) < 10 ^ j.baseDecimals := by positivity
    have hnet : 0 < j.net := by
      have hprod : 0 < j.net * p.microsPerToken := lt_of_lt_of_le (by positivity) hle
      exact pos_of_mul_pos_left hprod (Int.natCast_nonneg _)
    obtain ⟨hnetle, hclamp⟩ := net_le_exactNet hnet
    rw [rescaled_iff hmin hv hnet.le]
    refine ⟨lt_of_lt_of_le hnet hnetle, ?_⟩
    refine rescaled_of_there hnet hnetle hclamp hmin.le hscale ?_ hle
    rw [hvalue]
    exact Int.lt_ediv_add_one_mul_self _ hscale

theorem right_of_not_misjudged (h : j.InRange) (hj : ¬j.Misjudged) : j.Right := by
  refine ⟨fun hverdict => ?_, fun hthere => ?_⟩
  · obtain ⟨hlamports, hedge, husd⟩ := (verdict_eq_none h).mp hverdict
    have hlow : i64Min ≤ j.edge := by
      by_contra hlow
      have hneg : j.net < 0 := edge_neg h (not_le.mp hlow)
      have hmin : j.guards.minProfitEdge.val ≤ 0 := by
        rcases hedge with ⟨hrange, -⟩ | ⟨-, hle⟩
        · exact absurd hrange.1 hlow
        · exact hle
      refine hj (.edgeBelow (not_le.mp hlow) hmin hlamports ?_)
      by_cases hpos : 0 < j.guards.minProfitUsd.val
      · obtain ⟨v, hv, hresc⟩ := (usdPasses_iff hpos).mp husd
        exact .inr ⟨hpos, hneg, v, hv, hresc⟩
      · exact .inl (not_lt.mp hpos)
    refine ⟨?_, edge_there h hedge hlow, usd_there hj hlamports hedge husd⟩
    rw [add_zero]
    exact hlamports
  · rw [verdict_eq_none h]
    have hlamports := hthere.lamports
    have hedge := (le_edge_iff h _).mpr hthere.edge
    refine ⟨by omega, ?_, ?_⟩
    · by_cases hrange : i64Min ≤ j.edge ∧ j.edge ≤ i64Max
      · exact .inl ⟨hrange, by omega⟩
      · refine .inr ⟨hrange, ?_⟩
        by_contra hmin
        have hhigh : i64Max < j.edge := by
          have hrange' := h.minEdge
          unfold i64Min i64Max at *
          omega
        exact hj (.edgeAbove hhigh (not_le.mp hmin) hthere)
    · by_cases hpos : 0 < j.guards.minProfitUsd.val
      · exact usd_passes hj hthere hpos
      · exact .inl (not_lt.mp hpos)

theorem not_right_of_misjudged (h : j.InRange) (hj : j.Misjudged) : ¬j.Right := by
  rintro ⟨hsound, hcomplete⟩
  have hminEdge := h.minEdge
  cases hj with
  | edgeBelow hedge hmin hlamports husd =>
    have hout : ¬(i64Min ≤ j.edge ∧ j.edge ≤ i64Max) := fun hr => absurd hr.1 (not_le.mpr hedge)
    have husd' : j.UsdPasses := by
      rcases husd with hle | ⟨hpos, -, v, hv, hresc⟩
      · exact .inl hle
      · exact (usdPasses_iff hpos).mpr ⟨v, hv, hresc⟩
    have hthere := hsound ((verdict_eq_none h).mpr ⟨hlamports, .inr ⟨hout, hmin⟩, husd'⟩)
    have hle := (le_edge_iff h _).mpr hthere.edge
    omega
  | lossWraps hlamports hedge husd =>
    obtain ⟨hpos, hneg, v, hv, hresc⟩ := husd
    have hthere := hsound ((verdict_eq_none h).mpr ⟨hlamports, hedge, (usdPasses_iff hpos).mpr ⟨v, hv, hresc⟩⟩)
    obtain ⟨p, -, hle⟩ := hthere.usd hpos
    have hvalue : j.net * p.microsPerToken ≤ 0 := mul_nonpos_of_nonpos_of_nonneg hneg.le (Int.natCast_nonneg _)
    have hprod : 0 < (j.guards.minProfitUsd.val + 0) * 10 ^ j.baseDecimals := by
      rw [add_zero]
      positivity
    exact absurd (le_trans hle hvalue) (not_le.mpr hprod)
  | netClamped hlamports hedge husd hclamped hnet p hp v hv hreaches hless =>
    have hmax : clampI64 j.exactNet = i64Max := by
      unfold clampI64 i64Min i64Max at *
      omega
    have hpos : 0 < j.exactNet := by
      unfold i64Max at hclamped
      omega
    have hresc : j.Rescaled v := by
      rw [rescaled_iff husd hv hnet, hmax]
      exact ⟨hpos, hreaches⟩
    have hthere := hsound ((verdict_eq_none h).mpr ⟨hlamports, hedge, (usdPasses_iff husd).mpr ⟨v, hv, hresc⟩⟩)
    obtain ⟨p', hp', hle⟩ := hthere.usd husd
    rw [hp] at hp'
    cases hp'
    rw [add_zero] at hle
    exact absurd hle (not_le.mpr hless)
  | edgeAbove hedge hmin hthere =>
    obtain ⟨-, hpasses, -⟩ := (verdict_eq_none h).mp (hcomplete hthere)
    rcases hpasses with ⟨hrange, -⟩ | ⟨-, hle⟩
    · exact absurd hrange.2 (not_le.mpr hedge)
    · exact absurd hmin (not_lt.mpr hle)
  | valueLost husd hv hthere =>
    obtain ⟨-, -, hpasses⟩ := (verdict_eq_none h).mp (hcomplete hthere)
    obtain ⟨v, hsome, -⟩ := (usdPasses_iff husd).mp hpasses
    rw [hv] at hsome
    exact nomatch hsome

/-- The guards are right exactly where nothing is misjudged. -/
theorem guards_right_iff (h : j.InRange) : j.Right ↔ ¬j.Misjudged :=
  ⟨fun hr hj => not_right_of_misjudged h hj hr, right_of_not_misjudged h⟩

/-! ### Where the numbers fit -/

/-- The expected net in micro-USD at price `p`, rounded down. -/
def valueAt (j : Judgement) (p : UsdPrice) : ℤ := j.exactNet * p.microsPerToken / 10 ^ j.baseDecimals

/-- The value of the expected net at price `p`, and what it is rescaled from and to, fit their types. -/
structure ValueFits (j : Judgement) (p : UsdPrice) : Prop where
  scale : (10 : ℤ) ^ j.baseDecimals < 2 ^ 127
  product : -2 ^ 127 ≤ j.exactNet * p.microsPerToken ∧ j.exactNet * p.microsPerToken < 2 ^ 127
  value : i64Min ≤ j.valueAt p ∧ j.valueAt p ≤ i64Max
  net : j.exactNet ≤ i64Max
  quotient : i64Min ≤ (j.valueAt p * j.net).tdiv j.exactNet ∧ (j.valueAt p * j.net).tdiv j.exactNet ≤ i64Max

/-- The numbers the guards compare fit their types: the edge, and the value if a minimum of it is asked. -/
structure Fits (j : Judgement) : Prop where
  edge : i64Min ≤ j.edge ∧ j.edge ≤ i64Max
  usd : 0 < j.guards.minProfitUsd.val → ∀ p, j.price = some p → j.ValueFits p

theorem ValueFits.netValue {p : UsdPrice} (h : j.ValueFits p) (hp : j.price = some p) :
    j.netValue = some ⟨j.valueAt p⟩ := by
  have hscale : checkedI128 (10 ^ j.baseDecimals) = some (10 ^ j.baseDecimals) := by
    refine if_pos ⟨?_, h.scale⟩
    have hpos : (0 : ℤ) < 10 ^ j.baseDecimals := by positivity
    omega
  unfold Judgement.netValue UsdPrice.value
  rw [hp, Option.bind_some, hscale, Option.bind_some, checkedI128, if_pos h.product, Option.bind_some, checkedI64]
  exact congrArg (Option.map UsdMicros.mk) (if_pos h.value)

/-- A value has the sign of the net it is of. -/
theorem valueAt_sign (p : UsdPrice) :
    (0 ≤ j.exactNet → 0 ≤ j.valueAt p) ∧ (j.exactNet ≤ 0 → j.valueAt p ≤ 0) := by
  have hscale : (0 : ℤ) < 10 ^ j.baseDecimals := by positivity
  refine ⟨fun hnet => ?_, fun hnet => ?_⟩
  · exact Int.ediv_nonneg (mul_nonneg hnet (Int.natCast_nonneg _)) hscale.le
  · apply Int.ediv_le_of_le_mul hscale
    rw [zero_mul]
    exact mul_nonpos_of_nonpos_of_nonneg hnet (Int.natCast_nonneg _)

/-- Where the numbers fit, a loss is not taken for a profit. -/
theorem ValueFits.rescaled_nonpos {p : UsdPrice} (h : j.ValueFits p) (hr : j.InRange) (hneg : j.net < 0) :
    wrapI64 ((j.valueAt p * j.net).tdiv (clampI64 j.exactNet)) ≤ 0 := by
  obtain ⟨hpos, hnonpos⟩ := @valueAt_sign j p
  have hfits := h.net
  rcases lt_or_ge j.exactNet i64Min with hlow | hlow
  · -- the net is the least `i64`, as is the clamped one: the value is unchanged
    have hclamp : clampI64 j.exactNet = i64Min := by
      unfold clampI64 i64Min i64Max at *
      omega
    have hnet : j.net = i64Min := by
      refine le_antisymm ?_ (net_mem hr).1
      rw [← hclamp]
      exact net_le j
    rw [hclamp, hnet, Int.mul_tdiv_cancel _ (by decide), wrapI64_of_mem h.value.1 h.value.2]
    refine hnonpos ?_
    unfold i64Min at hlow
    omega
  · have hclamp : clampI64 j.exactNet = j.exactNet := by
      unfold clampI64 i64Min i64Max at *
      omega
    rw [hclamp, wrapI64_of_mem h.quotient.1 h.quotient.2]
    rcases le_total 0 j.exactNet with hsign | hsign
    · have hprod : 0 ≤ -(j.valueAt p * j.net) :=
        neg_nonneg.mpr (mul_nonpos_of_nonneg_of_nonpos (hpos hsign) hneg.le)
      have hquot := Int.tdiv_nonneg hprod hsign
      rw [Int.neg_tdiv] at hquot
      exact neg_nonneg.mp hquot
    · exact Int.tdiv_nonpos_of_nonneg_of_nonpos (mul_nonneg_of_nonpos_of_nonpos (hnonpos hsign) hneg.le) hsign

theorem Fits.not_misjudged (h : j.Fits) (hr : j.InRange) : ¬j.Misjudged := by
  intro hj
  have hloss : ¬j.LossWraps := by
    rintro ⟨hmin, hneg, v, hv, hresc⟩
    obtain ⟨p, hp, -⟩ := netValue_eq_some hv
    have hfits := h.usd hmin p hp
    rw [hfits.netValue hp] at hv
    cases hv
    exact absurd (lt_of_lt_of_le hmin hresc) (not_lt.mpr (hfits.rescaled_nonpos hr hneg))
  cases hj with
  | edgeBelow hedge => exact absurd h.edge.1 (not_le.mpr hedge)
  | lossWraps _ _ husd => exact hloss husd
  | netClamped _ _ husd hclamped _ p hp => exact absurd (h.usd husd p hp).net (not_le.mpr hclamped)
  | edgeAbove hedge => exact absurd h.edge.2 (not_le.mpr hedge)
  | valueLost husd hv hthere =>
    obtain ⟨p, hp, -⟩ := hthere.usd husd
    rw [(h.usd husd p hp).netValue hp] at hv
    exact nomatch hv

/-- A trade with a tip, fee and buffer, judged at a price of $150. -/
def ofSwap (input grossOutput tip : ℕ) (simulatedNet : Option ℤ) (guards : ProfitGuards) : Judgement where
  input
  grossOutput
  costs := ⟨.simulated, 1, 1, 5000, 120000, some 100000, 5000, 600, tip, 0, 0, 0, 5000, 0⟩
  baseDecimals := 9
  price := some ⟨150000000⟩
  simulatedNet
  guards

end Judgement

end MobiusSearcher
