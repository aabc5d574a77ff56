/-
# The costs cover what is used

`compute_costs` at any list of simulated compute units. A transaction's limit
lies between what it used and the network's maximum, with the margin on top
unless the maximum caps it (`cuLimitWithMargin_spec`); the priority fee is the
sum over the limits and the total covers what is paid with the buffer, both as
far as a `u64` goes (`computeCosts_covers`). Units above the network's maximum,
which no transaction can use, are outside: the clamp has no range there.

Key definitions: `Covers`.
Key theorems: `cuLimitWithMargin_spec`, `foldl_satAddU64`, `total_eq`,
`computeCosts_covers`.
-/
import MobiusSearcher.Core.Costs

namespace MobiusSearcher

open Machine

/-! ### Ceilings and saturating sums -/

theorem divCeil_le_iff {a b c : ℕ} (hb : 0 < b) : divCeil a b ≤ c ↔ a ≤ c * b := by
  unfold divCeil
  rw [← Nat.lt_succ_iff, Nat.div_lt_iff_lt_mul hb, Nat.succ_mul]
  omega

/-- A part of at most the whole, rounded up, is at most the whole. -/
theorem divCeil_mul_le {a share whole : ℕ} (hw : 0 < whole) (hs : share ≤ whole) : divCeil (a * share) whole ≤ a := by
  rw [divCeil_le_iff hw]
  exact Nat.mul_le_mul_left a hs

theorem satAddU64_min (a b : ℕ) : satAddU64 (min a u64Max) b = min (a + b) u64Max := by
  unfold satAddU64
  omega

/-- Saturating at every step is saturating once, at the end. -/
theorem foldl_satAddU64 : ∀ (xs : List ℕ) (a : ℕ),
    (xs.map fun x => min x u64Max).foldl satAddU64 (min a u64Max) = min (a + xs.sum) u64Max
  | [], a => by simp
  | x :: xs, a => by
    have hstep : satAddU64 (min a u64Max) (min x u64Max) = min (a + x) u64Max := by
      unfold satAddU64
      omega
    rw [List.map_cons, List.foldl_cons, hstep, foldl_satAddU64 xs (a + x), List.sum_cons, Nat.add_assoc]

/-- The total is the sum of its parts, as far as a `u64` goes. -/
theorem CostBreakdown.total_eq (c : CostBreakdown) :
    c.total = min (c.baseFee + c.priorityFee + c.jitoTip + c.expectedSlippage + c.safetyBuffer + c.platformFee)
      u64Max := by
  unfold CostBreakdown.total
  have hfirst : satAddU64 c.baseFee c.priorityFee = min (c.baseFee + c.priorityFee) u64Max := rfl
  rw [hfirst, satAddU64_min, satAddU64_min, satAddU64_min, satAddU64_min]

/-! ### Limits -/

/-- What the margin asks for. -/
def withMargin (used : ℕ) (margin : Ppm) : ℕ := divCeil (used * (ppmOne + margin.val.toNat)) ppmOne

/-- A limit that covers the units used. -/
structure Covers (margin : Ppm) (used limit : ℕ) : Prop where
  used_le : used ≤ limit
  le_max : limit ≤ maxComputeUnitsPerTx
  margin_le : limit = maxComputeUnitsPerTx ∨ withMargin used margin ≤ limit

theorem cuLimitWithMargin_spec {used : ℕ} {margin : Ppm} (h : used ≤ maxComputeUnitsPerTx) :
    ∃ limit, cuLimitWithMargin used margin = some limit ∧ Covers margin used limit := by
  refine ⟨max used (min (withMargin used margin) maxComputeUnitsPerTx), ?_, ?_⟩
  · unfold cuLimitWithMargin withMargin
    rw [if_neg (Nat.not_lt.mpr h)]
  · refine ⟨le_max_left _ _, ?_, ?_⟩
    · exact max_le h (min_le_right _ _)
    · omega

theorem mapM_cuLimitWithMargin {margin : Ppm} : ∀ {used : List ℕ}, (∀ u ∈ used, u ≤ maxComputeUnitsPerTx) →
    ∃ limits, (used.mapM fun u => cuLimitWithMargin u margin) = some limits ∧
      List.Forall₂ (Covers margin) used limits
  | [], _ => ⟨[], rfl, .nil⟩
  | u :: us, h => by
    obtain ⟨l, hl, hcover⟩ := @cuLimitWithMargin_spec _ margin (h u (List.mem_cons_self ..))
    obtain ⟨ls, hls, hcovers⟩ := @mapM_cuLimitWithMargin margin _ fun v hv => h v (List.mem_cons_of_mem u hv)
    refine ⟨l :: ls, ?_, .cons hcover hcovers⟩
    rw [List.mapM_cons, hl]
    show (us.mapM fun u => cuLimitWithMargin u margin).bind (fun bs => some (l :: bs)) = some (l :: ls)
    rw [hls]
    rfl

theorem cuLimitWithMargin_eq_none {used : ℕ} {margin : Ppm} :
    cuLimitWithMargin used margin = none ↔ maxComputeUnitsPerTx < used := by
  unfold cuLimitWithMargin
  by_cases h : maxComputeUnitsPerTx < used
  · exact ⟨fun _ => h, fun _ => if_pos h⟩
  · refine ⟨fun hnone => ?_, fun hlt => absurd hlt h⟩
    rw [if_neg h] at hnone
    exact nomatch hnone

/-- With units simulated the limits cover them; all limits are in the network's range. -/
theorem cuLimits_spec {inp : CostInputs} {p : CostParams} {used : List ℕ} (hused : inp.cuUsed = some used)
    (hmax : ∀ u ∈ used, u ≤ maxComputeUnitsPerTx) :
    ∃ limits units source, cuLimits inp p = some (limits, units, source) ∧
      (used ≠ [] → List.Forall₂ (Covers p.cuMargin) used limits) ∧ ∀ l ∈ limits, l ≤ maxComputeUnitsPerTx := by
  unfold cuLimits
  rw [hused]
  by_cases hnil : used = []
  · refine ⟨_, _, _, if_pos hnil, fun h => absurd hnil h, ?_⟩
    intro l hl
    rw [List.eq_of_mem_replicate hl]
    exact min_le_right _ _
  · obtain ⟨limits, hlimits, hcovers⟩ := @mapM_cuLimitWithMargin p.cuMargin _ hmax
    refine ⟨limits, some (used.foldl satAddU32 0), .simulated, ?_, fun _ => hcovers, ?_⟩
    · show (if used = [] then _ else (used.mapM fun u => cuLimitWithMargin u p.cuMargin).map _) = _
      rw [if_neg hnil, hlimits]
      rfl
    · intro l hl
      have hflip : List.Forall₂ (fun l u => l ≤ maxComputeUnitsPerTx ∧ Covers p.cuMargin u l) limits used :=
        (hcovers.imp fun u l hc => ⟨hc.le_max, hc⟩).flip
      exact ((List.forall₂_and_left limits used).mp hflip).1 l hl

/-- A list mapped in order gives nothing where one element gives nothing. -/
theorem mapM_eq_none {α β : Type} {f : α → Option β} {a : α} : ∀ {as : List α}, a ∈ as → f a = none → as.mapM f = none
  | b :: bs, hmem, ha => by
    rw [List.mapM_cons]
    cases hb : f b with
    | none => rfl
    | some c =>
      have hrest : a ∈ bs := by
        rcases List.mem_cons.mp hmem with rfl | h
        · rw [ha] at hb
          exact nomatch hb
        · exact h
      show (bs.mapM f).bind (fun cs => some (c :: cs)) = none
      rw [mapM_eq_none hrest ha]
      rfl

/-- There are limits unless a transaction used more than the network's maximum. -/
theorem cuLimits_ne_none {inp : CostInputs} {p : CostParams} :
    cuLimits inp p ≠ none ↔ ∀ used, inp.cuUsed = some used → ∀ u ∈ used, u ≤ maxComputeUnitsPerTx := by
  cases hused : inp.cuUsed with
  | none =>
    refine ⟨fun _ => nofun, fun _ h => ?_⟩
    unfold cuLimits at h
    rw [hused] at h
    exact nomatch h
  | some used =>
    constructor
    · intro hne used' hused' u hu
      cases hused'
      by_contra hlt
      apply hne
      have hnil : used ≠ [] := List.ne_nil_of_mem hu
      unfold cuLimits
      rw [hused]
      show (if used = [] then _ else (used.mapM fun u => cuLimitWithMargin u p.cuMargin).map _) = _
      rw [if_neg hnil, Option.map_eq_none_iff]
      exact mapM_eq_none hu (cuLimitWithMargin_eq_none.mpr (Nat.lt_of_not_le hlt))
    · intro hmax hnone
      obtain ⟨limits, units, source, hlimits, -, -⟩ := cuLimits_spec (p := p) hused (hmax used rfl)
      rw [hlimits] at hnone
      exact nomatch hnone

/-! ### The breakdown -/

/-- Only the units used can leave no breakdown. -/
theorem computeCosts_eq_none {inp : CostInputs} {p : CostParams} : computeCosts inp p = none ↔ cuLimits inp p = none :=
  Option.map_eq_none_iff

theorem computeCosts_jitoTip {inp : CostInputs} {p : CostParams} {c : CostBreakdown}
    (h : computeCosts inp p = some c) : c.jitoTip = inp.jitoTip := by
  obtain ⟨⟨limits, units, source⟩, -, rfl⟩ := Option.map_eq_some_iff.mp h
  rfl

/-- The signatures of all transactions: at least one transaction, at least one each. -/
def TxShape.signatures (shape : TxShape) : ℕ := max 1 shape.txCount * max 1 shape.signaturesPerTx

/-- What the network and the validators are paid when the transactions land: the base
fees, the priority fee of each limit and the tip. -/
def feesPaid (signatures price tip : ℕ) (limits : List ℕ) : ℕ :=
  baseFeeLamportsPerSignature * signatures +
    (limits.map fun l => divCeil (l * price) microLamportsPerLamport).sum + tip

/-- The buffer: a constant and a part of the input. -/
def bufferOf (input : ℕ) (p : CostParams) : ℕ :=
  p.safetyBufferLamports + divCeil (input * p.safetyBuffer.val.toNat) ppmOne

theorem safetyBuffer_eq {input : ℕ} {p : CostParams}
    (h : divCeil (input * p.safetyBuffer.val.toNat) ppmOne < 2 ^ 64) :
    safetyBuffer input p = min (bufferOf input p) u64Max := by
  unfold safetyBuffer bufferOf satAddU64
  rw [wrapU64_of_lt h]

theorem priorityFee_eq (limits : List ℕ) (price : ℕ) :
    (limits.map fun l => priorityFeeLamports l price).foldl satAddU64 0 =
      min (limits.map fun l => divCeil (l * price) microLamportsPerLamport).sum u64Max := by
  have h := foldl_satAddU64 (limits.map fun l => divCeil (l * price) microLamportsPerLamport) 0
  rw [List.map_map, Nat.zero_min, Nat.zero_add] at h
  exact h

/-- The share of the last leg's tolerance counted as lost, rounded up. -/
def shareOfTolerance (legs : List Leg) (share : Ppm) : ℕ :=
  (legs.getLast?.map fun last =>
    divCeil ((last.outAmount - last.minOut) * (min share.val.toNat ppmOne)) ppmOne).getD 0

theorem expectedSlippage_eq {legs : List Leg} {share : Ppm} (hout : ∀ leg ∈ legs, leg.outAmount < 2 ^ 64) :
    expectedSlippage legs share = shareOfTolerance legs share := by
  unfold expectedSlippage shareOfTolerance
  cases hlast : legs.getLast? with
  | none => rfl
  | some last =>
    have hmem : last ∈ legs := List.mem_of_getLast? hlast
    have hlt : last.outAmount < 2 ^ 64 := hout last hmem
    have hle := @divCeil_mul_le (last.outAmount - last.minOut) (min share.val.toNat ppmOne) ppmOne (by decide)
      (min_le_right _ _)
    rw [Option.map_some, Option.getD_some]
    refine wrapU64_of_lt (lt_of_le_of_lt hle ?_)
    exact lt_of_le_of_lt (Nat.sub_le _ _) hlt

/-- Parts that saturate, and what more is added, leave a saturating sum no smaller. -/
theorem min_sum_le (base prio tip slippage buffer platform m : ℕ) :
    min (base + prio + tip + buffer) m ≤ min (base + min prio m + tip + slippage + min buffer m + platform) m := by
  omega

/-- **The costs cover what is used.** For units the network can report, at any price,
tip, legs and parameters whose deposit and proportional buffer a `u64` holds: there is a
breakdown, its limits cover the units used and stay in the network's range, the base fee
is that of the signatures, as far as a `u8` counts them, the priority fee is the sum over
the limits and the total is at least the fees paid and the buffer, each as far as a `u64`
goes. -/
theorem computeCosts_covers {inp : CostInputs} {p : CostParams} {used : List ℕ} (hused : inp.cuUsed = some used)
    (hlegs : ∀ leg ∈ inp.legs, leg.outAmount < 2 ^ 64) (hmax : ∀ u ∈ used, u ≤ maxComputeUnitsPerTx)
    (hrent : p.tokenAccountRent * inp.atasToCreate < 2 ^ 64)
    (hbuffer : divCeil (inp.input * p.safetyBuffer.val.toNat) ppmOne < 2 ^ 64) :
    ∃ c limits units source, computeCosts inp p = some c ∧ cuLimits inp p = some (limits, units, source) ∧
      (used ≠ [] → List.Forall₂ (Covers p.cuMargin) used limits) ∧
      (∀ l ∈ limits, l ≤ maxComputeUnitsPerTx) ∧
      c.txCount = max 1 inp.shape.txCount ∧ c.signatures = min inp.shape.signatures 255 ∧
      c.baseFee = baseFeeLamportsPerSignature * min inp.shape.signatures 255 ∧
      c.computeUnitPriceMicro = min inp.cuPriceMicro p.maxCuPriceMicro ∧
      c.priorityFee =
        min (limits.map fun l => divCeil (l * c.computeUnitPriceMicro) microLamportsPerLamport).sum u64Max ∧
      c.ataRent = p.tokenAccountRent * inp.atasToCreate ∧
      c.expectedSlippage = shareOfTolerance inp.legs p.expectedSlippageShare ∧
      min (feesPaid (min inp.shape.signatures 255) (min inp.cuPriceMicro p.maxCuPriceMicro) inp.jitoTip limits +
        bufferOf inp.input p) u64Max ≤ c.total := by
  obtain ⟨limits, units, source, hlimits, hcovers, hrange⟩ := cuLimits_spec (p := p) hused hmax
  have hcosts : ∃ c, computeCosts inp p = some c ∧ c.txCount = max inp.shape.txCount 1 ∧
      c.signatures = min (max inp.shape.txCount 1 * max inp.shape.signaturesPerTx 1) 255 ∧
      c.baseFee = baseFeeLamportsPerSignature * c.signatures ∧
      c.computeUnitPriceMicro = min inp.cuPriceMicro p.maxCuPriceMicro ∧
      c.priorityFee = (limits.map fun l => priorityFeeLamports l c.computeUnitPriceMicro).foldl satAddU64 0 ∧
      c.jitoTip = inp.jitoTip ∧ c.ataRent = wrapU64 (p.tokenAccountRent * inp.atasToCreate) ∧
      c.expectedSlippage = expectedSlippage inp.legs p.expectedSlippageShare ∧
      c.safetyBuffer = safetyBuffer inp.input p := by
    unfold computeCosts
    rw [hlimits]
    exact ⟨_, rfl, rfl, rfl, rfl, rfl, rfl, rfl, rfl, rfl, rfl⟩
  obtain ⟨c, hc, htx, hsig, hbase, hprice, hprio, htip, hata, hslip, hbuf⟩ := hcosts
  rw [priorityFee_eq] at hprio
  rw [wrapU64_of_lt hrent] at hata
  rw [expectedSlippage_eq hlegs] at hslip
  rw [safetyBuffer_eq hbuffer] at hbuf
  have hsignatures : c.signatures = min inp.shape.signatures 255 := by
    rw [hsig, TxShape.signatures, max_comm 1, max_comm 1]
  rw [hsignatures] at hbase
  refine ⟨c, limits, units, source, hc, hlimits, hcovers, hrange, htx.trans (max_comm _ _), hsignatures, hbase, hprice,
    hprio, hata, hslip, ?_⟩
  rw [CostBreakdown.total_eq, hbase, hprio, htip, hbuf, hprice]
  exact min_sum_le _ _ _ _ _ _ _

/-- A swap whose two transactions used 100,000 and 1,400,000 units. -/
theorem computeCosts_covers_swap :
    ∃ c limits units source,
      computeCosts ⟨[], 1000000000, ⟨2, 1⟩, some [100000, 1400000], 5000, 10000, 2, 0⟩ .default = some c ∧
      cuLimits ⟨[], 1000000000, ⟨2, 1⟩, some [100000, 1400000], 5000, 10000, 2, 0⟩ .default =
        some (limits, units, source) ∧
      ([100000, 1400000] ≠ [] → List.Forall₂ (Covers ⟨200000⟩) [100000, 1400000] limits) ∧
      (∀ l ∈ limits, l ≤ maxComputeUnitsPerTx) ∧
      c.txCount = 2 ∧ c.signatures = 2 ∧ c.baseFee = 10000 ∧
      c.computeUnitPriceMicro = min 5000 200000 ∧
      c.priorityFee =
        min (limits.map fun l => divCeil (l * c.computeUnitPriceMicro) microLamportsPerLamport).sum u64Max ∧
      c.ataRent = tokenAccountRentLamports * 2 ∧
      c.expectedSlippage = shareOfTolerance [] ⟨250000⟩ ∧
      min (feesPaid 2 5000 10000 limits + bufferOf 1000000000 .default) u64Max ≤ c.total :=
  computeCosts_covers rfl (by decide) (by decide) (by decide) (by decide)

/-- Units above the network's maximum leave the clamp without a range, and a deposit or a
proportional buffer that no `u64` holds wraps. More signatures than a `u8` counts are
counted as 255. At the largest prices the sums are above the largest `u64`, at which the
fee and the total stay. -/
theorem computeCosts_not_total :
    computeCosts ⟨[], 0, ⟨1, 1⟩, some [1400001], 0, 0, 0, 0⟩ .default = none ∧
    (computeCosts ⟨[], 0, ⟨1, 1⟩, some [1400000], 0, 0, 2, 0⟩
      { CostParams.default with tokenAccountRent := 2 ^ 63 }).map CostBreakdown.ataRent = some 0 ∧
    (computeCosts ⟨[], 2 ^ 63, ⟨1, 1⟩, some [1400000], 0, 0, 0, 0⟩
      { CostParams.default with safetyBuffer := ⟨2000000⟩ }).map CostBreakdown.total = some 10000 ∧
    (computeCosts ⟨[], 0, ⟨128, 2⟩, some [0], 0, 0, 0, 0⟩ .default).map CostBreakdown.total =
      some (baseFeeLamportsPerSignature * 255 + 5000) ∧
    ∃ c, computeCosts ⟨[], 0, ⟨1, 1⟩, some [1400000], u64Max, 0, 0, 0⟩
        { CostParams.default with maxCuPriceMicro := u64Max } = some c ∧
      cuLimits ⟨[], 0, ⟨1, 1⟩, some [1400000], u64Max, 0, 0, 0⟩
        { CostParams.default with maxCuPriceMicro := u64Max } = some ([1400000], some 1400000, .simulated) ∧
      c.priorityFee < divCeil (1400000 * u64Max) microLamportsPerLamport ∧
      c.total < c.baseFee + c.priorityFee + c.jitoTip + c.safetyBuffer := by
  refine ⟨rfl, by decide +kernel, by decide +kernel, by decide +kernel, ?_⟩
  refine ⟨⟨.simulated, 1, 1, 5000, 1400000, some 1400000, u64Max, u64Max, 0, 0, 0, 0, 5000, 0⟩, ?_, ?_, ?_, ?_⟩
  · decide +kernel
  · decide +kernel
  · decide +kernel
  · decide +kernel

end MobiusSearcher
