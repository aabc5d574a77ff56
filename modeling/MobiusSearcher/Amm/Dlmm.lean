/-
# Bins of liquidity

The swap of `crates/market/src/amm/dlmm.rs`: liquidity sits in bins, each at
one fixed price. A swap empties bins one after another, starting at the active
bin, and pays a fee that grows with how many bins recent swaps have moved
through.

Key definitions: `Bin`, `Dlmm`, `Dlmm.feeRate`, `Dlmm.references`,
`Dlmm.take`, `Dlmm.turn`, `Dlmm.swap`.
Key theorems: `Dlmm.take_eq_ok`, `Dlmm.turn_eq_ok`.
-/
import MobiusSearcher.Amm.Wide
import MobiusSearcher.Lib.Keyed
import MobiusSearcher.Lib.Loop

namespace MobiusSearcher
namespace Amm

/-- Fee rates are in billionths. -/
def feePrecision : ℕ := 1000000000

/-- The program's cap on the total fee: 10 %. -/
def maxFeeRate : ℕ := 100000000

structure Bin where
  amountX : ℕ
  amountY : ℕ
  /-- Y per X in raw units, Q64.64. -/
  price : ℕ
  amountX_lt : amountX < 2 ^ 64
  amountY_lt : amountY < 2 ^ 64
  price_lt : price < 2 ^ 128
  deriving Repr

instance : DecidableEq Bin := fun a b =>
  decidable_of_iff (a.amountX = b.amountX ∧ a.amountY = b.amountY ∧ a.price = b.price) <| by
    cases a
    cases b
    simp

/-- A pool at one moment. Token X is the pool's first mint. -/
structure Dlmm where
  activeId : ℤ
  /-- Price step between bins, in basis points. -/
  binStep : ℕ
  baseFactor : ℕ
  baseFeePower : ℕ
  variableFeeControl : ℕ
  maxVolatilityAccumulator : ℕ
  protocolShare : ℕ
  /-- Seconds: a swap sooner than this after the last one keeps the references. -/
  filterPeriod : ℕ
  /-- Seconds after which the volatility reference is forgotten. -/
  decayPeriod : ℕ
  /-- Share of the accumulator kept as the reference, in ten-thousandths. -/
  reductionFactor : ℕ
  volatilityAccumulator : ℕ
  volatilityReference : ℕ
  indexReference : ℤ
  /-- Unix time of the last swap. -/
  lastUpdate : ℤ
  /-- Bins of the bin arrays at hand, by id; what lies beyond is not known. -/
  bins : Keyed.Map ℤ Bin

namespace Dlmm

structure Swap where
  amountOut : ℕ
  /-- Fee paid, in the input token. -/
  fee : ℕ
  /-- The active bin afterwards. -/
  activeId : ℤ
  deriving DecidableEq, Repr

/-- The fee rate (billionths) while the active bin is `id`, given the
volatility reference in force. -/
def feeRate (p : Dlmm) (id indexReference : ℤ) (volatilityReference : ℕ) : Checked ℕ := do
  let moved ← Checked.mul 128 (indexReference - id).natAbs 10000
  let sum ← Checked.add 128 volatilityReference moved
  let accumulator := min sum p.maxVolatilityAccumulator
  let base ← Checked.mul 128 p.baseFactor p.binStep
  let base ← Checked.mul 128 base 10
  let power ← Checked.pow 128 10 p.baseFeePower
  let base ← Checked.mul 128 base power
  let variableFee ← (if p.variableFeeControl = 0 then pure 0 else do
    let v ← Checked.mul 128 accumulator p.binStep
    let v ← Checked.pow 128 v 2
    let v ← Checked.mul 128 v p.variableFeeControl
    pure (v ⌈/⌉ 100000000000))
  let rate ← Checked.add 128 base variableFee
  pure (min rate maxFeeRate)

/-- The bin and volatility a swap at unix time `now` counts from: a swap
after a quiet spell starts from where the price is now. -/
def references (p : Dlmm) (now : ℤ) : Checked (ℤ × ℕ) := do
  let elapsed ← Checked.int 64 (now - p.lastUpdate)
  if elapsed < p.filterPeriod then pure (p.indexReference, p.volatilityReference)
  else do
    let kept ← (if elapsed < p.decayPeriod then do
      let k ← Checked.mul 64 p.volatilityAccumulator p.reductionFactor
      pure (k / 10000 % 2 ^ 32)
    else pure 0)
    pure (p.activeId, kept)

/-- What a bin holds of the token that is bought. -/
def available (xToY : Bool) (b : Bin) : ℕ := if xToY then b.amountY else b.amountX

/-- The input that empties the bin. -/
def emptyingInput (xToY : Bool) (b : Bin) : Checked ℕ :=
  if xToY then do
    let p ← (U256.ofLow (available xToY b)).checkedShl 64
    let (q, rem) ← p.divRem b.price
    let q ← q.low
    Checked.checkedAdd 128 q (if rem ≠ 0 then 1 else 0)
  else do
    let p ← U256.mul (available xToY b) b.price
    Checked.checkedAdd 128 (Checked.shl 128 p.hi 64 ||| p.lo / 2 ^ 64) (if p.lo % 2 ^ 64 ≠ 0 then 1 else 0)

/-- What an input trades for at the bin's price. -/
def atPrice (xToY : Bool) (b : Bin) (trades : ℕ) : Checked ℕ :=
  if xToY then do
    let p ← U256.mul trades b.price
    pure (Checked.shl 128 p.hi 64 ||| p.lo / 2 ^ 64)
  else do
    let p ← (U256.ofLow trades).checkedShl 64
    let (q, _) ← p.divRem b.price
    q.low

/-- A bin as a swap met it: what went in and came out. -/
structure Visit where
  id : ℤ
  bin : Bin
  input : ℕ
  fee : ℕ
  got : ℕ
  deriving DecidableEq, Repr

/-- The loop's variables, and what was taken so far, the last bin first; the
code keeps no such list, and nothing here reads it. -/
structure Walk where
  id : ℤ
  left : ℕ
  out : ℕ
  fees : ℕ
  visits : List Visit
  deriving DecidableEq, Repr

/-- A bin that holds something. -/
def take (xToY : Bool) (bin : Bin) (rate : ℕ) (w : Walk) : Checked Walk := do
  -- the input that empties the bin, and the fee on top of it
  let empties ← emptyingInput xToY bin
  let share ← Checked.sub feePrecision rate
  let onTop ← mulDivUp empties rate share
  let withFee ← Checked.add 128 empties onTop
  if withFee ≤ w.left then do
    let left ← Checked.sub w.left withFee
    let out ← Checked.add 128 w.out (available xToY bin)
    let fees ← Checked.add 128 w.fees withFee
    let fees ← Checked.sub fees empties
    pure { w with left, out, fees, visits := ⟨w.id, bin, empties, onTop, available xToY bin⟩ :: w.visits }
  else do
    -- the fee comes out of what is left; the rest trades at the bin's price
    let fee ← mulDivUp w.left rate feePrecision
    let trades ← Checked.sub w.left fee
    let got ← atPrice xToY bin trades
    let out ← Checked.add 128 w.out (min got (available xToY bin))
    let fees ← Checked.add 128 w.fees fee
    pure { w with left := 0, out, fees, visits := ⟨w.id, bin, trades, fee, min got (available xToY bin)⟩ :: w.visits }

/-- A turn of the loop: a bin, and the next one if something is left. -/
def turn (p : Dlmm) (xToY : Bool) (refs : ℤ × ℕ) (w : Walk) : Checked (Walk × Bool) := do
  let bin ← Checked.ofOption (p.bins.lookup w.id)
  let rate ← p.feeRate w.id refs.1 refs.2
  let w ← (if 0 < available xToY bin then take xToY bin rate w else pure w)
  if 0 < w.left then do
    let id ← Checked.int 32 (if xToY then w.id - 1 else w.id + 1)
    pure ({ w with id }, false)
  else pure (w, false)

/-! ### What a bin gives -/

/-- The input that empties it, exactly. -/
def emptying (xToY : Bool) (b : Bin) : ℕ :=
  if xToY then available xToY b * 2 ^ 64 ⌈/⌉ b.price else available xToY b * b.price ⌈/⌉ 2 ^ 64

/-- What an input is worth at its price. -/
def worth (xToY : Bool) (b : Bin) (trades : ℕ) : ℕ :=
  if xToY then trades * b.price / 2 ^ 64 else trades * 2 ^ 64 / b.price

theorem worth_mono (xToY : Bool) (b : Bin) {t u : ℕ} (h : t ≤ u) : worth xToY b t ≤ worth xToY b u := by
  unfold worth
  cases xToY
  · exact Nat.div_le_div_right (Nat.mul_le_mul_right _ h)
  · exact Nat.div_le_div_right (Nat.mul_le_mul_right _ h)

theorem available_lt (xToY : Bool) (b : Bin) : available xToY b < 2 ^ 64 := by
  unfold available
  cases xToY
  · exact b.amountX_lt
  · exact b.amountY_lt

/-- An amount by a price: the high 128 bits of 192. -/
theorem high_part {n : ℕ} (h : n < 2 ^ 192) : Checked.shl 128 (n / 2 ^ 128) 64 ||| n % 2 ^ 128 / 2 ^ 64 = n / 2 ^ 64 := by
  have hhi : Checked.shl 128 (n / 2 ^ 128) 64 = n / 2 ^ 128 * 2 ^ 64 := by
    unfold Checked.shl
    omega
  rw [hhi, Nat.or_comm, or_shifted (by omega)]
  omega

theorem amount_price_lt {a q : ℕ} (ha : a < 2 ^ 64) (hq : q < 2 ^ 128) : a * q < 2 ^ 192 := by
  have h := Nat.mul_lt_mul'' ha hq
  norm_num at h ⊢
  exact h

theorem emptyingInput_eq (xToY : Bool) (b : Bin) : emptyingInput xToY b =
    if xToY = true ∧ b.price = 0 then Checked.none else Checked.fit 128 (emptying xToY b) := by
  have ha := available_lt xToY b
  have hq := b.price_lt
  unfold emptyingInput emptying
  cases xToY
  · have hprod := amount_price_lt ha hq
    rw [if_neg (by decide), if_neg (by simp), if_neg (by decide), U256.mul_eq (by omega) hq, Checked.ok_bind]
    unfold U256.ofNat
    simp only
    rw [high_part hprod, ceilDiv_eq (by norm_num)]
    have hmod : available false b * b.price % 2 ^ 128 % 2 ^ 64 = available false b * b.price % 2 ^ 64 := by omega
    rw [hmod]
    rfl
  · rw [if_pos rfl, if_pos rfl, U256.ofLow_eq (by omega), U256.checkedShl_eq (U256.fits_ofNat (by omega)),
      U256.val_ofNat, if_pos (by omega), Checked.ok_bind, U256.divRem_eq (U256.fits_ofNat (by omega)) hq,
      U256.val_ofNat]
    by_cases h0 : b.price = 0
    · rw [if_pos h0, if_pos ⟨rfl, h0⟩]
      rfl
    · rw [if_neg h0, if_neg (by simp [h0]), Checked.ok_bind, ceilDiv_eq (Nat.pos_of_ne_zero h0)]
      simp only
      rw [U256.low_ofNat]
      generalize available true b * 2 ^ 64 = n
      unfold Checked.fit Checked.checkedAdd
      by_cases hfit : n / b.price < 2 ^ 128
      · rw [if_pos hfit, Checked.ok_bind]
      · have hup : ¬n / b.price + (if n % b.price ≠ 0 then 1 else 0) < 2 ^ 128 := by omega
        rw [if_neg hfit, if_neg hup]
        rfl

theorem atPrice_eq (xToY : Bool) (b : Bin) {t : ℕ} (ht : t < 2 ^ 64) : atPrice xToY b t =
    if xToY = false ∧ b.price = 0 then Checked.none else Checked.fit 128 (worth xToY b t) := by
  have hq := b.price_lt
  unfold atPrice
  cases xToY
  · have hworth : worth false b t = t * 2 ^ 64 / b.price := rfl
    rw [hworth, if_neg (by decide), U256.ofLow_eq (by omega), U256.checkedShl_eq (U256.fits_ofNat (by omega)),
      U256.val_ofNat, if_pos (by omega), Checked.ok_bind, U256.divRem_eq (U256.fits_ofNat (by omega)) hq,
      U256.val_ofNat]
    by_cases h0 : b.price = 0
    · rw [if_pos h0, if_pos ⟨rfl, h0⟩]
      rfl
    · rw [if_neg h0, if_neg (by simp [h0]), Checked.ok_bind]
      exact U256.low_ofNat _
  · have hworth : worth true b t = t * b.price / 2 ^ 64 := rfl
    have hprod := amount_price_lt ht hq
    have hfit : t * b.price / 2 ^ 64 < 2 ^ 128 := by omega
    rw [hworth, if_pos rfl, if_neg (by simp), U256.mul_eq (by omega) hq, Checked.ok_bind, Checked.fit, if_pos hfit]
    unfold U256.ofNat
    simp only
    rw [high_part hprod]
    rfl

/-! ### A turn -/

/-- How a bin is taken from: whole, or as far as the input goes. -/
inductive Takes (xToY : Bool) (b : Bin) (rate left onTop : ℕ) (v : Visit) (rest : ℕ) : Prop
  | whole (covers : emptying xToY b + onTop ≤ left) (input : v.input = emptying xToY b) (fee : v.fee = onTop)
      (got : v.got = available xToY b)
  | part (lacks : left < emptying xToY b + onTop) (rest : rest = 0) (fee : v.fee = left * rate ⌈/⌉ feePrecision)
      (got : v.got = min (worth xToY b (left - v.fee)) (available xToY b))

theorem take_eq_ok {xToY : Bool} {b : Bin} {rate : ℕ} {w w' : Walk} (hleft : w.left < 2 ^ 64)
    (h : take xToY b rate w = .ok w') :
    ∃ v : Visit, v.id = w.id ∧ v.bin = b ∧ w'.id = w.id ∧ v.input + v.fee + w'.left = w.left ∧
      w'.out = w.out + v.got ∧ w'.fees = w.fees + v.fee ∧ w'.visits = v :: w.visits ∧
      ∃ onTop, mulDivUp (emptying xToY b) rate (feePrecision - rate) = .ok onTop ∧
        Takes xToY b rate w.left onTop v w'.left := by
  unfold take at h
  obtain ⟨empties, hempties, h⟩ := Checked.bind_eq_ok.mp h
  obtain ⟨share, hshare, h⟩ := Checked.bind_eq_ok.mp h
  obtain ⟨onTop, honTop, h⟩ := Checked.bind_eq_ok.mp h
  obtain ⟨withFee, hwith, h⟩ := Checked.bind_eq_ok.mp h
  obtain ⟨hrate, rfl⟩ := Checked.sub_eq_ok.mp hshare
  obtain ⟨-, rfl⟩ := Checked.add_eq_ok.mp hwith
  have hexact : empties = emptying xToY b := by
    rw [emptyingInput_eq] at hempties
    by_cases hc : xToY = true ∧ b.price = 0
    · rw [if_pos hc] at hempties
      exact absurd hempties Checked.none_ne_ok
    · rw [if_neg hc] at hempties
      exact (Checked.fit_eq_ok.mp hempties).2
  subst hexact
  by_cases hcovers : emptying xToY b + onTop ≤ w.left
  · rw [if_pos hcovers] at h
    obtain ⟨left, hl, h⟩ := Checked.bind_eq_ok.mp h
    obtain ⟨out, ho, h⟩ := Checked.bind_eq_ok.mp h
    obtain ⟨fees, hf, h⟩ := Checked.bind_eq_ok.mp h
    obtain ⟨fees', hf', h⟩ := Checked.bind_eq_ok.mp h
    obtain rfl := Except.ok.inj h
    obtain ⟨-, rfl⟩ := Checked.sub_eq_ok.mp hl
    obtain ⟨-, rfl⟩ := Checked.add_eq_ok.mp ho
    obtain ⟨-, rfl⟩ := Checked.add_eq_ok.mp hf
    obtain ⟨-, rfl⟩ := Checked.sub_eq_ok.mp hf'
    refine ⟨_, rfl, rfl, rfl, ?_, rfl, ?_, rfl, onTop, honTop, .whole hcovers rfl rfl rfl⟩
    · exact Nat.add_sub_cancel' hcovers
    · show w.fees + (emptying xToY b + onTop) - emptying xToY b = w.fees + onTop
      omega
  · rw [if_neg hcovers] at h
    obtain ⟨fee, hfee, h⟩ := Checked.bind_eq_ok.mp h
    obtain ⟨trades, htrades, h⟩ := Checked.bind_eq_ok.mp h
    obtain ⟨got, hgot, h⟩ := Checked.bind_eq_ok.mp h
    obtain ⟨out, ho, h⟩ := Checked.bind_eq_ok.mp h
    obtain ⟨fees, hf, h⟩ := Checked.bind_eq_ok.mp h
    obtain rfl := Except.ok.inj h
    obtain ⟨hle, rfl⟩ := Checked.sub_eq_ok.mp htrades
    obtain ⟨-, rfl⟩ := Checked.add_eq_ok.mp ho
    obtain ⟨-, rfl⟩ := Checked.add_eq_ok.mp hf
    have hprecision : feePrecision < 2 ^ 128 := by norm_num [feePrecision]
    have hpos : feePrecision ≠ 0 := by norm_num [feePrecision]
    rw [mulDivUp_eq (by omega) (by omega) hprecision, if_neg hpos] at hfee
    obtain ⟨-, rfl⟩ := Checked.fit_eq_ok.mp hfee
    generalize hshare : w.left * rate ⌈/⌉ feePrecision = fee at hle hgot ⊢
    have hworth : got = worth xToY b (w.left - fee) := by
      rw [atPrice_eq _ _ (by omega)] at hgot
      by_cases hc : xToY = false ∧ b.price = 0
      · rw [if_pos hc] at hgot
        exact absurd hgot Checked.none_ne_ok
      · rw [if_neg hc] at hgot
        exact (Checked.fit_eq_ok.mp hgot).2
    subst hworth
    refine ⟨_, rfl, rfl, rfl, ?_, rfl, rfl, rfl, onTop, honTop, .part (not_le.mp hcovers) rfl hshare.symm rfl⟩
    show w.left - fee + fee + 0 = w.left
    omega

theorem Takes.got_le {xToY : Bool} {b : Bin} {rate left onTop rest : ℕ} {v : Visit}
    (h : Takes xToY b rate left onTop v rest) : v.got ≤ available xToY b := by
  cases h with
  | whole _ _ _ got => exact got.le
  | part _ _ _ got =>
    rw [got]
    exact min_le_right ..

/-- The next bin, if something is left. -/
theorem turn_eq_ok {p : Dlmm} {xToY broke : Bool} {refs : ℤ × ℕ} {w w' : Walk}
    (h : p.turn xToY refs w = .ok (w', broke)) :
    broke = false ∧ ∃ b rate v, p.bins.lookup w.id = some b ∧ p.feeRate w.id refs.1 refs.2 = .ok rate ∧
      (if 0 < available xToY b then take xToY b rate w else .ok w) = .ok v ∧
      w' = { v with id := if 0 < v.left then (if xToY then v.id - 1 else v.id + 1) else v.id } := by
  unfold turn at h
  obtain ⟨b, hb, h⟩ := Checked.bind_eq_ok.mp h
  obtain ⟨rate, hrate, h⟩ := Checked.bind_eq_ok.mp h
  obtain ⟨v, hv, h⟩ := Checked.bind_eq_ok.mp h
  by_cases hleft : 0 < v.left
  · rw [if_pos hleft] at h
    obtain ⟨id, hid, h⟩ := Checked.bind_eq_ok.mp h
    obtain ⟨rfl, rfl⟩ := Prod.mk.inj (Except.ok.inj h)
    refine ⟨rfl, b, rate, v, Checked.ofOption_eq_ok.mp hb, hrate, hv, ?_⟩
    rw [if_pos hleft, (Checked.int_eq_ok.mp hid).2]
  · rw [if_neg hleft] at h
    obtain ⟨rfl, rfl⟩ := Prod.mk.inj (Except.ok.inj h)
    refine ⟨rfl, b, rate, v, Checked.ofOption_eq_ok.mp hb, hrate, hv, ?_⟩
    rw [if_neg hleft]

/-- A turn stays in its bin until it moves on. -/
theorem taken_id {xToY : Bool} {b : Bin} {rate : ℕ} {w v : Walk}
    (h : (if 0 < available xToY b then take xToY b rate w else .ok w) = .ok v) : v.id = w.id := by
  by_cases hpos : 0 < available xToY b
  · rw [if_pos hpos] at h
    unfold take at h
    obtain ⟨_, _, h⟩ := Checked.bind_eq_ok.mp h
    obtain ⟨_, _, h⟩ := Checked.bind_eq_ok.mp h
    obtain ⟨_, _, h⟩ := Checked.bind_eq_ok.mp h
    obtain ⟨_, _, h⟩ := Checked.bind_eq_ok.mp h
    split at h
    · obtain ⟨_, _, h⟩ := Checked.bind_eq_ok.mp h
      obtain ⟨_, _, h⟩ := Checked.bind_eq_ok.mp h
      obtain ⟨_, _, h⟩ := Checked.bind_eq_ok.mp h
      obtain ⟨_, _, h⟩ := Checked.bind_eq_ok.mp h
      rw [← Except.ok.inj h]
    · obtain ⟨_, _, h⟩ := Checked.bind_eq_ok.mp h
      obtain ⟨_, _, h⟩ := Checked.bind_eq_ok.mp h
      obtain ⟨_, _, h⟩ := Checked.bind_eq_ok.mp h
      obtain ⟨_, _, h⟩ := Checked.bind_eq_ok.mp h
      obtain ⟨_, _, h⟩ := Checked.bind_eq_ok.mp h
      rw [← Except.ok.inj h]
  · rw [if_neg hpos] at h
    rw [← Except.ok.inj h]

/-- Bins at hand in the swap's direction. -/
def ahead (p : Dlmm) (xToY : Bool) (w : Walk) : ℕ :=
  if w.left = 0 then 0
  else p.bins.keys.countP (fun k => if xToY then decide (k ≤ w.id) else decide (w.id ≤ k)) + 1

/-- The loop comes to an end. -/
theorem ahead_lt {p : Dlmm} {xToY : Bool} {refs : ℤ × ℕ} {w w' : Walk} (hw : w.left ≠ 0)
    (h : p.turn xToY refs w = .ok (w', false)) : ahead p xToY w' < ahead p xToY w := by
  obtain ⟨-, b, rate, v, hb, -, hv, rfl⟩ := turn_eq_ok h
  have hid := taken_id hv
  have hmem : w.id ∈ p.bins.keys := AList.mem_keys.mp (AList.lookup_isSome.mp (by rw [hb]; rfl))
  unfold ahead
  rw [if_neg hw]
  by_cases hzero : v.left = 0
  · rw [if_pos hzero]
    exact Nat.succ_pos _
  · rw [if_neg hzero]
    apply Nat.succ_lt_succ
    simp only
    rw [if_pos (Nat.pos_of_ne_zero hzero), hid]
    -- the bin itself is behind then
    obtain ⟨l₁, l₂, hsplit⟩ := List.append_of_mem hmem
    rw [hsplit, List.countP_append, List.countP_append, List.countP_cons, List.countP_cons]
    have hfewer : ∀ l : List ℤ,
        l.countP (fun k => if xToY then decide (k ≤ (if xToY then w.id - 1 else w.id + 1))
          else decide ((if xToY then w.id - 1 else w.id + 1) ≤ k)) ≤
        l.countP (fun k => if xToY then decide (k ≤ w.id) else decide (w.id ≤ k)) := by
      intro l
      apply List.countP_mono_left
      intro k _ hk
      cases xToY
      · simp only [Bool.false_eq_true, if_false, decide_eq_true_iff] at hk ⊢
        omega
      · simp only [if_true, decide_eq_true_iff] at hk ⊢
        omega
    have h₁ := hfewer l₁
    have h₂ := hfewer l₂
    cases xToY
    · simp only [Bool.false_eq_true, if_false, decide_eq_true_iff, le_refl, if_true] at h₁ h₂ ⊢
      rw [if_neg (by omega)]
      omega
    · simp only [if_true, decide_eq_true_iff, le_refl] at h₁ h₂ ⊢
      rw [if_neg (by omega)]
      omega

/-- The loop: until nothing is left. -/
def loop (p : Dlmm) (xToY : Bool) (refs : ℤ × ℕ) : Loop Walk where
  done w := decide (w.left = 0)
  turn := p.turn xToY refs
  size := ahead p xToY
  descends hw h := ahead_lt (of_decide_eq_false hw) h

def start (p : Dlmm) (amountIn : ℕ) : Walk :=
  { id := p.activeId, left := amountIn, out := 0, fees := 0, visits := [] }

/-- Sell exactly `amountIn` of token X (`xToY`) or of token Y at unix time
`now` (the fee depends on the time since the last swap). -/
def swap (p : Dlmm) (xToY : Bool) (amountIn : ℕ) (now : ℤ) : Checked Swap := do
  let refs ← p.references now
  let w ← (p.loop xToY refs).run (p.start amountIn)
  let amountOut ← Checked.fit 64 w.out
  let fee ← Checked.fit 64 w.fees
  pure { amountOut, fee, activeId := w.id }

end Dlmm

end Amm
end MobiusSearcher
