/-
# Pools from account bytes

The decoders of `crates/market/src/amm`: fields at fixed offsets of an
account, the tick or bin arrays around the price joined in order, and what is
refused. An index, an offset or an array start is a 32-bit integer of the
account, and sums of them are checked like any other.

Addresses are what `find_program_address` gives for their seeds, here a
parameter: the account an array is stored in.

Key definitions: `uintAt`, `withArrays`, `Whirlpool.decode`, `Raydium.decode`,
`Dlmm.decode`, `decode`, `dependencies`.
Key theorems: `withArrays_eq_ok`, `decode_clmm`.
-/
import MobiusSearcher.Amm.Pool
import MobiusSearcher.Lib.Table

namespace MobiusSearcher
namespace Amm

/-- The data of an account: its length, and the byte at each index below it. -/
structure Bytes where
  length : ℕ
  byte : ℕ → UInt8

/-- An account of zeros but for some fields: offset, bytes and value of each. -/
def account (length : ℕ) (fields : List (ℕ × ℕ × ℕ)) : Bytes where
  length
  byte i :=
    match fields.find? fun f => f.1 ≤ i ∧ i < f.1 + f.2.1 with
    | some f => UInt8.ofNat (f.2.2 / 256 ^ (i - f.1) % 256)
    | none => 0

/-! ### Fields -/

/-- The value of little-endian bytes. -/
def le : List UInt8 → ℕ
  | [] => 0
  | b :: bs => b.toNat + 256 * le bs

theorem le_lt : ∀ bs : List UInt8, le bs < 256 ^ bs.length
  | [] => Nat.one_pos
  | b :: bs => by
    have hb := b.toNat_lt
    have hbs := le_lt bs
    unfold le
    rw [List.length_cons, pow_succ]
    omega

/-- The bytes `offset .. offset + n`. -/
def Bytes.slice (d : Bytes) (offset n : ℕ) : List UInt8 := (List.range n).map fun i => d.byte (offset + i)

theorem le_slice_lt (d : Bytes) (offset n : ℕ) : le (d.slice offset n) < 256 ^ n := by
  have hlt := le_lt (d.slice offset n)
  unfold Bytes.slice at hlt ⊢
  rw [List.length_map, List.length_range] at hlt
  exact hlt

/-- An unsigned integer of `n` bytes, none if the account is too short. -/
def uintAt (n : ℕ) (d : Bytes) (offset : ℕ) : Checked {v : ℕ // v < 256 ^ n} :=
  if offset + n ≤ d.length then .ok ⟨le (d.slice offset n), le_slice_lt d offset n⟩ else Checked.none

/-- Two's complement. -/
def signed (w v : ℕ) : ℤ := if v < 2 ^ (w - 1) then v else v - 2 ^ w

def intAt (n : ℕ) (d : Bytes) (offset : ℕ) : Checked ℤ := do
  let v ← uintAt n d offset
  pure (signed (8 * n) v)

/-- A byte by its index, which must be there. -/
def byteAt (d : Bytes) (i : ℕ) : Checked UInt8 := if i < d.length then .ok (d.byte i) else Checked.panic

/-! ### Tick arrays -/

/-- Some array is not next to the one before it. -/
def gapped (span : ℤ) : List ℤ → Checked Bool
  | a :: b :: rest => do
    let next ← Checked.int 32 (a + span)
    if b ≠ next then pure true else gapped span (b :: rest)
  | _ => pure false

/-- Tick arrays `(start, ticks)` joined into the ticks and the range they cover. -/
def withArrays (p : Clmm) (arrays : List (ℤ × List Tick)) (span : ℤ) : Checked Clmm := do
  let arrays := Table.ordered Prod.fst arrays
  let first ← Checked.ofOption arrays.head?
  let last ← Checked.ofOption arrays.getLast?
  -- side by side, and the current tick inside them
  let apart ← gapped span (arrays.map Prod.fst)
  if apart then Checked.none
  else do
    let stop ← Checked.int 32 (last.1 + span)
    if ¬(first.1 ≤ p.tick ∧ p.tick < stop) then Checked.none
    else do
      let stop ← Checked.int 32 (last.1 + span)
      -- the stored tick must be the one the stored price is in
      let at' ← tickAtSqrtPrice p.sqrtPrice
      if (at' - p.tick).natAbs ≤ 1 then
        pure { p with known := (first.1, stop), ticks := arrays.flatMap Prod.snd }
      else Checked.none

/-- First tick of the tick array holding `tick`. -/
def arrayStart (tick : ℤ) (tickSpacing ticksPerArray : ℕ) : Checked ℤ := do
  let span ← Checked.int 32 (tickSpacing * ticksPerArray)
  if span = 0 then Checked.panic
  else Checked.int 32 (tick / span * span)

/-- The slots of an array that hold a tick, in their order. -/
def heldTicks (slot : ℕ → Checked (Option Tick)) : List ℕ → Checked (List Tick)
  | [] => pure []
  | i :: is => do
    let held ← slot i
    let rest ← heldTicks slot is
    pure (held.elim rest (· :: rest))

namespace Whirlpool

/-- Ticks per tick array. -/
def arrayTicks : ℕ := 88

/-- Anchor discriminator of the fixed-size tick array account. -/
def fixedArray : List UInt8 := [0x45, 0x61, 0xbd, 0xbe, 0x6e, 0x07, 0x42, 0xbb]

def tickSpacing (pool : Bytes) : Checked {v : ℕ // v < 256 ^ 2} := uintAt 2 pool 41

def currentTick (pool : Bytes) : Checked ℤ := intAt 4 pool 81

/-- Slot `i`: 113 bytes, initialized u8, liquidity_net i128. -/
def slot (a : Bytes) (start : ℤ) (spacing : ℕ) (i : ℕ) : Checked (Option Tick) := do
  let initialized ← byteAt a (12 + i * 113)
  if initialized = 0 then pure none
  else do
    let past ← Checked.int 32 (i * spacing)
    let index ← Checked.int 32 (start + past)
    let net ← intAt 16 a (13 + i * 113)
    pure (some ⟨index, net⟩)

def tickArray (spacing : ℕ) (a : Bytes) : Checked (ℤ × List Tick) :=
  if a.length ≠ 9988 ∨ a.slice 0 8 ≠ fixedArray then Checked.none
  else do
    let start ← intAt 4 a 8
    let ticks ← heldTicks (slot a start spacing) (List.range arrayTicks)
    pure (start, ticks)

/-- The pool with the given tick arrays (any order; they must be side by side
and include the current tick). -/
def decode (pool : Bytes) (arrays : List Bytes) : Checked Clmm := do
  let spacing ← tickSpacing pool
  let tier ← uintAt 2 pool 43
  if tier ≠ spacing then Checked.none -- fee tier index ≠ tick spacing: not a fixed-fee pool
  else do
    let span ← Checked.int 32 (spacing * arrayTicks)
    let decoded ← arrays.mapM (tickArray spacing)
    let sqrtPrice ← uintAt 16 pool 65
    let tick ← currentTick pool
    let liquidity ← uintAt 16 pool 49
    let feePpm ← uintAt 2 pool 45
    withArrays
      { sqrtPrice, tick, liquidity, feePpm, ticks := [], known := (0, 0)
        sqrtPrice_lt := sqrtPrice.2.trans_eq (by norm_num), liquidity_lt := liquidity.2.trans_eq (by norm_num) }
      decoded span

end Whirlpool

namespace Raydium

def arrayTicks : ℕ := 60

def tickSpacing (pool : Bytes) : Checked {v : ℕ // v < 256 ^ 2} := uintAt 2 pool 235

def currentTick (pool : Bytes) : Checked ℤ := intAt 4 pool 269

def ammConfig (pool : Bytes) : Checked (List UInt8) :=
  if 41 ≤ pool.length then .ok (pool.slice 9 32) else Checked.none

/-- Slot `i`: 168 bytes, tick i32, liquidity_net i128 @4, liquidity_gross u128 @20. -/
def slot (a : Bytes) (i : ℕ) : Checked (Option Tick) :=
  match uintAt 16 a (44 + i * 168 + 20) with
  | .ok gross =>
    if gross.1 = 0 then pure none
    else do
      let index ← intAt 4 a (44 + i * 168)
      let net ← intAt 16 a (44 + i * 168 + 4)
      pure (some ⟨index, net⟩)
  | .error _ => pure none

def tickArray (a : Bytes) : Checked (ℤ × List Tick) :=
  if a.length ≠ 10240 then Checked.none
  else do
    let ticks ← heldTicks (slot a) (List.range arrayTicks)
    let start ← intAt 4 a 40
    pure (start, ticks)

def decode (pool config : Bytes) (arrays : List Bytes) : Checked Clmm := do
  let spacing ← tickSpacing pool
  let span ← Checked.int 32 (spacing * arrayTicks)
  let decoded ← arrays.mapM tickArray
  let sqrtPrice ← uintAt 16 pool 253
  let tick ← currentTick pool
  let liquidity ← uintAt 16 pool 237
  let feePpm ← uintAt 4 config 47
  withArrays
    { sqrtPrice, tick, liquidity, feePpm, ticks := [], known := (0, 0)
      sqrtPrice_lt := sqrtPrice.2.trans_eq (by norm_num), liquidity_lt := liquidity.2.trans_eq (by norm_num) }
    decoded span

end Raydium

/-! ### Bin arrays -/

namespace Dlmm

def binsPerArray : ℕ := 70

def activeIdOf (pool : Bytes) : Checked ℤ := intAt 4 pool 76

/-- Index of the bin array holding bin `id`. -/
def arrayIndex (id : ℤ) : ℤ := id / binsPerArray

/-- The bins of an array from slot `i` on, put into those at hand. -/
def binArray (a : Bytes) (first : ℤ) : List ℕ → Keyed.Map ℤ Bin → Checked (Keyed.Map ℤ Bin)
  | [], bins => pure bins
  | i :: is, bins => do
    let id ← Checked.int 32 (first + i)
    let amountX ← uintAt 8 a (56 + i * 144)
    let amountY ← uintAt 8 a (56 + i * 144 + 8)
    let price ← uintAt 16 a (56 + i * 144 + 16)
    binArray a first is (bins.insert id ⟨amountX, amountY, price, amountX.2.trans_eq (by norm_num),
      amountY.2.trans_eq (by norm_num), price.2.trans_eq (by norm_num)⟩)

def binArrays : List Bytes → Keyed.Map ℤ Bin → Checked (Keyed.Map ℤ Bin)
  | [], bins => pure bins
  | a :: as, bins =>
    if a.length ≠ 10136 then Checked.none
    else do
      let index ← intAt 8 a 8
      -- `checked_mul`, then `try_from`
      if ¬(-2 ^ 31 ≤ index * binsPerArray ∧ index * binsPerArray < 2 ^ 31) then Checked.none
      else do
        let bins ← binArray a (index * binsPerArray) (List.range binsPerArray) bins
        binArrays as bins

/-- The pool with the bins of the given bin arrays. -/
def decode (pool : Bytes) (arrays : List Bytes) : Checked Dlmm := do
  let bins ← binArrays arrays ∅
  let activeId ← activeIdOf pool
  let binStep ← uintAt 2 pool 80
  let baseFactor ← uintAt 2 pool 8
  let baseFeePower ← uintAt 1 pool 34
  let variableFeeControl ← uintAt 4 pool 16
  let maxVolatilityAccumulator ← uintAt 4 pool 20
  let protocolShare ← uintAt 2 pool 32
  let filterPeriod ← uintAt 2 pool 10
  let decayPeriod ← uintAt 2 pool 12
  let reductionFactor ← uintAt 2 pool 14
  let volatilityAccumulator ← uintAt 4 pool 40
  let volatilityReference ← uintAt 4 pool 44
  let indexReference ← intAt 4 pool 48
  let lastUpdate ← intAt 8 pool 56
  if (bins.lookup activeId).isSome then
    pure
      { activeId, binStep, baseFactor, baseFeePower, variableFeeControl, maxVolatilityAccumulator, protocolShare
        filterPeriod, decayPeriod, reductionFactor, volatilityAccumulator, volatilityReference, indexReference
        lastUpdate, bins }
  else Checked.none

end Dlmm

/-! ### Any pool -/

inductive PoolKind
  | whirlpool
  | raydiumClmm
  | meteoraDlmm
  deriving DecidableEq, Repr

/-- How many tick or bin arrays are read on each side of the current price. -/
def around : List ℤ := [-2, -1, 0, 1, 2]

/-- Which account of a pool: Raydium's fee configuration, or the array of ticks or bins
that starts at a tick or has an index. -/
inductive Dependency
  | config (address : List UInt8)
  | ticks (start : ℤ)
  | bins (index : ℤ)
  deriving DecidableEq, Repr

/-- The array `k` spans from the one at `start`. -/
def arrayAround (start span k : ℤ) : Checked Dependency := do
  let past ← Checked.int 32 (k * span)
  let array ← Checked.int 32 (start + past)
  pure (.ticks array)

/-- The accounts a pool's swaps depend on besides the pool account, as of the
pool account `pool`. -/
def dependencies (kind : PoolKind) (pool : Bytes) : Checked (List Dependency) :=
  match kind with
  | .whirlpool => do
    let spacing ← Whirlpool.tickSpacing pool
    let span ← Checked.int 32 (spacing * Whirlpool.arrayTicks)
    let tick ← Whirlpool.currentTick pool
    let start ← arrayStart tick spacing Whirlpool.arrayTicks
    around.mapM (arrayAround start span)
  | .raydiumClmm => do
    let spacing ← Raydium.tickSpacing pool
    let span ← Checked.int 32 (spacing * Raydium.arrayTicks)
    let tick ← Raydium.currentTick pool
    let start ← arrayStart tick spacing Raydium.arrayTicks
    let config ← Raydium.ammConfig pool
    let arrays ← around.mapM (arrayAround start span)
    pure (.config config :: arrays)
  | .meteoraDlmm => do
    let id ← Dlmm.activeIdOf pool
    around.mapM fun k => do
      let index ← Checked.int 64 (Dlmm.arrayIndex id + k)
      pure (.bins index)

/-- The arrays around the middle one (the current price) that exist without a gap. -/
def run (arrays : List (Option Bytes)) : Checked (List Bytes) :=
  if arrays.isEmpty then pure []
  else do
    let mid := arrays.length / 2
    let below := ((arrays.take mid).reverse.takeWhile Option.isSome).length
    let above := ((arrays.drop (mid + 1)).takeWhile Option.isSome).length
    let first ← Checked.sub mid below
    if mid + above < arrays.length then
      pure (((arrays.drop first).take (mid + above + 1 - first)).filterMap id)
    else Checked.panic

/-- The pool from its account and the data of its dependencies, in that order
(none for an account that does not exist). -/
def decode (kind : PoolKind) (pool : Bytes) (deps : List (Option Bytes)) : Checked Pool :=
  match kind with
  | .whirlpool => do
    let arrays ← run deps
    let p ← Whirlpool.decode pool arrays
    pure (.clmm p)
  | .raydiumClmm =>
    match deps with
    | [] => Checked.none
    | config :: arrays => do
      let config ← Checked.ofOption config
      let arrays ← run arrays
      let p ← Raydium.decode pool config arrays
      pure (.clmm p)
  | .meteoraDlmm => do
    let arrays ← run deps
    let p ← Dlmm.decode pool arrays
    pure (.dlmm p)

theorem run_one (a : Bytes) : run [some a] = .ok [a] := by
  simp [run, Checked.sub]

theorem decode_whirlpool_one {pool a : Bytes} {p : Clmm} (h : Whirlpool.decode pool [a] = .ok p) :
    decode .whirlpool pool [some a] = .ok (.clmm p) := by
  unfold decode
  simp only
  rw [run_one, Checked.ok_bind, h]
  rfl

theorem decode_raydium_one {pool config a : Bytes} {p : Clmm} (h : Raydium.decode pool config [a] = .ok p) :
    decode .raydiumClmm pool [some config, some a] = .ok (.clmm p) := by
  unfold decode
  simp only
  rw [run_one, Checked.ofOption, Checked.ok_bind, Checked.ok_bind, h]
  rfl

/-! ### What is accepted -/

theorem mapM_eq_ok {α β : Type} {f : α → Checked β} : ∀ {as : List α} {bs : List β}, as.mapM f = .ok bs →
    ∀ b ∈ bs, ∃ a ∈ as, f a = .ok b
  | [], bs, h, b, hb => by
    rw [List.mapM_nil] at h
    rw [← Except.ok.inj h] at hb
    exact absurd hb List.not_mem_nil
  | a :: as, bs, h, b, hb => by
    rw [List.mapM_cons] at h
    obtain ⟨c, hc, h⟩ := Checked.bind_eq_ok.mp h
    obtain ⟨cs, hcs, h⟩ := Checked.bind_eq_ok.mp h
    rw [← Except.ok.inj h] at hb
    rcases List.mem_cons.mp hb with rfl | hb
    · exact ⟨a, List.mem_cons_self .., hc⟩
    · obtain ⟨a', ha', hf⟩ := mapM_eq_ok hcs b hb
      exact ⟨a', List.mem_cons_of_mem a ha', hf⟩

/-- What every decoder makes sure of: the tick is one the arrays cover, and at
most one away from the tick the price is in. -/
structure Accepted (p : Clmm) : Prop where
  covered : p.known.1 ≤ p.tick ∧ p.tick < p.known.2
  near : ∃ t, tickAtSqrtPrice p.sqrtPrice = .ok t ∧ (t - p.tick).natAbs ≤ 1

/-- The ticks are in ascending order. -/
def Ascending (p : Clmm) : Prop := p.ticks.Pairwise fun t u => t.index < u.index

/-- The ticks are in the range that is known. -/
def Inside (p : Clmm) : Prop := ∀ t ∈ p.ticks, p.known.1 ≤ t.index ∧ t.index < p.known.2

theorem withArrays_eq_ok {p q : Clmm} {arrays : List (ℤ × List Tick)} {span : ℤ} (h : withArrays p arrays span = .ok q) :
    Accepted q ∧ ∃ first last, (Table.ordered Prod.fst arrays).head? = some first ∧
      (Table.ordered Prod.fst arrays).getLast? = some last ∧
      gapped span ((Table.ordered Prod.fst arrays).map Prod.fst) = .ok false ∧
      q.known = (first.1, last.1 + span) ∧ q.ticks = (Table.ordered Prod.fst arrays).flatMap Prod.snd := by
  unfold withArrays at h
  obtain ⟨first, hfirst, h⟩ := Checked.bind_eq_ok.mp h
  obtain ⟨last, hlast, h⟩ := Checked.bind_eq_ok.mp h
  obtain ⟨apart, hapart, h⟩ := Checked.bind_eq_ok.mp h
  cases apart with
  | true => exact absurd h Checked.none_ne_ok
  | false =>
    rw [if_neg (by decide)] at h
    obtain ⟨stop, hstop, h⟩ := Checked.bind_eq_ok.mp h
    obtain ⟨-, rfl⟩ := Checked.int_eq_ok.mp hstop
    by_cases hin : first.1 ≤ p.tick ∧ p.tick < last.1 + span
    · rw [if_neg (not_not.mpr hin), hstop, Checked.ok_bind] at h
      obtain ⟨t, ht, h⟩ := Checked.bind_eq_ok.mp h
      by_cases hnear : (t - p.tick).natAbs ≤ 1
      · rw [if_pos hnear] at h
        obtain rfl := Except.ok.inj h
        exact ⟨⟨hin, t, ht, hnear⟩, first, last, Checked.ofOption_eq_ok.mp hfirst, Checked.ofOption_eq_ok.mp hlast,
          hapart, rfl, rfl⟩
      · rw [if_neg hnear] at h
        exact absurd h Checked.none_ne_ok
    · rw [if_pos hin] at h
      exact absurd h Checked.none_ne_ok

/-- The first of an array's ticks, and the spacing between them, make each one's index. -/
theorem heldTicks_eq_ok {slot : ℕ → Checked (Option Tick)} {index : ℕ → ℤ}
    (hslot : ∀ {i t}, slot i = .ok (some t) → t.index = index i) (hmono : ∀ {i j}, i < j → index i < index j) :
    ∀ {is : List ℕ} {ts : List Tick}, is.Pairwise (· < ·) → heldTicks slot is = .ok ts →
      ts.Pairwise (fun t u => t.index < u.index) ∧ ∀ t ∈ ts, ∃ i ∈ is, t.index = index i
  | [], ts, _, h => by
    obtain rfl := Except.ok.inj h
    exact ⟨List.Pairwise.nil, fun t ht => absurd ht List.not_mem_nil⟩
  | i :: is, ts, hlt, h => by
    unfold heldTicks at h
    obtain ⟨held, hheld, h⟩ := Checked.bind_eq_ok.mp h
    obtain ⟨rest, hrest, h⟩ := Checked.bind_eq_ok.mp h
    obtain rfl := Except.ok.inj h
    obtain ⟨hhead, htail⟩ := List.pairwise_cons.mp hlt
    obtain ⟨hasc, hall⟩ := heldTicks_eq_ok hslot hmono htail hrest
    have hlater : ∀ t ∈ rest, ∃ j ∈ i :: is, t.index = index j := fun t ht => by
      obtain ⟨j, hj, he⟩ := hall t ht
      exact ⟨j, List.mem_cons_of_mem i hj, he⟩
    cases held with
    | none => exact ⟨hasc, hlater⟩
    | some t =>
      have hindex := hslot hheld
      refine ⟨List.pairwise_cons.mpr ⟨fun u hu => ?_, hasc⟩, fun u hu => ?_⟩
      · obtain ⟨j, hj, he⟩ := hall u hu
        rw [hindex, he]
        exact hmono (hhead j hj)
      · rcases List.mem_cons.mp hu with rfl | hu
        · exact ⟨i, List.mem_cons_self .., hindex⟩
        · exact hlater u hu

namespace Whirlpool

theorem slot_eq_ok {a : Bytes} {start : ℤ} {spacing i : ℕ} {t : Tick} (h : slot a start spacing i = .ok (some t)) :
    t.index = start + i * spacing := by
  unfold slot at h
  obtain ⟨b, -, h⟩ := Checked.bind_eq_ok.mp h
  by_cases hb : b = 0
  · rw [if_pos hb] at h
    exact absurd (Except.ok.inj h) (by simp)
  · rw [if_neg hb] at h
    obtain ⟨past, hpast, h⟩ := Checked.bind_eq_ok.mp h
    obtain ⟨index, hindex, h⟩ := Checked.bind_eq_ok.mp h
    obtain ⟨net, -, h⟩ := Checked.bind_eq_ok.mp h
    obtain rfl := Option.some.inj (Except.ok.inj h)
    rw [(Checked.int_eq_ok.mp hindex).2, (Checked.int_eq_ok.mp hpast).2]

/-- An array's ticks ascend, inside its span. -/
theorem tickArray_eq_ok {spacing : ℕ} (hs : 0 < spacing) {a : Bytes} {d : ℤ × List Tick}
    (h : tickArray spacing a = .ok d) : d.2.Pairwise (fun t u => t.index < u.index) ∧
      ∀ t ∈ d.2, d.1 ≤ t.index ∧ t.index < d.1 + spacing * arrayTicks := by
  unfold tickArray at h
  by_cases hc : a.length ≠ 9988 ∨ a.slice 0 8 ≠ fixedArray
  · rw [if_pos hc] at h
    exact absurd h Checked.none_ne_ok
  · rw [if_neg hc] at h
    obtain ⟨start, -, h⟩ := Checked.bind_eq_ok.mp h
    obtain ⟨ticks, hticks, h⟩ := Checked.bind_eq_ok.mp h
    obtain rfl := Except.ok.inj h
    have hmono : ∀ {i j : ℕ}, i < j → start + (i : ℤ) * spacing < start + (j : ℤ) * spacing := by
      intro i j hij
      have hlt : i * spacing < j * spacing := Nat.mul_lt_mul_of_pos_right hij hs
      have hcast : (i : ℤ) * spacing < j * spacing := by exact_mod_cast hlt
      omega
    obtain ⟨hasc, hall⟩ := heldTicks_eq_ok (@slot_eq_ok a start spacing) hmono
      List.pairwise_lt_range hticks
    refine ⟨hasc, fun t ht => ?_⟩
    obtain ⟨i, hi, he⟩ := hall t ht
    have hi' : i < arrayTicks := List.mem_range.mp hi
    have hfirst := Int.mul_nonneg (Int.natCast_nonneg i) (Int.natCast_nonneg spacing)
    have hlast := hmono hi'
    show start ≤ t.index ∧ t.index < start + spacing * arrayTicks
    rw [he]
    have hcomm : (spacing : ℤ) * arrayTicks = arrayTicks * spacing := mul_comm _ _
    omega

end Whirlpool

/-- Arrays side by side, each in order inside its span, are in order as a whole. -/
theorem sideBySide {span : ℤ} : ∀ {l : List (ℤ × List Tick)} {first last : ℤ × List Tick},
    gapped span (l.map Prod.fst) = .ok false → l.head? = some first → l.getLast? = some last →
    (∀ d ∈ l, d.2.Pairwise (fun t u => t.index < u.index) ∧ ∀ t ∈ d.2, d.1 ≤ t.index ∧ t.index < d.1 + span) →
    0 < span →
    (l.flatMap Prod.snd).Pairwise (fun t u => t.index < u.index) ∧ first.1 ≤ last.1 ∧
      ∀ t ∈ l.flatMap Prod.snd, first.1 ≤ t.index ∧ t.index < last.1 + span
  | [], _, _, _, hfirst, _, _, _ => absurd hfirst (by simp)
  | [d], first, last, _, hfirst, hlast, hall, _ => by
    obtain rfl := Option.some.inj hfirst
    obtain rfl := Option.some.inj hlast
    rw [List.flatMap_cons, List.flatMap_nil, List.append_nil]
    obtain ⟨hasc, hin⟩ := hall d (List.mem_cons_self ..)
    exact ⟨hasc, le_refl _, hin⟩
  | d :: e :: l, first, last, hgap, hfirst, hlast, hall, hspan => by
    obtain rfl := Option.some.inj hfirst
    rw [List.map_cons, List.map_cons] at hgap
    unfold gapped at hgap
    obtain ⟨next, hnext, hgap⟩ := Checked.bind_eq_ok.mp hgap
    obtain ⟨-, rfl⟩ := Checked.int_eq_ok.mp hnext
    by_cases hne : e.1 ≠ d.1 + span
    · rw [if_pos hne] at hgap
      exact absurd (Except.ok.inj hgap) (by decide)
    · rw [if_neg hne] at hgap
      rw [not_not] at hne
      rw [List.getLast?_cons_cons] at hlast
      have hlater := fun x hx => hall x (List.mem_cons_of_mem d hx)
      obtain ⟨hasc, hle, hin⟩ := sideBySide (l := e :: l) hgap rfl hlast hlater hspan
      obtain ⟨hasc', hin'⟩ := hall d (List.mem_cons_self ..)
      rw [List.flatMap_cons]
      refine ⟨List.pairwise_append.mpr ⟨hasc', hasc, fun t ht u hu => ?_⟩, by omega, fun t ht => ?_⟩
      · have ht' := hin' t ht
        have hu' := hin u hu
        omega
      · rcases List.mem_append.mp ht with ht | ht
        · have ht' := hin' t ht
          omega
        · have ht' := hin t ht
          omega

/-- With no span, every array starts where the first one does. -/
theorem spanless : ∀ {l : List (ℤ × List Tick)} {first last : ℤ × List Tick},
    gapped 0 (l.map Prod.fst) = .ok false → l.head? = some first → l.getLast? = some last → last.1 = first.1
  | [], _, _, _, hfirst, _ => absurd hfirst (by simp)
  | [d], first, last, _, hfirst, hlast => by
    obtain rfl := Option.some.inj hfirst
    obtain rfl := Option.some.inj hlast
    rfl
  | d :: e :: l, first, last, hgap, hfirst, hlast => by
    obtain rfl := Option.some.inj hfirst
    rw [List.map_cons, List.map_cons] at hgap
    unfold gapped at hgap
    obtain ⟨next, hnext, hgap⟩ := Checked.bind_eq_ok.mp hgap
    obtain ⟨-, rfl⟩ := Checked.int_eq_ok.mp hnext
    by_cases hne : e.1 ≠ d.1 + 0
    · rw [if_pos hne] at hgap
      exact absurd (Except.ok.inj hgap) (by decide)
    · rw [if_neg hne] at hgap
      rw [List.getLast?_cons_cons] at hlast
      have hlater := spanless (l := e :: l) hgap rfl hlast
      omega

theorem Whirlpool.decode_eq_ok {pool : Bytes} {arrays : List Bytes} {p : Clmm} (h : decode pool arrays = .ok p) :
    Accepted p ∧ Ascending p ∧ Inside p := by
  unfold decode at h
  obtain ⟨spacing, -, h⟩ := Checked.bind_eq_ok.mp h
  obtain ⟨tier, -, h⟩ := Checked.bind_eq_ok.mp h
  by_cases htier : tier ≠ spacing
  · rw [if_pos htier] at h
    exact absurd h Checked.none_ne_ok
  rw [if_neg htier] at h
  obtain ⟨span, hspan, h⟩ := Checked.bind_eq_ok.mp h
  obtain ⟨decoded, hdecoded, h⟩ := Checked.bind_eq_ok.mp h
  obtain ⟨sqrtPrice, -, h⟩ := Checked.bind_eq_ok.mp h
  obtain ⟨tick, -, h⟩ := Checked.bind_eq_ok.mp h
  obtain ⟨liquidity, -, h⟩ := Checked.bind_eq_ok.mp h
  obtain ⟨feePpm, -, h⟩ := Checked.bind_eq_ok.mp h
  obtain ⟨hacc, first, last, hfirst, hlast, hgap, hknown, hticks⟩ := withArrays_eq_ok h
  obtain ⟨-, rfl⟩ := Checked.int_eq_ok.mp hspan
  have hcovered := hacc.covered
  rw [hknown] at hcovered
  simp only at hcovered
  have hpos : 0 < spacing.1 := by
    apply Nat.pos_of_ne_zero
    intro h0
    rw [h0, Nat.cast_zero, zero_mul] at hgap hcovered
    have hsame := spanless hgap hfirst hlast
    omega
  have hspan : (0 : ℤ) < spacing.1 * arrayTicks := by
    have hcast : (0 : ℤ) < spacing.1 := by exact_mod_cast hpos
    exact mul_pos hcast (by norm_num [arrayTicks])
  have harrays : ∀ d ∈ Table.ordered Prod.fst decoded, d.2.Pairwise (fun t u => t.index < u.index) ∧
      ∀ t ∈ d.2, d.1 ≤ t.index ∧ t.index < d.1 + spacing.1 * arrayTicks := by
    intro d hd
    obtain ⟨a, -, ha⟩ := mapM_eq_ok hdecoded d ((List.perm_insertionSort _ _).mem_iff.mp hd)
    exact tickArray_eq_ok hpos ha
  obtain ⟨hasc, -, hin⟩ := sideBySide hgap hfirst hlast harrays hspan
  refine ⟨hacc, ?_, ?_⟩
  · unfold Ascending
    rw [hticks]
    exact hasc
  · unfold Inside
    rw [hticks, hknown]
    exact hin

theorem Raydium.decode_eq_ok {pool config : Bytes} {arrays : List Bytes} {p : Clmm}
    (h : decode pool config arrays = .ok p) : Accepted p := by
  unfold decode at h
  obtain ⟨spacing, -, h⟩ := Checked.bind_eq_ok.mp h
  obtain ⟨span, -, h⟩ := Checked.bind_eq_ok.mp h
  obtain ⟨decoded, -, h⟩ := Checked.bind_eq_ok.mp h
  obtain ⟨sqrtPrice, -, h⟩ := Checked.bind_eq_ok.mp h
  obtain ⟨tick, -, h⟩ := Checked.bind_eq_ok.mp h
  obtain ⟨liquidity, -, h⟩ := Checked.bind_eq_ok.mp h
  obtain ⟨feePpm, -, h⟩ := Checked.bind_eq_ok.mp h
  exact (withArrays_eq_ok h).1

/-- **What a decoded pool of ticks is known to be.** -/
theorem decode_clmm {kind : PoolKind} {pool : Bytes} {deps : List (Option Bytes)} {p : Clmm}
    (h : decode kind pool deps = .ok (.clmm p)) :
    Accepted p ∧ (kind = .whirlpool → Ascending p ∧ Inside p) := by
  unfold decode at h
  cases kind with
  | whirlpool =>
    obtain ⟨arrays, -, h⟩ := Checked.bind_eq_ok.mp h
    obtain ⟨q, hq, h⟩ := Checked.bind_eq_ok.mp h
    obtain rfl := Pool.clmm.inj (Except.ok.inj h)
    obtain ⟨hacc, hasc, hin⟩ := Whirlpool.decode_eq_ok hq
    exact ⟨hacc, fun _ => ⟨hasc, hin⟩⟩
  | raydiumClmm =>
    cases deps with
    | nil => exact absurd h Checked.none_ne_ok
    | cons config arrays =>
      simp only at h
      obtain ⟨config, -, h⟩ := Checked.bind_eq_ok.mp h
      obtain ⟨arrays, -, h⟩ := Checked.bind_eq_ok.mp h
      obtain ⟨q, hq, h⟩ := Checked.bind_eq_ok.mp h
      obtain rfl := Pool.clmm.inj (Except.ok.inj h)
      exact ⟨Raydium.decode_eq_ok hq, fun hk => absurd hk (by decide)⟩
  | meteoraDlmm =>
    obtain ⟨arrays, -, h⟩ := Checked.bind_eq_ok.mp h
    obtain ⟨q, hq, h⟩ := Checked.bind_eq_ok.mp h
    exact nomatch Except.ok.inj h

end Amm
end MobiusSearcher
