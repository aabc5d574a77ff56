/-
# Integer money

`crates/core/src/units.rs` and `time.rs`: ratios in parts per million,
micro-USD, prices, fees of a compute budget, and timestamps in microseconds.
Amounts are `ℕ` (`u64` in the source); signed quantities are `ℤ`. A function
that can panic returns an `Option`, `none` being the panic.

Key definitions: `Ppm.ratio`, `UsdPrice.value`, `priorityFeeLamports`,
`cuLimitWithMargin`, `Ts.ageMs`.
-/
import MobiusSearcher.Lib.Machine

namespace MobiusSearcher

open Machine

def baseFeeLamportsPerSignature : ℕ := 5000
def microLamportsPerLamport : ℕ := 1000000
def maxComputeUnitsPerTx : ℕ := 1400000
def tokenAccountRentLamports : ℕ := 1488440
def jitoMinTipLamports : ℕ := 1000
def ppmOne : ℕ := 1000000

/-- A signed ratio in parts per million. -/
structure Ppm where
  val : ℤ
  deriving DecidableEq, Repr

namespace Ppm

def zero : Ppm := ⟨0⟩

/-- `num / den` in ppm, rounded toward negative infinity; `none` if `den ≤ 0`
or the result does not fit. -/
def ratio (num den : ℤ) : Option Ppm :=
  if den ≤ 0 then none
  else (checkedI128 (num * ppmOne)).bind fun scaled => (checkedI64 (scaled / den)).map Ppm.mk

def fromBps (bps : ℤ) : Ppm := ⟨bps * 100⟩

end Ppm

/-- Micro-USD. -/
structure UsdMicros where
  val : ℤ
  deriving DecidableEq, Repr

namespace UsdMicros

def zero : UsdMicros := ⟨0⟩

def saturatingAdd (a b : UsdMicros) : UsdMicros := ⟨satAddI64 a.val b.val⟩

end UsdMicros

/-- USD price of one whole token, in micro-USD. -/
structure UsdPrice where
  microsPerToken : ℕ
  deriving DecidableEq, Repr

/-- Value of `atoms` of a token with `decimals`, rounded toward negative infinity. -/
def UsdPrice.value (p : UsdPrice) (atoms : ℤ) (decimals : ℕ) : Option UsdMicros :=
  (checkedI128 (10 ^ decimals)).bind fun scale =>
    (checkedI128 (atoms * p.microsPerToken)).bind fun v =>
      (checkedI64 (v / scale)).map UsdMicros.mk

/-- `⌈a / b⌉`, as `div_ceil` computes it. -/
def divCeil (a b : ℕ) : ℕ := (a + b - 1) / b

/-- Priority fee in lamports: `⌈cu_limit · price / 10⁶⌉`, or the largest `u64`. -/
def priorityFeeLamports (cuLimit cuPriceMicroLamports : ℕ) : ℕ :=
  min (divCeil (cuLimit * cuPriceMicroLamports) microLamportsPerLamport) u64Max

/-- Compute-unit limit to request after a simulation. `clamp` panics when its
lower bound, the units used, is above the network maximum. -/
def cuLimitWithMargin (unitsUsed : ℕ) (margin : Ppm) : Option ℕ :=
  let want := divCeil (unitsUsed * (ppmOne + margin.val.toNat)) ppmOne
  if maxComputeUnitsPerTx < unitsUsed then none
  else some (max unitsUsed (min want maxComputeUnitsPerTx))

/-- Unix microseconds. -/
structure Ts where
  micros : ℤ
  deriving DecidableEq, Repr

namespace Ts

def ofSecs (s : ℤ) : Ts := ⟨s * 1000000⟩

/-- Age in milliseconds relative to `now`, 0 when `now` is before. -/
def ageMs (t now : Ts) : ℕ := (wrapI64 (now.micros - t.micros)).toNat / 1000

/-- `now.0 - t.0`. -/
def since (t now : Ts) : ℤ := wrapI64 (now.micros - t.micros)

/-- The clock of a machine gives no time before the epoch. -/
def Clocked (t : Ts) : Prop := 0 ≤ t.micros ∧ t.micros ≤ i64Max

instance (t : Ts) : Decidable t.Clocked := inferInstanceAs (Decidable (_ ∧ _))

theorem since_eq {t now : Ts} (ht : t.Clocked) (hnow : now.Clocked) : t.since now = now.micros - t.micros := by
  unfold Clocked i64Max at ht hnow
  exact wrapI64_of_mem (by unfold i64Min; omega) (by unfold i64Max; omega)

end Ts

end MobiusSearcher
