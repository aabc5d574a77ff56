/-
# The cost model

`crates/core/src/costs.rs`, with the leg it reads (`model.rs`). Everything is
in lamports. What a leg carries beyond the amounts, tolerances and times the
modelled functions read is left out.

Key definitions: `Leg`, `CostBreakdown`, `CostBreakdown.total`, `computeCosts`.
-/
import MobiusSearcher.Core.Units

namespace MobiusSearcher

open Machine

/-- An account address; only its identity is used. -/
structure Address where
  id : ℕ
  deriving DecidableEq, Repr

inductive SlippageSpec
  | rtse
  | fixed (bps : ℕ)
  deriving DecidableEq, Repr

/-- One swap leg. -/
structure Leg where
  inputMint : Address
  outputMint : Address
  inAmount : ℕ
  outAmount : ℕ
  /-- Minimum output after slippage. -/
  minOut : ℕ
  slippageBps : ℕ
  quotedAt : Ts
  /-- Compute unit price the provider suggested. -/
  cuPriceMicro : Option ℕ
  deriving DecidableEq, Repr

inductive CostSource
  | quote
  | simulated
  deriving DecidableEq, Repr

structure CostBreakdown where
  source : CostSource
  txCount : ℕ
  signatures : ℕ
  baseFee : ℕ
  computeUnitsLimit : ℕ
  computeUnitsUsed : Option ℕ
  computeUnitPriceMicro : ℕ
  priorityFee : ℕ
  jitoTip : ℕ
  /-- Deposits: capital, not part of `total`. -/
  ataRent : ℕ
  atasCreated : ℕ
  expectedSlippage : ℕ
  safetyBuffer : ℕ
  platformFee : ℕ
  deriving DecidableEq, Repr

namespace CostBreakdown

/-- Everything subtracted from gross PnL. -/
def total (c : CostBreakdown) : ℕ :=
  satAddU64 (satAddU64 (satAddU64 (satAddU64 (satAddU64 c.baseFee c.priorityFee) c.jitoTip)
    c.expectedSlippage) c.safetyBuffer) c.platformFee

end CostBreakdown

structure CostParams where
  cuMargin : Ppm
  estCuPerLeg : ℕ
  maxCuPriceMicro : ℕ
  expectedSlippageShare : Ppm
  safetyBufferLamports : ℕ
  safetyBuffer : Ppm
  tokenAccountRent : ℕ
  maxNewDeposit : ℕ
  deriving DecidableEq, Repr

/-- The defaults of the configuration. -/
def CostParams.default : CostParams where
  cuMargin := ⟨200000⟩
  estCuPerLeg := 300000
  maxCuPriceMicro := 200000
  expectedSlippageShare := ⟨250000⟩
  safetyBufferLamports := 5000
  safetyBuffer := Ppm.fromBps 1
  tokenAccountRent := tokenAccountRentLamports
  maxNewDeposit := 3000000

/-- How the cycle is packaged into transactions. -/
structure TxShape where
  txCount : ℕ
  signaturesPerTx : ℕ
  deriving DecidableEq, Repr

namespace TxShape

def single : TxShape := ⟨1, 1⟩

/-- One transaction a leg; the count is a `u8`. -/
def bundle (legs : ℕ) : TxShape := ⟨max legs 1 % 256, 1⟩

end TxShape

structure CostInputs where
  legs : List Leg
  input : ℕ
  shape : TxShape
  /-- Simulated consumption per transaction; `none`: estimate. -/
  cuUsed : Option (List ℕ)
  cuPriceMicro : ℕ
  jitoTip : ℕ
  atasToCreate : ℕ
  platformFee : ℕ

def satAddU32 (a b : ℕ) : ℕ := min (a + b) (2 ^ 32 - 1)

/-- `share × (out − min_out)` of the final leg. -/
def expectedSlippage (legs : List Leg) (share : Ppm) : ℕ :=
  match legs.getLast? with
  | none => 0
  | some last =>
    wrapU64 (divCeil ((last.outAmount - last.minOut) * (min share.val.toNat ppmOne)) ppmOne)

def safetyBuffer (input : ℕ) (p : CostParams) : ℕ :=
  satAddU64 p.safetyBufferLamports (wrapU64 (divCeil (input * p.safetyBuffer.val.toNat) ppmOne))

/-- The compute-unit limits of the transactions, the units used when
simulated, and where the limits come from. -/
def cuLimits (inp : CostInputs) (p : CostParams) : Option (List ℕ × Option ℕ × CostSource) :=
  let estimate :=
    let perTx := min (min (p.estCuPerLeg * max inp.legs.length 1) (2 ^ 32 - 1) / max inp.shape.txCount 1)
      maxComputeUnitsPerTx
    (List.replicate (max inp.shape.txCount 1) perTx, none, CostSource.quote)
  match inp.cuUsed with
  | none => some estimate
  | some used =>
    if used = [] then some estimate
    else (used.mapM fun u => cuLimitWithMargin u p.cuMargin).map fun limits =>
      (limits, some (used.foldl satAddU32 0), .simulated)

def computeCosts (inp : CostInputs) (p : CostParams) : Option CostBreakdown :=
  let txCount := max inp.shape.txCount 1
  let signatures := min (txCount * max inp.shape.signaturesPerTx 1) 255
  let cuPrice := min inp.cuPriceMicro p.maxCuPriceMicro
  (cuLimits inp p).map fun (limits, used, source) =>
    { source
      txCount
      signatures
      baseFee := baseFeeLamportsPerSignature * signatures
      computeUnitsLimit := limits.foldl satAddU32 0
      computeUnitsUsed := used
      computeUnitPriceMicro := cuPrice
      priorityFee := (limits.map fun l => priorityFeeLamports l cuPrice).foldl satAddU64 0
      jitoTip := inp.jitoTip
      ataRent := wrapU64 (p.tokenAccountRent * inp.atasToCreate)
      atasCreated := inp.atasToCreate
      expectedSlippage := expectedSlippage inp.legs p.expectedSlippageShare
      safetyBuffer := safetyBuffer inp.input p
      platformFee := inp.platformFee }

end MobiusSearcher
