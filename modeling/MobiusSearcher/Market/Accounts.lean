/-
# Watched accounts

`crates/market/src/accounts.rs`: the mid price of a pool and a Pyth price,
read from fields at fixed offsets of an account. A price is one that is finite
and above zero. `powi` of the standard library, whose rounding is not
specified, is a parameter.

Key definitions: `decodePool`, `PoolMid.priceOf`, `decodePythPriceUpdate`.
-/
import MobiusSearcher.Amm.Decode
import MobiusSearcher.Core.Costs
import MobiusSearcher.Lib.Binary64

namespace MobiusSearcher
namespace Market

open FloatOps Amm

/-- An unsigned integer of `n` bytes, if the account is long enough. -/
def uint (n : ℕ) (d : Bytes) (offset : ℕ) : Option ℕ :=
  if offset + n ≤ d.length then some (le (d.slice offset n)) else none

/-- The 32 bytes of an address. -/
def addr (d : Bytes) (offset : ℕ) : Option Address :=
  if offset + 32 ≤ d.length then some ⟨(d.slice offset 32).foldl (fun v b => v * 256 + b.toNat) 0⟩ else none

def whirlpoolProgram : String := "whirLbMiicVdio4qvUfM5KAg6Ct8VwpYzGff3uctyCc"
def raydiumClmmProgram : String := "CAMMCzo5YL8w4VFF8KVHrK22GGUsp5VTaW7grrKgrWqK"
def meteoraDlmmProgram : String := "LBUZKhRxPF3XUpBCjp4YzTKgLccjZhTSDM9YuVaPwxo"
/-- Pyth Solana receiver: owner of `PriceUpdateV2` accounts. -/
def pythReceiverProgram : String := "rec5EKMGg6MxZYaMdyBfgwp4d5rB9T1VQH5pJv5LtFJ"

def poolProgram : PoolKind → String
  | .whirlpool => whirlpoolProgram
  | .raydiumClmm => raydiumClmmProgram
  | .meteoraDlmm => meteoraDlmmProgram

/-- Pool state reduced to its mid price. -/
structure PoolMid where
  mintA : Address
  mintB : Address
  /-- Whole B per whole A. -/
  priceAInB : Binary64

/-- Price of `base` in `quote`, whichever order the pool stores them in. -/
def PoolMid.priceOf (m : PoolMid) (base quote : Address) : Option Binary64 :=
  if m.mintA = base ∧ m.mintB = quote then some m.priceAInB
  else if m.mintB = base ∧ m.mintA = quote then some (lit 1 / m.priceAInB)
  else none

/-- `is_finite() && > 0.0`. -/
def isPrice (x : Binary64) : Bool :=
  match x with
  | .fin _ => lt (lit 0) x
  | _ => false

variable (powi : Binary64 → ℤ → Binary64)

def sqrtX64Price (d : Bytes) (offset : ℕ) (decA decB : ℕ) : Option Binary64 :=
  (uint 16 d offset).map fun sp =>
    let r := lit sp / lit (2 ^ 64)
    r * r * powi (lit 10) (decA - decB)

/-- Mid price from pool account data; `decimals` resolves the pool's mints. -/
def decodePool (kind : PoolKind) (d : Bytes) (decimals : Address → Option ℕ) : Option PoolMid := do
  let (a, b, price) ← match kind with
    | .whirlpool => do
      let a ← addr d 101
      let b ← addr d 181
      let decA ← decimals a
      let decB ← decimals b
      let price ← sqrtX64Price powi d 65 decA decB
      pure (a, b, price)
    | .raydiumClmm => do
      let a ← addr d 73
      let b ← addr d 105
      let decA ← uint 1 d 233
      let decB ← uint 1 d 234
      let price ← sqrtX64Price powi d 253 decA decB
      pure (a, b, price)
    | .meteoraDlmm => do
      let a ← addr d 88
      let b ← addr d 120
      let id ← uint 4 d 76
      let step ← uint 2 d 80
      let decA ← decimals a
      let decB ← decimals b
      let adj := powi (lit 10) (decA - decB)
      pure (a, b, powi (lit 1 + lit step / lit 10000) (signed 32 id) * adj)
  if isPrice price then some ⟨a, b, price⟩ else none

/-- Latest price from a Pyth `PriceUpdateV2` account. -/
structure OracleQuote where
  feedId : List UInt8
  price : Binary64
  conf : Binary64
  publishTime : ℤ
  postedSlot : ℕ

/-- After the discriminator, the write authority and the verification level
(one byte for `Full`, two for `Partial`): the price message and the slot. -/
def decodePythPriceUpdate (d : Bytes) : Option OracleQuote := do
  let level ← uint 1 d 40
  let off ← if level = 0 then some 42 else if level = 1 then some 41 else none
  let feedId ← if off + 32 ≤ d.length then some (d.slice off 32) else none
  let mantissa ← uint 8 d (off + 32)
  let conf ← uint 8 d (off + 40)
  let expo ← uint 4 d (off + 48)
  let publishTime ← uint 8 d (off + 52)
  let postedSlot ← uint 8 d (off + 84)
  let scale := powi (lit 10) (signed 32 expo)
  let price := lit (signed 64 mantissa) * scale
  if isPrice price then some ⟨feedId, price, lit conf * scale, signed 64 publishTime, postedSlot⟩ else none

end Market
end MobiusSearcher
