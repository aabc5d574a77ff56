/-
# Transactions put together from legs

`crates/execution/src/assemble.rs`: a leg's instructions in the order setup,
swap, cleanup, other, with the `CreateIdempotent` of token accounts known to
exist left out, all legs in one transaction or one transaction a leg. Message
compilation and serialization are another crate's: a parameter here
(`Codec`), with the size it gives.

An instruction of a leg is marked where it is the leg's swap (`Placed`); the
code keeps no such mark, and nothing it does depends on it.

Key definitions: `LegInstructions`, `legInstructions`, `composeSingle`,
`composeBundle`, `messageAccountKeys`.
Key theorems: `composeSingle_eq_ok`, `bundleFrom_cons`.
-/
import MobiusSearcher.Core.Model
import MobiusSearcher.Lib.Table
import Mathlib.Data.Finset.Basic

namespace MobiusSearcher
namespace Assemble

structure RawAccountMeta where
  pubkey : Address
  isSigner : Bool
  isWritable : Bool
  deriving DecidableEq, Repr

structure RawInstruction where
  programId : Address
  accounts : List RawAccountMeta
  data : List ℕ
  deriving DecidableEq, Repr

/-- What puts one swap leg into a transaction. -/
structure LegInstructions where
  setup : List RawInstruction
  swap : RawInstruction
  cleanup : Option RawInstruction
  other : List RawInstruction
  /-- Address lookup tables: table address, addresses in table order. -/
  lookupTables : List (Address × List Address)
  deriving DecidableEq, Repr

/-! ### Well-known addresses, by the value of their 32 bytes -/

def wsolMint : Address := ⟨0x69b8857feab8184fb687f634618c035dac439dc1aeb3b5598a0f00000000001⟩
def computeBudgetProgram : Address := ⟨0x306466fe5211732ffecadba72c39be7bc8ce5bbc5f7126b2c439b3a40000000⟩
def systemProgram : Address := ⟨0⟩
def tokenProgram : Address := ⟨0x6ddf6e1d765a193d9cbe146ceeb79ac1cb485ed5f5b37913a8cf5857eff00a9⟩
def token2022Program : Address := ⟨0x6ddf6e1ee758fde18425dbce46ccddab61afc4d83b90d27febdf928d8a18bfc⟩
def associatedTokenProgram : Address := ⟨0x8c97258f4e2489f1bb3d1029148e0d830b5a1399daff1084048e7bd8dbe9f859⟩

def maxTxBytes : ℕ := 1232
def maxTxAccounts : ℕ := 64

/-! ### Instructions -/

/-- The bytes of an integer, the lowest first. -/
def leBytes : ℕ → ℕ → List ℕ
  | 0, _ => []
  | n + 1, v => v % 256 :: leBytes n (v / 256)

def computeBudgetIx (data : List ℕ) : RawInstruction := ⟨computeBudgetProgram, [], data⟩

def setCuLimitIx (units : ℕ) : RawInstruction := computeBudgetIx (2 :: leBytes 4 units)

def setCuPriceIx (microLamports : ℕ) : RawInstruction := computeBudgetIx (3 :: leBytes 8 microLamports)

def systemTransferIx (source dest : Address) (lamports : ℕ) : RawInstruction :=
  ⟨systemProgram, [⟨source, true, true⟩, ⟨dest, false, true⟩], leBytes 4 2 ++ leBytes 8 lamports⟩

/-- The account a `CreateIdempotent` is for. -/
def ataCreateTarget (ix : RawInstruction) : Option Address :=
  if ix.programId = associatedTokenProgram ∧ ix.data = [1] then ix.accounts[1]?.map RawAccountMeta.pubkey else none

/-- The account a `CloseAccount` closes. -/
def tokenCloseTarget (ix : RawInstruction) : Option Address :=
  if (ix.programId = tokenProgram ∨ ix.programId = token2022Program) ∧ ix.data.head? = some 9 then
    ix.accounts.head?.map RawAccountMeta.pubkey
  else none

/-- Wrapped SOL accounts are volatile: their `CreateIdempotent` is never left out. -/
def isWsolCreate (ix : RawInstruction) : Bool :=
  (ataCreateTarget ix).isSome && ix.accounts[3]?.map RawAccountMeta.pubkey = some wsolMint

/-- An instruction, and whether it is its leg's swap. -/
structure Placed where
  ix : RawInstruction
  isSwap : Bool
  deriving DecidableEq, Repr

def plain (ix : RawInstruction) : Placed := ⟨ix, false⟩

/-! ### One leg -/

/-- The accounts that exist at this point of a transaction, and those it has created so far. -/
structure Known where
  existing : Finset Address
  creates : List Address
  deriving DecidableEq

/-- A `CreateIdempotent` that is kept. -/
def Known.create (k : Known) (ata : Address) : Known where
  existing := insert ata k.existing
  creates := if ata ∈ k.creates then k.creates else k.creates ++ [ata]

/-- An instruction after the swap: what it closes is gone, and if it was created
in this transaction, nothing of it stays locked. -/
def Known.close (k : Known) (ix : RawInstruction) : Known :=
  match tokenCloseTarget ix with
  | some closed => { existing := k.existing.erase closed, creates := k.creates.filter (· ≠ closed) }
  | none => k

/-- The setup instructions that are kept. -/
def setupInstructions : List RawInstruction → Known → List RawInstruction × Known
  | [], k => ([], k)
  | ix :: ixs, k =>
    match ataCreateTarget ix with
    | some ata =>
      if ata ∈ k.existing ∧ ¬isWsolCreate ix then setupInstructions ixs k
      else
        let rest := setupInstructions ixs (k.create ata)
        (ix :: rest.1, rest.2)
    | none =>
      let rest := setupInstructions ixs k
      (ix :: rest.1, rest.2)

/-- The instructions after the swap. -/
def LegInstructions.after (leg : LegInstructions) : List RawInstruction := leg.cleanup.toList ++ leg.other

/-- Instructions of one leg. -/
def legInstructions (leg : LegInstructions) (k : Known) : List Placed × Known :=
  let setup := setupInstructions leg.setup k
  (setup.1.map plain ++ ⟨leg.swap, true⟩ :: leg.after.map plain, leg.after.foldl Known.close setup.2)

/-- Instructions of several legs of one transaction. -/
def legsInstructions : List LegInstructions → Known → List Placed × Known
  | [], k => ([], k)
  | leg :: legs, k =>
    let first := legInstructions leg k
    let rest := legsInstructions legs first.2
    (first.1 ++ rest.1, rest.2)

/-! ### Transactions -/

structure AssemblyParams where
  payer : Address
  cuLimit : ℕ
  cuPriceMicro : ℕ
  /-- Tip account and lamports; never referenced through a lookup table. -/
  tip : Option (Address × ℕ)
  /-- A read-only account appended to the tip's. -/
  dontFront : Option Address
  /-- Token accounts known to exist. -/
  existingAtas : Finset Address
  blockhash : ℕ

inductive AssemblyError
  | compile (message : String)
  | tooLarge (size : ℕ)
  | tooManyAccounts (n : ℕ)
  | serialize (message : String)
  deriving DecidableEq, Repr

def AssemblyError.isSizeLimit : AssemblyError → Bool
  | .tooLarge _ => true
  | .tooManyAccounts _ => true
  | _ => false

/-- Accounts of a table that a message loads, by their index in it. -/
structure TableLookup where
  accountKey : Address
  writableIndexes : List ℕ
  readonlyIndexes : List ℕ
  deriving DecidableEq, Repr

/-- The accounts of a v0 message. -/
structure Message where
  accountKeys : List Address
  lookups : List TableLookup
  deriving DecidableEq, Repr

/-- The crates that compile a message from its payer, instructions, lookup tables and
blockhash, and write its transaction (the bytes it takes). The instructions stay in
their order. -/
structure Codec where
  tryCompile : Address → List RawInstruction → List (Address × List Address) → ℕ → Except String Message
  wire : Message → List RawInstruction → Except String ℕ

structure AssembledTx where
  /-- The instructions of its message. -/
  ixs : List Placed
  message : Message
  size : ℕ
  accounts : ℕ
  cuLimit : ℕ
  cuPriceMicro : ℕ
  tipLamports : ℕ
  /-- Token accounts this transaction leaves created (rent locked) at its end. -/
  createsAtas : List Address
  /-- `CreateIdempotent` instructions kept. -/
  ataCreateIxs : ℕ
  deriving DecidableEq

def tipIx (p : AssemblyParams) : Option RawInstruction :=
  p.tip.map fun t =>
    let ix := systemTransferIx p.payer t.1 t.2
    { ix with accounts := ix.accounts ++ p.dontFront.toList.map fun df => ⟨df, false, false⟩ }

/-- The tables of the legs, one an address; an excluded account is replaced by a key no
instruction has, so that the others keep their index. -/
def lookupTables (legs : List LegInstructions) (exclude : List Address) : List (Address × List Address) :=
  let tables := (legs.flatMap LegInstructions.lookupTables).foldl
    (fun m t => if t.1 ∈ m.map Prod.fst then m else m ++ [t]) ([] : List (Address × List Address))
  (Table.ordered (fun t => t.1.id) tables).map fun t =>
    (t.1, t.2.map fun a => if a ∈ exclude then ⟨2 ^ 256 - 1⟩ else a)

def loaded (m : Message) : ℕ := (m.lookups.map fun l => l.writableIndexes.length + l.readonlyIndexes.length).sum

/-- The compute budget instructions come first. -/
def budgetIxs (p : AssemblyParams) (cuLimit : ℕ) : List Placed :=
  (setCuLimitIx cuLimit :: if 0 < p.cuPriceMicro then [setCuPriceIx p.cuPriceMicro] else []).map plain

def compile (codec : Codec) (ixs : List Placed) (legs : List LegInstructions) (p : AssemblyParams)
    (cuLimit tipLamports : ℕ) (createsAtas : List Address) : Except AssemblyError AssembledTx := do
  let all := budgetIxs p cuLimit ++ ixs
  let exclude := p.tip.toList.map Prod.fst ++ p.dontFront.toList
  let message ← (codec.tryCompile p.payer (all.map Placed.ix) (lookupTables legs exclude) p.blockhash).mapError .compile
  let accounts := message.accountKeys.length + loaded message
  let size ← (codec.wire message (all.map Placed.ix)).mapError .serialize
  if maxTxAccounts < accounts then throw (.tooManyAccounts accounts)
  else if maxTxBytes < size then throw (.tooLarge size)
  else
    pure
      { ixs := all, message, size, accounts, cuLimit, cuPriceMicro := p.cuPriceMicro, tipLamports, createsAtas
        ataCreateIxs := all.countP fun x => (ataCreateTarget x.ix).isSome }

/-- All legs in one transaction. -/
def composeSingle (codec : Codec) (legs : List LegInstructions) (p : AssemblyParams) : Except AssemblyError AssembledTx :=
  let composed := legsInstructions legs { existing := p.existingAtas, creates := [] }
  compile codec (composed.1 ++ (tipIx p).toList.map plain) legs p p.cuLimit (p.tip.elim 0 Prod.snd) composed.2.creates

/-- The transactions of a bundle from leg `i` on: they run one after the other, so what
exists carries over. -/
def bundleFrom (codec : Codec) (p : AssemblyParams) (cuLimits : Option (List ℕ)) :
    ℕ → List LegInstructions → Finset Address → Except AssemblyError (List AssembledTx)
  | _, [], _ => pure []
  | i, leg :: legs, existing => do
    let composed := legInstructions leg { existing, creates := [] }
    let last := legs.isEmpty
    let ixs := if last then composed.1 ++ (tipIx p).toList.map plain else composed.1
    let limit := (cuLimits.bind fun limits => limits[i]?).getD p.cuLimit
    let tip := if last then p.tip.elim 0 Prod.snd else 0
    let tx ← compile codec ixs [leg] p limit tip composed.2.creates
    let txs ← bundleFrom codec p cuLimits (i + 1) legs composed.2.existing
    pure (tx :: txs)

/-- One transaction a leg; the tip is in the last one. -/
def composeBundle (codec : Codec) (legs : List LegInstructions) (p : AssemblyParams) (cuLimits : Option (List ℕ)) :
    Except AssemblyError (List AssembledTx) :=
  bundleFrom codec p cuLimits 0 legs p.existingAtas

/-- The full account list of a message: its own keys, then all loaded writable ones
(in table order), then all loaded readonly ones. -/
def messageAccountKeys (tx : AssembledTx) (legs : List LegInstructions) : Option (List Address) := do
  -- of two tables with one address, the later is the one in the map
  let resolve := fun (key : Address) (i : ℕ) =>
    (((legs.flatMap LegInstructions.lookupTables).reverse.find? fun t => t.1 = key).bind fun t => t.2[i]?)
  let writable ← (tx.message.lookups.flatMap fun l => l.writableIndexes.map fun i => (l.accountKey, i)).mapM
    fun x => resolve x.1 x.2
  let readonly ← (tx.message.lookups.flatMap fun l => l.readonlyIndexes.map fun i => (l.accountKey, i)).mapM
    fun x => resolve x.1 x.2
  some (tx.message.accountKeys ++ writable ++ readonly)

/-! ### Without lookup tables -/

/-- The accounts of a message without lookup tables: the payer, then the other signers,
then the rest, those that are written first and otherwise by address. -/
def plainKeys (payer : Address) (ixs : List RawInstruction) : List Address :=
  let metas := ixs.flatMap fun ix => ix.accounts ++ [⟨ix.programId, false, false⟩]
  let keys := Table.ordered Address.id ((metas.map RawAccountMeta.pubkey).dedup.filter (· ≠ payer))
  let signs := fun a => metas.any fun m => m.pubkey = a && m.isSigner
  let written := fun a => metas.any fun m => m.pubkey = a && m.isWritable
  payer :: (keys.filter fun a => signs a && written a) ++ (keys.filter fun a => signs a && !written a) ++
    (keys.filter fun a => !signs a && written a) ++ keys.filter fun a => !signs a && !written a

/-- Compilation without lookup tables, for one signature and fewer than 128 of anything. -/
def plainCodec : Codec where
  tryCompile payer ixs _ _ := .ok ⟨plainKeys payer ixs, []⟩
  wire m ixs := .ok (1 + 64 + 1 + 3 + 1 + 32 * m.accountKeys.length + 32 + 1 +
    (ixs.map fun ix => 3 + ix.accounts.length + ix.data.length).sum + 1)

/-! ### What a composition gives -/

theorem bind_eq_ok {α β : Type} {x : Except AssemblyError α} {f : α → Except AssemblyError β} {b : β} :
    (x >>= f) = .ok b ↔ ∃ a, x = .ok a ∧ f a = .ok b := by
  cases x with
  | error e => exact ⟨nofun, fun ⟨_, h, _⟩ => nomatch h⟩
  | ok a => exact ⟨fun h => ⟨a, rfl, h⟩, fun ⟨_, h, hf⟩ => by cases h; exact hf⟩

theorem compile_eq_ok {codec : Codec} {ixs : List Placed} {legs : List LegInstructions} {p : AssemblyParams}
    {cuLimit tip : ℕ} {creates : List Address} {tx : AssembledTx}
    (h : compile codec ixs legs p cuLimit tip creates = .ok tx) :
    tx.ixs = budgetIxs p cuLimit ++ ixs ∧ tx.createsAtas = creates ∧ tx.cuLimit = cuLimit ∧
      tx.cuPriceMicro = p.cuPriceMicro ∧ tx.tipLamports = tip := by
  unfold compile at h
  simp only at h
  obtain ⟨message, -, h⟩ := bind_eq_ok.mp h
  obtain ⟨size, -, h⟩ := bind_eq_ok.mp h
  split at h
  · exact nomatch h
  · split at h
    · exact nomatch h
    · rw [← Except.ok.inj h]
      exact ⟨rfl, rfl, rfl, rfl, rfl⟩

theorem composeSingle_eq_ok {codec : Codec} {legs : List LegInstructions} {p : AssemblyParams} {tx : AssembledTx}
    (h : composeSingle codec legs p = .ok tx) :
    tx.ixs = budgetIxs p p.cuLimit ++ ((legsInstructions legs ⟨p.existingAtas, []⟩).1 ++ (tipIx p).toList.map plain) ∧
      tx.createsAtas = (legsInstructions legs ⟨p.existingAtas, []⟩).2.creates := by
  obtain ⟨hixs, hcreates, -⟩ := compile_eq_ok h
  exact ⟨hixs, hcreates⟩

/-- A transaction of a bundle, and those after it. -/
theorem bundleFrom_cons {codec : Codec} {p : AssemblyParams} {cuLimits : Option (List ℕ)} {i : ℕ} {leg : LegInstructions}
    {legs : List LegInstructions} {existing : Finset Address} {txs : List AssembledTx}
    (h : bundleFrom codec p cuLimits i (leg :: legs) existing = .ok txs) :
    ∃ tx rest, txs = tx :: rest ∧
      tx.ixs = budgetIxs p ((cuLimits.bind fun limits => limits[i]?).getD p.cuLimit) ++
        (if legs.isEmpty then (legInstructions leg ⟨existing, []⟩).1 ++ (tipIx p).toList.map plain
          else (legInstructions leg ⟨existing, []⟩).1) ∧
      tx.createsAtas = (legInstructions leg ⟨existing, []⟩).2.creates ∧
      bundleFrom codec p cuLimits (i + 1) legs (legInstructions leg ⟨existing, []⟩).2.existing = .ok rest := by
  unfold bundleFrom at h
  simp only at h
  obtain ⟨tx, htx, h⟩ := bind_eq_ok.mp h
  obtain ⟨rest, hrest, h⟩ := bind_eq_ok.mp h
  obtain ⟨hixs, hcreates, -⟩ := compile_eq_ok htx
  exact ⟨tx, rest, (Except.ok.inj h).symm, hixs, hcreates, hrest⟩

end Assemble
end MobiusSearcher
