/-
# Encoding a transaction

`crates/venues/src/evm_sign.rs`: an EIP-1559 transaction is the byte 2 and an RLP
list of its fields; what is signed is a hash of it, what is sent has the
signature's three numbers behind (`encodeSigned`). The encoders write each number
without leading zeros and each length in the form for its size.

The data's length is one a `Vec` can have.

Key definitions: `rlpBytes`, `rlpUint`, `rlpList`, `Tx1559`, `Tx1559.payload`,
`Tx1559.encodeSigned`.
Key theorems: `rlpBytes_canonical`, `Tx1559.payload_encoded`,
`Tx1559.encoding_injective_and_canonical`.
-/
import MobiusSearcher.Lib.Rlp

namespace MobiusSearcher
namespace Venues

open Rlp

/-! ### The encoders -/

/-- The `n` low bytes, most significant first. -/
def toBeBytes : ℕ → ℕ → List UInt8
  | 0, _ => []
  | n + 1, v => toBeBytes n (v / 256) ++ [UInt8.ofNat v]

/-- From the first byte that is not zero. -/
def strip (bs : List UInt8) : List UInt8 := bs.drop (bs.findIdx (· ≠ 0))

def beMinimal (v : BitVec 128) : List UInt8 := strip (toBeBytes 16 v.toNat)

def rlpLenPrefix (len : ℕ) (short long : UInt8) : List UInt8 :=
  if len ≤ 55 then [short + UInt8.ofNat len]
  else (long + UInt8.ofNat (beMinimal (BitVec.ofNat 128 len)).length) :: beMinimal (BitVec.ofNat 128 len)

def rlpBytes (b : List UInt8) : List UInt8 :=
  if b.length = 1 ∧ b.all (· < 0x80) then b else rlpLenPrefix b.length 0x80 0xb7 ++ b

def rlpUint (v : BitVec 128) : List UInt8 := rlpBytes (beMinimal v)

/-- A list of already-encoded items. -/
def rlpList (items : List (List UInt8)) : List UInt8 := rlpLenPrefix items.flatten.length 0xc0 0xf7 ++ items.flatten

/-- EIP-1559 transaction (no access list). -/
structure Tx1559 where
  chainId : UInt64
  nonce : UInt64
  maxPriorityFeePerGas : BitVec 128
  maxFeePerGas : BitVec 128
  gasLimit : UInt64
  toAddr : Vector UInt8 20
  value : BitVec 128
  data : List UInt8
  data_lt : data.length < 2 ^ 63

namespace Tx1559

def fields (t : Tx1559) : List (List UInt8) :=
  [rlpUint (BitVec.ofNat 128 t.chainId.toNat),
    rlpUint (BitVec.ofNat 128 t.nonce.toNat),
    rlpUint t.maxPriorityFeePerGas,
    rlpUint t.maxFeePerGas,
    rlpUint (BitVec.ofNat 128 t.gasLimit.toNat),
    rlpBytes t.toAddr.toList,
    rlpUint t.value,
    rlpBytes t.data,
    rlpList []]

/-- What is hashed to be signed. -/
def payload (t : Tx1559) : List UInt8 := 0x02 :: rlpList t.fields

/-- What `eth_sendRawTransaction` takes. -/
def encodeSigned (t : Tx1559) (yParity : UInt8) (r s : Vector UInt8 32) : List UInt8 :=
  0x02 :: rlpList (t.fields ++
    [rlpUint (BitVec.ofNat 128 yParity.toNat), rlpBytes (strip r.toList), rlpBytes (strip s.toList)])

end Tx1559

/-! ### Numbers without leading zeros -/

theorem value_toBeBytes : ∀ n v : ℕ, value (toBeBytes n v) = v % 256 ^ n
  | 0, v => by simp [toBeBytes, value, Nat.mod_one]
  | n + 1, v => by
    rw [toBeBytes, value_concat, value_toBeBytes n, pow_succ, Nat.mul_comm (256 ^ n), Nat.mod_mul]
    simp
    omega

theorem length_toBeBytes : ∀ n v : ℕ, (toBeBytes n v).length = n
  | 0, _ => rfl
  | n + 1, v => by simp [toBeBytes, length_toBeBytes n]

theorem strip_zero (bs : List UInt8) : strip (0 :: bs) = strip bs := by simp [strip, List.findIdx_cons]

theorem strip_cons {b : UInt8} (hb : b ≠ 0) (bs : List UInt8) : strip (b :: bs) = b :: bs := by
  simp [strip, List.findIdx_cons, hb]

theorem strip_spec (bs : List UInt8) :
    (strip bs).head? ≠ some 0 ∧ value (strip bs) = value bs ∧ (strip bs).length ≤ bs.length := by
  induction bs with
  | nil => simp [strip]
  | cons b bs ih =>
    by_cases hb : b = 0
    · rw [hb, strip_zero, value_cons_zero]
      exact ⟨ih.1, ih.2.1, ih.2.2.trans (Nat.le_succ _)⟩
    · simp [strip_cons hb, hb]

theorem beMinimal_spec (v : BitVec 128) :
    (beMinimal v).head? ≠ some 0 ∧ value (beMinimal v) = v.toNat ∧ (beMinimal v).length ≤ 16 := by
  obtain ⟨hmin, hvalue, hlen⟩ := strip_spec (toBeBytes 16 v.toNat)
  rw [value_toBeBytes, Nat.mod_eq_of_lt (lt_of_lt_of_eq v.isLt (by norm_num))] at hvalue
  rw [length_toBeBytes] at hlen
  exact ⟨hmin, hvalue, hlen⟩

/-- Without leading zeros, a number takes as many bytes as it has to. -/
theorem pow_le_value : ∀ {b : UInt8} {bs : List UInt8}, b ≠ 0 → 256 ^ bs.length ≤ value (b :: bs) := by
  intro b bs hb
  induction bs using List.reverseRecOn with
  | nil =>
    have : b.toNat ≠ 0 := fun h => hb (UInt8.toNat_inj.mp h)
    simp only [List.length_nil, pow_zero, value, List.foldl_cons, List.foldl_nil]
    omega
  | append_singleton bs c ih =>
    rw [← List.cons_append, value_concat, List.length_append, List.length_singleton, pow_succ]
    omega

theorem length_le_of_value_lt {bs : List UInt8} {n : ℕ} (hmin : bs.head? ≠ some 0) (h : value bs < 256 ^ n) :
    bs.length ≤ n := by
  cases bs with
  | nil => exact Nat.zero_le n
  | cons b bs =>
    have hb : b ≠ 0 := by simpa using hmin
    have hlt := lt_of_le_of_lt (@pow_le_value b bs hb) h
    exact (Nat.pow_lt_pow_iff_right (by omega)).mp hlt

/-! ### What the encoders write is canonical -/

/-- A length's prefix is the header of its kind. -/
theorem rlpLenPrefix_header {len : ℕ} (hlen : len < 2 ^ 64) (k : Kind) :
    Header k len (rlpLenPrefix len (UInt8.ofNat k.base) (UInt8.ofNat (k.base + 55))) := by
  unfold rlpLenPrefix
  split
  · rename_i h
    rw [← UInt8.ofNat_add]
    exact .short h
  · rename_i h
    obtain ⟨hmin, hvalue, -⟩ := beMinimal_spec (BitVec.ofNat 128 len)
    rw [BitVec.toNat_ofNat, Nat.mod_eq_of_lt (by omega)] at hvalue
    rw [← UInt8.ofNat_add]
    refine .long (not_le.mp h) hvalue hmin (length_le_of_value_lt hmin ?_)
    rw [hvalue]
    exact lt_of_lt_of_eq hlen (by norm_num)

theorem rlpBytes_canonical {bs : List UInt8} (hlen : bs.length < 2 ^ 64) : Canonical (.bytes bs) (rlpBytes bs) := by
  unfold rlpBytes
  split
  · rename_i h
    obtain ⟨b, rfl⟩ := List.length_eq_one_iff.mp h.1
    exact .byte (by simpa [UInt8.lt_iff_toNat_lt] using h.2)
  · rename_i h
    refine .bytes (fun b hb => ?_) (rlpLenPrefix_header hlen .bytes)
    subst hb
    simpa [UInt8.lt_iff_toNat_lt] using h

theorem rlpUint_canonical (v : BitVec 128) : ∃ x, IsUint v.toNat x ∧ Canonical x (rlpUint v) := by
  obtain ⟨hmin, hvalue, hlen⟩ := beMinimal_spec v
  exact ⟨_, ⟨_, rfl, hmin, hvalue⟩, rlpBytes_canonical (by omega)⟩

theorem canonicalAll_flatten {items : List Item} {encs : List (List UInt8)} (h : List.Forall₂ Canonical items encs) :
    CanonicalAll items encs.flatten := by
  induction h with
  | nil => exact .nil
  | cons hx _ ih => exact .cons hx ih

theorem rlpList_canonical {items : List Item} {encs : List (List UInt8)} (h : List.Forall₂ Canonical items encs)
    (hlen : encs.flatten.length < 2 ^ 64) : Canonical (.list items) (rlpList encs) :=
  .list (canonicalAll_flatten h) (rlpLenPrefix_header hlen .list)

theorem length_rlpBytes (bs : List UInt8) : (rlpBytes bs).length ≤ bs.length + 17 := by
  have hprefix : ∀ n short long, (rlpLenPrefix n short long).length ≤ 17 := by
    intro n short long
    unfold rlpLenPrefix
    split
    · simp
    · have := (beMinimal_spec (BitVec.ofNat 128 n)).2.2
      simp only [List.length_cons]
      omega
  unfold rlpBytes
  split
  · omega
  · have := hprefix bs.length 0x80 0xb7
    rw [List.length_append]
    omega

theorem length_rlpUint (v : BitVec 128) : (rlpUint v).length ≤ 33 := by
  have hlen := length_rlpBytes (beMinimal v)
  have := (beMinimal_spec v).2.2
  unfold rlpUint
  omega

namespace Tx1559

/-- The items that stand for a transaction's fields. -/
def Fields (t : Tx1559) (items : List Item) : Prop :=
  ∃ chainId nonce priority fee gas value, items = [chainId, nonce, priority, fee, gas, .bytes t.toAddr.toList, value,
    .bytes t.data, .list []] ∧ IsUint t.chainId.toNat chainId ∧ IsUint t.nonce.toNat nonce ∧
    IsUint t.maxPriorityFeePerGas.toNat priority ∧ IsUint t.maxFeePerGas.toNat fee ∧ IsUint t.gasLimit.toNat gas ∧
    IsUint t.value.toNat value

/-- The canonical encoding of the fields. -/
def Encoded (t : Tx1559) (e : List UInt8) : Prop :=
  ∃ items enc, e = 0x02 :: enc ∧ t.Fields items ∧ Canonical (.list items) enc

/-- The canonical encoding of the fields and the signature's numbers. -/
def SignedEncoded (t : Tx1559) (yParity : UInt8) (r s : Vector UInt8 32) (e : List UInt8) : Prop :=
  ∃ items y r' s' enc, e = 0x02 :: enc ∧ t.Fields items ∧ IsUint yParity.toNat y ∧ IsUint (Rlp.value r.toList) r' ∧
    IsUint (Rlp.value s.toList) s' ∧ Canonical (.list (items ++ [y, r', s'])) enc

theorem uint64_canonical (n : UInt64) : ∃ x, IsUint n.toNat x ∧ Canonical x (rlpUint (BitVec.ofNat 128 n.toNat)) := by
  obtain ⟨x, hx, henc⟩ := rlpUint_canonical (BitVec.ofNat 128 n.toNat)
  rw [BitVec.toNat_ofNat, Nat.mod_eq_of_lt (by have := n.toNat_lt; omega)] at hx
  exact ⟨x, hx, henc⟩

theorem fields_canonical (t : Tx1559) : ∃ items, t.Fields items ∧ List.Forall₂ Canonical items t.fields := by
  obtain ⟨chainId, hchain, echain⟩ := uint64_canonical t.chainId
  obtain ⟨nonce, hnonce, enonce⟩ := uint64_canonical t.nonce
  obtain ⟨priority, hpriority, epriority⟩ := rlpUint_canonical t.maxPriorityFeePerGas
  obtain ⟨fee, hfee, efee⟩ := rlpUint_canonical t.maxFeePerGas
  obtain ⟨gas, hgas, egas⟩ := uint64_canonical t.gasLimit
  obtain ⟨value, hvalue, evalue⟩ := rlpUint_canonical t.value
  have eto : Canonical (.bytes t.toAddr.toList) (rlpBytes t.toAddr.toList) := rlpBytes_canonical (by simp)
  have edata : Canonical (.bytes t.data) (rlpBytes t.data) := rlpBytes_canonical (by have := t.data_lt; omega)
  have eaccess : Canonical (.list []) (rlpList []) := rlpList_canonical .nil (by simp)
  refine ⟨_, ⟨chainId, nonce, priority, fee, gas, value, rfl, hchain, hnonce, hpriority, hfee, hgas, hvalue⟩, ?_⟩
  unfold fields
  repeat' constructor
  all_goals assumption

theorem length_fields (t : Tx1559) : t.fields.flatten.length < 2 ^ 63 + 2 ^ 10 := by
  have hint := length_rlpUint
  have hto := length_rlpBytes t.toAddr.toList
  have hdata := length_rlpBytes t.data
  have haccess : (rlpList []).length = 1 := by decide
  have hlt := t.data_lt
  rw [Vector.length_toList] at hto
  unfold fields
  simp only [List.flatten_cons, List.flatten_nil, List.length_append, List.length_nil]
  have h₁ := hint (BitVec.ofNat 128 t.chainId.toNat)
  have h₂ := hint (BitVec.ofNat 128 t.nonce.toNat)
  have h₃ := hint t.maxPriorityFeePerGas
  have h₄ := hint t.maxFeePerGas
  have h₅ := hint (BitVec.ofNat 128 t.gasLimit.toNat)
  have h₆ := hint t.value
  omega

theorem payload_encoded (t : Tx1559) : t.Encoded t.payload := by
  obtain ⟨items, hitems, henc⟩ := t.fields_canonical
  have := t.length_fields
  exact ⟨items, _, rfl, hitems, rlpList_canonical henc (by omega)⟩

theorem signed_encoded (t : Tx1559) (yParity : UInt8) (r s : Vector UInt8 32) :
    t.SignedEncoded yParity r s (t.encodeSigned yParity r s) := by
  obtain ⟨items, hitems, henc⟩ := t.fields_canonical
  obtain ⟨y, hy, ey⟩ := rlpUint_canonical (BitVec.ofNat 128 yParity.toNat)
  rw [BitVec.toNat_ofNat, Nat.mod_eq_of_lt (by have := yParity.toNat_lt; omega)] at hy
  have hscalar : ∀ x : Vector UInt8 32, (strip x.toList).length ≤ 32 := by
    intro x
    have := (strip_spec x.toList).2.2
    rwa [Vector.length_toList] at this
  have huint : ∀ x : Vector UInt8 32, IsUint (Rlp.value x.toList) (.bytes (strip x.toList)) := fun x =>
    ⟨_, rfl, (strip_spec x.toList).1, (strip_spec x.toList).2.1⟩
  have hcanonical : ∀ x : Vector UInt8 32, Canonical (.bytes (strip x.toList)) (rlpBytes (strip x.toList)) := fun x =>
    rlpBytes_canonical (by have := hscalar x; omega)
  refine ⟨items, y, _, _, _, rfl, hitems, hy, huint r, huint s, rlpList_canonical (List.rel_append henc ?_) ?_⟩
  · exact .cons ey (.cons (hcanonical r) (.cons (hcanonical s) .nil))
  · have hfields := t.length_fields
    have hy := length_rlpUint (BitVec.ofNat 128 yParity.toNat)
    have hr := length_rlpBytes (strip r.toList)
    have hs := length_rlpBytes (strip s.toList)
    have hr' := hscalar r
    have hs' := hscalar s
    simp only [List.flatten_append, List.flatten_cons, List.flatten_nil, List.length_append, List.length_nil]
    omega

/-- The items tell the transaction. -/
theorem Fields.unique {t t' : Tx1559} {items : List Item} (h : t.Fields items) (h' : t'.Fields items) : t = t' := by
  obtain ⟨chainId, nonce, priority, fee, gas, value, rfl, hchain, hnonce, hpriority, hfee, hgas, hvalue⟩ := h
  obtain ⟨_, _, _, _, _, _, he, hchain', hnonce', hpriority', hfee', hgas', hvalue'⟩ := h'
  simp only [List.cons.injEq, Item.bytes.injEq] at he
  obtain ⟨rfl, rfl, rfl, rfl, rfl, hto, rfl, hdata, -⟩ := he
  obtain ⟨⟩ := t
  obtain ⟨⟩ := t'
  simp only [mk.injEq]
  exact ⟨UInt64.toNat_inj.mp (hchain.unique hchain'), UInt64.toNat_inj.mp (hnonce.unique hnonce'),
    BitVec.eq_of_toNat_eq (hpriority.unique hpriority'), BitVec.eq_of_toNat_eq (hfee.unique hfee'),
    UInt64.toNat_inj.mp (hgas.unique hgas'), Vector.toList_inj.mp hto, BitVec.eq_of_toNat_eq (hvalue.unique hvalue'), hdata⟩

theorem Fields.length {t : Tx1559} {items : List Item} (h : t.Fields items) : items.length = 9 := by
  obtain ⟨_, _, _, _, _, _, rfl, -⟩ := h
  rfl

theorem scalar_injective {r r' : Vector UInt8 32} (h : Rlp.value r.toList = Rlp.value r'.toList) : r = r' :=
  Vector.toList_inj.mp (value_injective (by simp) h)

/-- **Encoding is injective and canonical.** Two transactions have two payloads to sign, and two signed encodings
unless their signatures are the same as well; and each of these is the canonical encoding of the fields. -/
theorem encoding_injective_and_canonical :
    (∀ t t' : Tx1559, t ≠ t' → t.payload ≠ t'.payload) ∧
      (∀ (t t' : Tx1559) (y y' : UInt8) (r r' s s' : Vector UInt8 32), (t, y, r, s) ≠ (t', y', r', s') →
        t.encodeSigned y r s ≠ t'.encodeSigned y' r' s') ∧
      (∀ t : Tx1559, t.Encoded t.payload) ∧
      (∀ (t : Tx1559) (y : UInt8) (r s : Vector UInt8 32), t.SignedEncoded y r s (t.encodeSigned y r s)) := by
  refine ⟨fun t t' hne he => hne ?_, fun t t' y y' r r' s s' hne he => hne ?_, payload_encoded, signed_encoded⟩
  · obtain ⟨items, enc, hpayload, hitems, henc⟩ := t.payload_encoded
    obtain ⟨items', enc', hpayload', hitems', henc'⟩ := t'.payload_encoded
    rw [hpayload, hpayload'] at he
    obtain rfl := (List.cons.inj he).2
    obtain rfl := Item.list.inj (henc.injective henc')
    exact hitems.unique hitems'
  · obtain ⟨items, iy, ir, is, enc, hsigned, hitems, hy, hr, hs, henc⟩ := t.signed_encoded y r s
    obtain ⟨items', iy', ir', is', enc', hsigned', hitems', hy', hr', hs', henc'⟩ := t'.signed_encoded y' r' s'
    rw [hsigned, hsigned'] at he
    obtain rfl := (List.cons.inj he).2
    obtain ⟨rfl, htail⟩ := List.append_inj (Item.list.inj (henc.injective henc'))
      (hitems.length.trans hitems'.length.symm)
    simp only [List.cons.injEq, and_true] at htail
    obtain ⟨rfl, rfl, rfl⟩ := htail
    rw [hitems.unique hitems', UInt8.toNat_inj.mp (hy.unique hy'), scalar_injective (hr.unique hr'),
      scalar_injective (hs.unique hs')]

end Tx1559

end Venues
end MobiusSearcher
