/-
# Recursive length prefix

What the canonical encoding of an item is: a byte below 0x80 is itself; any
other byte string and every list stands behind a header with its length, which
is one byte up to 55 and from 56 on a byte for how many bytes the length takes
and those, with no leading zero. An encoding says where it ends: of two items
encoded one before the other the first is read off the bytes
(`Canonical.unique`), so that no two items, and no two lists of items, have one
encoding.

Key definitions: `Rlp.Item`, `Rlp.value`, `Rlp.Header`, `Rlp.Canonical`,
`Rlp.IsUint`.
Key theorems: `Rlp.Header.unique`, `Rlp.Canonical.unique`,
`Rlp.Canonical.injective`, `Rlp.value_injective`.
-/
import Mathlib.Tactic

namespace Rlp

inductive Item
  | bytes (bs : List UInt8)
  | list (items : List Item)

/-- The number the bytes stand for, most significant first. -/
def value (bs : List UInt8) : ℕ := bs.foldl (fun n b => n * 256 + b.toNat) 0

inductive Kind
  | bytes
  | list

def Kind.base : Kind → ℕ
  | .bytes => 0x80
  | .list => 0xc0

/-- What stands before a string or a payload of the length. -/
inductive Header (k : Kind) : ℕ → List UInt8 → Prop
  | short {n : ℕ} (h : n ≤ 55) : Header k n [UInt8.ofNat (k.base + n)]
  | long {n : ℕ} {l : List UInt8} (h : 55 < n) (hvalue : value l = n) (hmin : l.head? ≠ some 0) (hlen : l.length ≤ 8) :
      Header k n (UInt8.ofNat (k.base + 55 + l.length) :: l)

mutual

/-- The bytes are the canonical encoding of the item. -/
inductive Canonical : Item → List UInt8 → Prop
  | byte {b : UInt8} (h : b.toNat < 0x80) : Canonical (.bytes [b]) [b]
  | bytes {bs header : List UInt8} (hone : ∀ b, bs = [b] → 0x80 ≤ b.toNat) (hh : Header .bytes bs.length header) :
      Canonical (.bytes bs) (header ++ bs)
  | list {items : List Item} {payload header : List UInt8} (hp : CanonicalAll items payload)
      (hh : Header .list payload.length header) : Canonical (.list items) (header ++ payload)

/-- The bytes are the items' encodings, one after the other. -/
inductive CanonicalAll : List Item → List UInt8 → Prop
  | nil : CanonicalAll [] []
  | cons {x : Item} {e : List UInt8} {xs : List Item} {es : List UInt8} (hx : Canonical x e)
      (hxs : CanonicalAll xs es) : CanonicalAll (x :: xs) (e ++ es)

end

/-- The item stands for the number, without leading zeros. -/
def IsUint (n : ℕ) (x : Item) : Prop := ∃ bs, x = .bytes bs ∧ bs.head? ≠ some 0 ∧ value bs = n

theorem IsUint.unique {n m : ℕ} {x : Item} (hn : IsUint n x) (hm : IsUint m x) : n = m := by
  obtain ⟨bs, rfl, -, rfl⟩ := hn
  obtain ⟨bs', he, -, rfl⟩ := hm
  rw [Item.bytes.inj he]

/-! ### Numbers -/

theorem value_concat (bs : List UInt8) (b : UInt8) : value (bs ++ [b]) = value bs * 256 + b.toNat := by
  simp [value]

theorem value_cons_zero (bs : List UInt8) : value (0 :: bs) = value bs := by simp [value]

/-- As many bytes with one value are the same. -/
theorem value_injective : ∀ {bs cs : List UInt8}, bs.length = cs.length → value bs = value cs → bs = cs := by
  intro bs
  induction bs using List.reverseRecOn with
  | nil =>
    intro cs hlen _
    exact (List.length_eq_zero_iff.mp hlen.symm).symm
  | append_singleton bs b ih =>
    intro cs hlen hvalue
    obtain ⟨cs, c, rfl⟩ : ∃ ds d, cs = ds ++ [d] := by
      refine (List.eq_nil_or_concat' cs).resolve_left ?_
      rintro rfl
      simp at hlen
    rw [value_concat, value_concat] at hvalue
    have hb := b.toNat_lt
    have hc := c.toNat_lt
    have hlast : b = c := UInt8.toNat_inj.mp (by omega)
    rw [ih (by simpa using hlen) (by omega), hlast]

theorem value_lt (bs : List UInt8) : value bs < 256 ^ bs.length := by
  induction bs using List.reverseRecOn with
  | nil => simp [value]
  | append_singleton bs b ih =>
    have hb := b.toNat_lt
    rw [value_concat, List.length_append, List.length_singleton, pow_succ]
    omega

/-! ### Where an encoding ends -/

theorem toNat_ofNat_lt {n : ℕ} (h : n < 256) : (UInt8.ofNat n).toNat = n := by
  simp [Nat.mod_eq_of_lt h]

theorem Header.ne_nil {k : Kind} {n : ℕ} {header : List UInt8} (h : Header k n header) :
    ∃ b rest, header = b :: rest ∧ 0x80 ≤ b.toNat := by
  cases h with
  | short h =>
    refine ⟨_, _, rfl, ?_⟩
    rw [toNat_ofNat_lt (by cases k <;> simp only [Kind.base] <;> omega)]
    cases k <;> simp only [Kind.base] <;> omega
  | long h hvalue hmin hlen =>
    refine ⟨_, _, rfl, ?_⟩
    rw [toNat_ofNat_lt (by cases k <;> simp only [Kind.base] <;> omega)]
    cases k <;> simp only [Kind.base] <;> omega

theorem Kind.base_cases (k : Kind) : k.base = 0x80 ∧ k = .bytes ∨ k.base = 0xc0 ∧ k = .list := by
  cases k <;> simp [Kind.base]

/-- A header is read off the bytes it begins. -/
theorem Header.unique {k k' : Kind} {n n' : ℕ} {header header' r r' : List UInt8} (h : Header k n header)
    (h' : Header k' n' header') (he : header ++ r = header' ++ r') : k = k' ∧ n = n' ∧ header = header' := by
  have hk := k.base_cases
  have hk' := k'.base_cases
  have hlong : ∀ {n : ℕ} {l : List UInt8}, 55 < n → value l = n → 0 < l.length := by
    intro n l hn hvalue
    cases l with
    | nil =>
      simp [value] at hvalue
      omega
    | cons b l => simp
  cases h with
  | short hn =>
    cases h' with
    | short hn' =>
      have hfirst := congrArg UInt8.toNat (List.cons.inj he).1
      rw [toNat_ofNat_lt (by omega), toNat_ofNat_lt (by omega)] at hfirst
      obtain ⟨rfl, rfl⟩ : k = k' ∧ n = n' := by
        rcases hk with ⟨hb, rfl⟩ | ⟨hb, rfl⟩ <;> rcases hk' with ⟨hb', rfl⟩ | ⟨hb', rfl⟩ <;>
          simp only [hb, hb', reduceCtorEq, true_and, false_and] at hfirst ⊢ <;> omega
      exact ⟨rfl, rfl, rfl⟩
    | long hn' hvalue hmin hlen =>
      have hpos := hlong hn' hvalue
      have hfirst := congrArg UInt8.toNat (List.cons.inj he).1
      rw [toNat_ofNat_lt (by omega), toNat_ofNat_lt (by omega)] at hfirst
      omega
  | long hn hvalue hmin hlen =>
    have hpos := hlong hn hvalue
    cases h' with
    | short hn' =>
      have hfirst := congrArg UInt8.toNat (List.cons.inj he).1
      rw [toNat_ofNat_lt (by omega), toNat_ofNat_lt (by omega)] at hfirst
      omega
    | long hn' hvalue' hmin' hlen' =>
      have hpos' := hlong hn' hvalue'
      obtain ⟨hfirst, htail⟩ := List.cons.inj he
      have hnat := congrArg UInt8.toNat hfirst
      rw [toNat_ofNat_lt (by omega), toNat_ofNat_lt (by omega)] at hnat
      obtain ⟨hll, -⟩ := List.append_inj htail (by omega)
      subst hll
      obtain rfl : k = k' := by
        rcases hk with ⟨hb, rfl⟩ | ⟨hb, rfl⟩ <;> rcases hk' with ⟨hb', rfl⟩ | ⟨hb', rfl⟩ <;>
          simp only [hb, hb', reduceCtorEq] at hnat ⊢ <;> omega
      exact ⟨rfl, hvalue.symm.trans hvalue', rfl⟩

theorem Canonical.ne_nil {x : Item} {e : List UInt8} (h : Canonical x e) : e ≠ [] := by
  cases h with
  | byte h => simp
  | bytes hone hh =>
    obtain ⟨b, rest, rfl, -⟩ := hh.ne_nil
    simp
  | list hp hh =>
    obtain ⟨b, rest, rfl, -⟩ := hh.ne_nil
    simp

/-- A byte that stands for itself begins no header. -/
theorem Header.ne_byte {k : Kind} {n : ℕ} {header r r' : List UInt8} {b : UInt8} (h : Header k n header)
    (hb : b.toNat < 0x80) : [b] ++ r ≠ header ++ r' := by
  obtain ⟨c, rest, rfl, hc⟩ := h.ne_nil
  intro he
  obtain ⟨rfl, -⟩ := List.cons.inj he
  omega

mutual

/-- **An encoding says where it ends.** -/
theorem Canonical.unique {x y : Item} {e e' r r' : List UInt8} (h : Canonical x e) (h' : Canonical y e')
    (he : e ++ r = e' ++ r') : x = y ∧ e = e' := by
  cases h with
  | byte hb =>
    cases h' with
    | byte hb' =>
      obtain ⟨rfl, -⟩ := List.cons.inj he
      exact ⟨rfl, rfl⟩
    | bytes hone' hh' => exact absurd (he.trans (List.append_assoc _ _ _)) (hh'.ne_byte hb)
    | list hp' hh' => exact absurd (he.trans (List.append_assoc _ _ _)) (hh'.ne_byte hb)
  | bytes hone hh =>
    cases h' with
    | byte hb' => exact absurd (he.symm.trans (List.append_assoc _ _ _)) (hh.ne_byte hb')
    | bytes hone' hh' =>
      rw [List.append_assoc, List.append_assoc] at he
      obtain ⟨-, hlen, rfl⟩ := hh.unique hh' he
      obtain ⟨rfl, -⟩ := List.append_inj (List.append_cancel_left he) hlen
      exact ⟨rfl, rfl⟩
    | list hp' hh' =>
      rw [List.append_assoc, List.append_assoc] at he
      exact absurd (hh.unique hh' he).1 (by simp)
  | list hp hh =>
    cases h' with
    | byte hb' => exact absurd (he.symm.trans (List.append_assoc _ _ _)) (hh.ne_byte hb')
    | bytes hone' hh' =>
      rw [List.append_assoc, List.append_assoc] at he
      exact absurd (hh.unique hh' he).1 (by simp)
    | list hp' hh' =>
      rw [List.append_assoc, List.append_assoc] at he
      obtain ⟨-, hlen, rfl⟩ := hh.unique hh' he
      obtain ⟨rfl, -⟩ := List.append_inj (List.append_cancel_left he) hlen
      exact ⟨congrArg Item.list (hp.unique hp'), rfl⟩

/-- Encodings one after the other are of one list of items. -/
theorem CanonicalAll.unique {xs ys : List Item} {es : List UInt8} (h : CanonicalAll xs es)
    (h' : CanonicalAll ys es) : xs = ys := by
  generalize he : es = es' at h'
  cases h with
  | nil =>
    cases h' with
    | nil => rfl
    | cons hx' hxs' => exact absurd (List.append_eq_nil_iff.mp he.symm).1 hx'.ne_nil
  | cons hx hxs =>
    cases h' with
    | nil => exact absurd (List.append_eq_nil_iff.mp he).1 hx.ne_nil
    | cons hx' hxs' =>
      obtain ⟨rfl, rfl⟩ := hx.unique hx' he
      obtain rfl := List.append_cancel_left he
      rw [hxs.unique hxs']

end

/-- No two items have one encoding. -/
theorem Canonical.injective {x y : Item} {e : List UInt8} (h : Canonical x e) (h' : Canonical y e) : x = y :=
  (Canonical.unique h h' (congrArg (· ++ []) rfl)).1

end Rlp
