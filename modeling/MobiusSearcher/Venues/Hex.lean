/-
# Reading hex

`unhex` of `crates/venues/src/evm_sign.rs` and `hex_bytes` of `evm.rs` take the
`0x` prefixes off a text and read the rest two bytes at a time with the integer
parser: it takes a sign for a digit's place (`fromStrRadix16`), and a slice of
two bytes that would cut a character panics (`takeBytes`). `unhex` drops white
space around the text first.

A text is its characters. `hex` writes bytes with lower-case digits.

Key definitions: `hex`, `fromStrRadix16`, `takeBytes`, `unhex`, `hexBytes`,
`IsHex`, `Slips`.
Key theorems: `readPairs_hex`, `readPairs_refuses`, `readPairs_slips`,
`hex_is_read`.
-/
import MobiusSearcher.Lib.Text

namespace MobiusSearcher
namespace Venues

open Text

/-! ### Digits -/

/-- `char::to_digit(16)`. -/
def toDigit (c : Char) : Option ℕ :=
  if '0' ≤ c ∧ c ≤ '9' then some (c.toNat - 48)
  else if 'a' ≤ c ∧ c ≤ 'f' then some (c.toNat - 87)
  else if 'A' ≤ c ∧ c ≤ 'F' then some (c.toNat - 55)
  else none

def digitChar (n : ℕ) : Char := if n < 10 then Char.ofNat (48 + n) else Char.ofNat (87 + n)

def hex (bs : List UInt8) : List Char := bs.flatMap fun b => [digitChar (b.toNat / 16), digitChar (b.toNat % 16)]

def invalidDigit : Unread := .format "invalid digit found in string"

/-- The digits of a `u8`, read on from `n`. -/
def digits : ℕ → List Char → Except Unread UInt8
  | n, [] => .ok (UInt8.ofNat n)
  | n, c :: cs =>
    match toDigit c with
    | none => .error invalidDigit
    | some d =>
      if n * 16 + d < 256 then digits (n * 16 + d) cs
      else .error (.format "number too large to fit in target type")

/-- `u8::from_str_radix(src, 16)`. -/
def fromStrRadix16 : List Char → Except Unread UInt8
  | [] => .error (.format "cannot parse integer from empty string")
  | ['+'] => .error invalidDigit
  | ['-'] => .error invalidDigit
  | '+' :: rest => digits 0 rest
  | src => digits 0 src

/-! ### Slices -/

/-- The length in bytes. -/
def byteLen (cs : List Char) : ℕ := (cs.map Char.utf8Size).sum

/-- The first `n` bytes and the rest, cut between characters or not at all. -/
def takeBytes : ℕ → List Char → Option (List Char × List Char)
  | n, [] => if n = 0 then some ([], []) else none
  | n, c :: cs =>
    if n = 0 then some ([], c :: cs)
    else if c.utf8Size ≤ n then (takeBytes (n - c.utf8Size) cs).map fun r => (c :: r.1, r.2)
    else none

/-- `n` numbers of two bytes each; a slice that cannot be cut panics. -/
def readPairs : ℕ → List Char → Except Unread (List UInt8)
  | 0, _ => .ok []
  | n + 1, cs =>
    match takeBytes 2 cs with
    | none => .error .panic
    | some (two, rest) => do
      let b ← fromStrRadix16 two
      let bs ← readPairs n rest
      pure (b :: bs)

/-- `trim_start_matches("0x")`. -/
def trim0x : List Char → List Char
  | '0' :: 'x' :: cs => trim0x cs
  | cs => cs

def unhex (s : List Char) : Except Unread (List UInt8) :=
  if byteLen (trim0x (trim s)) % 2 ≠ 0 then .error (.format "odd hex length")
  else readPairs (byteLen (trim0x (trim s)) / 2) (trim0x (trim s))

def hexBytes (s : List Char) : Except Unread (List UInt8) :=
  if byteLen (trim0x s) % 2 ≠ 0 then .error (.format "odd hex length")
  else readPairs (byteLen (trim0x s) / 2) (trim0x s)

/-! ### What is hex -/

/-- An even number of hex digits. -/
def IsHex (cs : List Char) : Prop := cs.length % 2 = 0 ∧ ∀ c ∈ cs, (toDigit c).isSome

/-- Pairs the parser takes: two digits, or a plus sign and a digit. -/
inductive Pairs : List Char → Prop
  | nil : Pairs []
  | cons {a b : Char} {cs : List Char} (ha : (toDigit a).isSome ∨ a = '+') (hb : (toDigit b).isSome) (h : Pairs cs) :
      Pairs (a :: b :: cs)

/-- What the parser and the slices miss: a text of pairs one of which has a sign, or one where after pairs a slice
of two bytes would cut a character. -/
def Slips (cs : List Char) : Prop :=
  byteLen cs % 2 = 0 ∧ (Pairs cs ∧ '+' ∈ cs ∨
    ∃ pairs rest, cs = pairs ++ rest ∧ Pairs pairs ∧ rest ≠ [] ∧ takeBytes 2 rest = none)

/-! ### One digit, one pair -/

theorem toDigit_small : ∀ n < 103, ∀ d ∈ toDigit (Char.ofNat n),
    d < 16 ∧ (Char.ofNat n).utf8Size = 1 ∧ digitChar d = (Char.ofNat n).toLower ∧
      isWhitespace (Char.ofNat n) = false := by decide +kernel

theorem toDigit_lt {c : Char} {d : ℕ} (h : toDigit c = some d) : c.toNat < 103 := by
  by_contra hge
  have hnone : toDigit c = none := by
    unfold toDigit
    simp only [Char.le_def, UInt32.le_iff_toNat_le]
    simp only [Char.toNat] at hge
    have h₁ : ('9' : Char).val.toNat = 57 := rfl
    have h₂ : ('f' : Char).val.toNat = 102 := rfl
    have h₃ : ('F' : Char).val.toNat = 70 := rfl
    rw [if_neg (by omega), if_neg (by omega), if_neg (by omega)]
  rw [hnone] at h
  exact nomatch h

theorem toDigit_spec {c : Char} {d : ℕ} (h : toDigit c = some d) :
    d < 16 ∧ c.utf8Size = 1 ∧ digitChar d = c.toLower ∧ isWhitespace c = false := by
  have hsmall := toDigit_small c.toNat (toDigit_lt h)
  rw [Char.ofNat_toNat] at hsmall
  exact hsmall d h

theorem digitChar_spec : ∀ d < 16, toDigit (digitChar d) = some d ∧ (digitChar d).toLower = digitChar d := by
  decide +kernel

theorem toDigit_plus : toDigit '+' = none := by decide

/-- Two characters are read as a pair, or refused. -/
theorem fromStrRadix16_pair (a b : Char) :
    (∃ x y, toDigit a = some x ∧ toDigit b = some y ∧ fromStrRadix16 [a, b] = .ok (UInt8.ofNat (x * 16 + y))) ∨
      (∃ y, a = '+' ∧ toDigit b = some y ∧ fromStrRadix16 [a, b] = .ok (UInt8.ofNat y)) ∨
      (¬((toDigit a).isSome ∨ a = '+') ∨ ¬(toDigit b).isSome) ∧ fromStrRadix16 [a, b] = .error invalidDigit := by
  by_cases hplus : a = '+'
  · subst hplus
    have hread : fromStrRadix16 ['+', b] = digits 0 [b] := rfl
    rw [hread]
    cases hb : toDigit b with
    | none => exact Or.inr (Or.inr ⟨Or.inr (by simp), by simp [digits, hb]⟩)
    | some y =>
      have := (toDigit_spec hb).1
      refine Or.inr (Or.inl ⟨y, rfl, rfl, ?_⟩)
      simp [digits, hb, show y < 256 by omega]
  · have hread : fromStrRadix16 [a, b] = digits 0 [a, b] := by
      unfold fromStrRadix16
      split <;> simp_all
    rw [hread]
    cases ha : toDigit a with
    | none => exact Or.inr (Or.inr ⟨Or.inl (by simp [hplus]), by simp [digits, ha]⟩)
    | some x =>
      have hx := (toDigit_spec ha).1
      cases hb : toDigit b with
      | none => exact Or.inr (Or.inr ⟨Or.inr (by simp), by simp [digits, ha, hb, show x < 256 by omega]⟩)
      | some y =>
        have hy := (toDigit_spec hb).1
        refine Or.inl ⟨x, y, rfl, rfl, ?_⟩
        simp [digits, ha, hb, show x < 256 by omega, show x * 16 + y < 256 by omega]

theorem fromStrRadix16_one {c : Char} (hc : c.utf8Size ≠ 1) : fromStrRadix16 [c] = .error invalidDigit := by
  have hnone : toDigit c = none := by
    cases h : toDigit c with
    | none => rfl
    | some d => exact absurd (toDigit_spec h).2.1 hc
  unfold fromStrRadix16
  split <;> simp_all [digits]

theorem takeBytes_zero (cs : List Char) : takeBytes 0 cs = some ([], cs) := by
  cases cs <;> rfl

theorem takeBytes_wide {c : Char} {n : ℕ} (hc : c.utf8Size = n) (cs : List Char) :
    takeBytes n (c :: cs) = some ([c], cs) := by
  have hpos := c.utf8Size_pos
  unfold takeBytes
  rw [if_neg (by omega), if_pos hc.le, hc, Nat.sub_self, takeBytes_zero, Option.map_some]

theorem takeBytes_narrow {a : Char} (ha : a.utf8Size = 1) (cs : List Char) :
    takeBytes 2 (a :: cs) = (takeBytes 1 cs).map fun r => (a :: r.1, r.2) := by
  rw [takeBytes, if_neg (by omega), if_pos (by omega), ha]

/-- Two bytes are one character of two, or two of one. -/
theorem takeBytes_two {cs two rest : List Char} (h : takeBytes 2 cs = some (two, rest)) :
    (∃ c, two = [c] ∧ cs = c :: rest ∧ c.utf8Size = 2) ∨
      ∃ a b, two = [a, b] ∧ cs = a :: b :: rest ∧ a.utf8Size = 1 ∧ b.utf8Size = 1 := by
  cases cs with
  | nil => simp [takeBytes] at h
  | cons a cs =>
    have hpos := a.utf8Size_pos
    have hle : a.utf8Size ≤ 2 := by
      by_contra hgt
      simp [takeBytes, hgt] at h
    rcases show a.utf8Size = 1 ∨ a.utf8Size = 2 by omega with ha | ha
    · rw [takeBytes_narrow ha] at h
      cases cs with
      | nil => simp [takeBytes] at h
      | cons b cs =>
        have hpos := b.utf8Size_pos
        have hb : b.utf8Size = 1 := by
          by_contra hne
          simp [takeBytes, show ¬ b.utf8Size ≤ 1 by omega] at h
        rw [takeBytes_wide hb, Option.map_some, Option.some.injEq, Prod.mk.injEq] at h
        obtain ⟨rfl, rfl⟩ := h
        exact Or.inr ⟨a, b, rfl, rfl, ha, hb⟩
    · rw [takeBytes_wide ha, Option.some.injEq, Prod.mk.injEq] at h
      obtain ⟨rfl, rfl⟩ := h
      exact Or.inl ⟨a, rfl, rfl, ha⟩

theorem takeBytes_pair {a b : Char} (ha : a.utf8Size = 1) (hb : b.utf8Size = 1) (cs : List Char) :
    takeBytes 2 (a :: b :: cs) = some ([a, b], cs) := by
  rw [takeBytes_narrow ha, takeBytes_wide hb, Option.map_some]

theorem byteLen_cons (c : Char) (cs : List Char) : byteLen (c :: cs) = c.utf8Size + byteLen cs := by simp [byteLen]

/-! ### The texts that are read -/

theorem IsHex.tail {a b : Char} {cs : List Char} (h : IsHex (a :: b :: cs)) : IsHex cs :=
  ⟨by have := h.1; simp only [List.length_cons] at this; omega,
    fun c hc => h.2 c (List.mem_cons_of_mem _ (List.mem_cons_of_mem _ hc))⟩

theorem IsHex.pairs : ∀ {cs : List Char}, IsHex cs → Pairs cs
  | [], _ => .nil
  | [c], h => absurd h.1 (by simp)
  | a :: b :: _, h => .cons (Or.inl (h.2 a (by simp))) (h.2 b (by simp)) h.tail.pairs

theorem Pairs.byteLen_eq {cs : List Char} (h : Pairs cs) : byteLen cs = cs.length ∧ cs.length % 2 = 0 := by
  induction h with
  | nil => exact ⟨rfl, rfl⟩
  | cons ha hb _ ih =>
    obtain ⟨y, hy⟩ := Option.isSome_iff_exists.mp hb
    have hsize : ∀ {a : Char}, (toDigit a).isSome ∨ a = '+' → a.utf8Size = 1 := by
      rintro a (ha | rfl)
      · obtain ⟨x, hx⟩ := Option.isSome_iff_exists.mp ha
        exact (toDigit_spec hx).2.1
      · rfl
    rw [byteLen_cons, byteLen_cons, hsize ha, (toDigit_spec hy).2.1, List.length_cons, List.length_cons]
    omega

theorem readPairs_cut {n : ℕ} {cs two rest : List Char} (h : takeBytes 2 cs = some (two, rest)) :
    readPairs (n + 1) cs = (do
      let x ← fromStrRadix16 two
      let bs ← readPairs n rest
      pure (x :: bs)) := by
  rw [readPairs, h]

theorem readPairs_pair {n : ℕ} {a b : Char} {cs : List Char} (ha : a.utf8Size = 1) (hb : b.utf8Size = 1) :
    readPairs (n + 1) (a :: b :: cs) = (do
      let x ← fromStrRadix16 [a, b]
      let bs ← readPairs n cs
      pure (x :: bs)) := readPairs_cut (takeBytes_pair ha hb cs)

/-- Hex digits are read as the bytes that are written with them. -/
theorem readPairs_hex : ∀ (n : ℕ) {cs : List Char}, byteLen cs = 2 * n → IsHex cs →
    ∃ bs, readPairs n cs = .ok bs ∧ hex bs = cs.map Char.toLower
  | 0, [], _, _ => ⟨[], rfl, rfl⟩
  | 0, c :: cs, hlen, _ => by
    have hpos := c.utf8Size_pos
    rw [byteLen_cons] at hlen
    omega
  | n + 1, [], hlen, _ => by simp [byteLen] at hlen
  | n + 1, [c], _, h => absurd h.1 (by simp)
  | n + 1, a :: b :: cs, hlen, h => by
    obtain ⟨x, hx⟩ := Option.isSome_iff_exists.mp (h.2 a (by simp))
    obtain ⟨y, hy⟩ := Option.isSome_iff_exists.mp (h.2 b (by simp))
    obtain ⟨hxlt, ha, hlowa, -⟩ := toDigit_spec hx
    obtain ⟨hylt, hb, hlowb, -⟩ := toDigit_spec hy
    rw [byteLen_cons, byteLen_cons, ha, hb] at hlen
    obtain ⟨bs, hread, hhex⟩ := readPairs_hex n (by omega) h.tail
    have hpair : fromStrRadix16 [a, b] = .ok (UInt8.ofNat (x * 16 + y)) := by
      have hplus : a ≠ '+' := by
        rintro rfl
        rw [toDigit_plus] at hx
        exact nomatch hx
      rcases fromStrRadix16_pair a b with ⟨x', y', hx', hy', he⟩ | ⟨_, he, -⟩ | ⟨hno, -⟩
      · rw [hx] at hx'
        rw [hy] at hy'
        obtain rfl := Option.some.inj hx'
        obtain rfl := Option.some.inj hy'
        exact he
      · exact absurd he hplus
      · simp [hx, hy] at hno
    refine ⟨UInt8.ofNat (x * 16 + y) :: bs, ?_, ?_⟩
    · rw [readPairs_pair ha hb, hpair, hread]
      rfl
    · have hvalue : (UInt8.ofNat (x * 16 + y)).toNat = x * 16 + y := by simp; omega
      change [digitChar _, digitChar _] ++ hex bs = _
      rw [hvalue, hhex, show (x * 16 + y) / 16 = x by omega, show (x * 16 + y) % 16 = y by omega, hlowa, hlowb]
      rfl

theorem Slips.cons {a b : Char} {cs : List Char} (ha : (toDigit a).isSome ∨ a = '+') (hb : (toDigit b).isSome)
    (hlen : byteLen (a :: b :: cs) % 2 = 0) (h : Slips cs) : Slips (a :: b :: cs) := by
  refine ⟨hlen, h.2.imp (fun ⟨hp, hmem⟩ => ?_) fun ⟨pairs, rest, he, hp, hne, hcut⟩ => ?_⟩
  · exact ⟨.cons ha hb hp, List.mem_cons_of_mem _ (List.mem_cons_of_mem _ hmem)⟩
  · exact ⟨a :: b :: pairs, rest, by simp [he], .cons ha hb hp, hne, hcut⟩

/-- A text that is not hex is refused, unless it slips. -/
theorem readPairs_refuses : ∀ (n : ℕ) {cs : List Char}, byteLen cs = 2 * n → ¬IsHex cs → ¬Slips cs →
    ∃ text, readPairs n cs = .error (.format text)
  | 0, [], _, h, _ => absurd ⟨rfl, by simp⟩ h
  | 0, c :: cs, hlen, _, _ => by
    have hpos := c.utf8Size_pos
    rw [byteLen_cons] at hlen
    omega
  | n + 1, cs, hlen, hhex, hslip => by
    have hcs : cs ≠ [] := by
      rintro rfl
      simp [byteLen] at hlen
    cases hcut : takeBytes 2 cs with
    | none => exact absurd ⟨by omega, Or.inr ⟨[], cs, rfl, .nil, hcs, hcut⟩⟩ hslip
    | some r =>
      obtain ⟨two, rest⟩ := r
      rcases takeBytes_two hcut with ⟨c, rfl, rfl, hc⟩ | ⟨a, b, rfl, rfl, ha, hb⟩
      · rw [readPairs_cut hcut, fromStrRadix16_one (by omega)]
        exact ⟨_, rfl⟩
      · have hrest : byteLen rest = 2 * n := by
          rw [byteLen_cons, byteLen_cons, ha, hb] at hlen
          omega
        rw [readPairs_pair ha hb]
        rcases fromStrRadix16_pair a b with ⟨x, y, hx, hy, he⟩ | ⟨y, rfl, hy, he⟩ | ⟨-, he⟩
        · have hrestHex : ¬IsHex rest := fun h => hhex
            ⟨by have := h.1; simp only [List.length_cons]; omega,
              List.forall_mem_cons.mpr ⟨by simp [hx], List.forall_mem_cons.mpr ⟨by simp [hy], h.2⟩⟩⟩
          obtain ⟨text, hread⟩ := readPairs_refuses n hrest hrestHex fun hs =>
            hslip (hs.cons (Or.inl (by simp [hx])) (by simp [hy]) (by omega))
          exact ⟨text, by rw [he, hread]; rfl⟩
        · have hrestHex : ¬IsHex rest := fun h => hslip
            ⟨by omega, Or.inl ⟨.cons (Or.inr rfl) (by simp [hy]) h.pairs, List.mem_cons_self⟩⟩
          obtain ⟨text, hread⟩ := readPairs_refuses n hrest hrestHex fun hs =>
            hslip (hs.cons (Or.inr rfl) (by simp [hy]) (by omega))
          exact ⟨text, by rw [he, hread]; rfl⟩
        · exact ⟨_, by rw [he]; rfl⟩

theorem readPairs_pairs {pairs : List Char} (h : Pairs pairs) (n : ℕ) (rest : List Char) :
    ∃ bs, readPairs (pairs.length / 2 + n) (pairs ++ rest) = (readPairs n rest).map (bs ++ ·) := by
  induction h with
  | nil =>
    refine ⟨[], ?_⟩
    simp only [List.length_nil, Nat.zero_div, Nat.zero_add, List.nil_append]
    cases readPairs n rest <;> rfl
  | @cons a b cs ha hb _ ih =>
    obtain ⟨bs, hread⟩ := ih
    obtain ⟨y, hy⟩ := Option.isSome_iff_exists.mp hb
    have hsize := (Pairs.cons ha hb .nil).byteLen_eq.1
    rw [byteLen_cons, byteLen_cons] at hsize
    simp only [byteLen, List.map_nil, List.sum_nil, List.length_cons, List.length_nil] at hsize
    have hpos := a.utf8Size_pos
    have hposb := b.utf8Size_pos
    obtain ⟨x, hx⟩ : ∃ x, fromStrRadix16 [a, b] = .ok x := by
      rcases fromStrRadix16_pair a b with ⟨x, y, -, -, he⟩ | ⟨y, -, -, he⟩ | ⟨hno, -⟩
      · exact ⟨_, he⟩
      · exact ⟨_, he⟩
      · exact absurd hno (by simp [ha, hb])
    refine ⟨x :: bs, ?_⟩
    rw [List.length_cons, List.length_cons, show (cs.length + 1 + 1) / 2 + n = cs.length / 2 + n + 1 by omega,
      List.cons_append, List.cons_append, readPairs_pair (by omega) (by omega), hx, hread]
    cases readPairs n rest <;> rfl

/-- And a text that slips is never refused: it is read, or the slice panics. -/
theorem readPairs_slips {cs : List Char} (h : Slips cs) :
    readPairs (byteLen cs / 2) cs = .error .panic ∨ ∃ bs, readPairs (byteLen cs / 2) cs = .ok bs := by
  obtain ⟨heven, ⟨hp, -⟩ | ⟨pairs, rest, rfl, hp, hne, hcut⟩⟩ := h
  · obtain ⟨bs, hread⟩ := readPairs_pairs hp 0 []
    rw [List.append_nil, Nat.add_zero] at hread
    rw [hp.byteLen_eq.1, hread]
    exact Or.inr ⟨_, rfl⟩
  · have hsum : byteLen (pairs ++ rest) = pairs.length + byteLen rest := by
      rw [← hp.byteLen_eq.1]
      simp [byteLen]
    have hpos : 0 < byteLen rest := by
      obtain ⟨c, cs, rfl⟩ := List.exists_cons_of_ne_nil hne
      have := c.utf8Size_pos
      rw [byteLen_cons]
      omega
    have hpairs := hp.byteLen_eq.2
    obtain ⟨n, hn⟩ : ∃ n, byteLen (pairs ++ rest) / 2 = pairs.length / 2 + (n + 1) :=
      ⟨byteLen rest / 2 - 1, by omega⟩
    obtain ⟨bs, hread⟩ := readPairs_pairs hp (n + 1) rest
    rw [hn, hread, readPairs, hcut]
    exact Or.inl rfl

/-! ### The two readers -/

/-- Read exactly if it is hex, and refused otherwise; a text that slips is left out. -/
def Reads (cs : List Char) (read : Except Unread (List UInt8)) : Prop :=
  (IsHex cs → ∃ bs, read = .ok bs ∧ hex bs = cs.map Char.toLower) ∧
    (¬IsHex cs → ¬Slips cs → ∃ text, read = .error (.format text))

theorem reads_body (cs : List Char) :
    Reads cs (if byteLen cs % 2 ≠ 0 then .error (.format "odd hex length") else readPairs (byteLen cs / 2) cs) := by
  by_cases h : byteLen cs % 2 = 0
  · rw [if_neg (not_not.mpr h)]
    exact ⟨readPairs_hex _ (by omega), readPairs_refuses _ (by omega)⟩
  · rw [if_pos h]
    refine ⟨fun hhex => absurd ?_ h, fun _ _ => ⟨_, rfl⟩⟩
    rw [hhex.pairs.byteLen_eq.1]
    exact hhex.1

theorem isHex_hex (bs : List UInt8) : IsHex (hex bs) := by
  induction bs with
  | nil => exact ⟨rfl, by simp [hex]⟩
  | cons b bs ih =>
    have hb := b.toNat_lt
    have hhigh := (digitChar_spec (b.toNat / 16) (by omega)).1
    have hlow := (digitChar_spec (b.toNat % 16) (by omega)).1
    change IsHex (digitChar _ :: digitChar _ :: hex bs)
    refine ⟨by have := ih.1; simp only [List.length_cons]; omega, ?_⟩
    exact List.forall_mem_cons.mpr ⟨by simp [hhigh], List.forall_mem_cons.mpr ⟨by simp [hlow], ih.2⟩⟩

theorem hex_lower (bs : List UInt8) : (hex bs).map Char.toLower = hex bs := by
  induction bs with
  | nil => rfl
  | cons b bs ih =>
    have hb := b.toNat_lt
    change (digitChar _ :: digitChar _ :: hex bs).map _ = digitChar _ :: digitChar _ :: hex bs
    rw [List.map_cons, List.map_cons, ih, (digitChar_spec (b.toNat / 16) (by omega)).2,
      (digitChar_spec (b.toNat % 16) (by omega)).2]

theorem hex_injective : ∀ {bs cs : List UInt8}, hex bs = hex cs → bs = cs
  | [], [], _ => rfl
  | [], c :: cs, h => by simp [hex] at h
  | b :: bs, [], h => by simp [hex] at h
  | b :: bs, c :: cs, h => by
    change digitChar _ :: digitChar _ :: hex bs = digitChar _ :: digitChar _ :: hex cs at h
    simp only [List.cons.injEq] at h
    obtain ⟨hhigh, hlow, hrest⟩ := h
    have hb := b.toNat_lt
    have hc := c.toNat_lt
    have hinj : ∀ {x y : ℕ}, x < 16 → y < 16 → digitChar x = digitChar y → x = y := by
      intro x y hx hy he
      have hx' := (digitChar_spec x hx).1
      rw [he, (digitChar_spec y hy).1] at hx'
      exact (Option.some.inj hx').symm
    have h₁ := hinj (by omega) (by omega) hhigh
    have h₂ := hinj (by omega) (by omega) hlow
    rw [hex_injective hrest, UInt8.toNat_inj.mp (show b.toNat = c.toNat by omega)]

/-- No prefix and no white space is taken off hex digits. -/
theorem trim_hex {cs : List Char} (h : ∀ c ∈ cs, (toDigit c).isSome) : trim0x cs = cs ∧ trim cs = cs := by
  constructor
  · unfold trim0x
    split
    · rename_i cs
      have hx := h 'x' (by simp)
      exact absurd hx (by decide)
    · rfl
  · refine trim_eq_self fun c hc => ?_
    obtain ⟨d, hd⟩ := Option.isSome_iff_exists.mp (h c hc)
    exact (toDigit_spec hd).2.2.2

/-- **Hex is read as the bytes it writes.** `unhex` without the white space around and both without the `0x` prefixes
read an even number of hex digits as the bytes whose hex it is, refuse any other text that does not slip, and read
back what `hex` writes. -/
theorem hex_is_read (s : List Char) (bs : List UInt8) :
    Reads (trim0x (trim s)) (unhex s) ∧ Reads (trim0x s) (hexBytes s) ∧
      unhex (hex bs) = .ok bs ∧ hexBytes (hex bs) = .ok bs := by
  refine ⟨reads_body _, reads_body _, ?_⟩
  obtain ⟨h0x, htrim⟩ := trim_hex (isHex_hex bs).2
  obtain ⟨bs', hread, hhex⟩ := (reads_body (hex bs)).1 (isHex_hex bs)
  rw [hex_lower] at hhex
  obtain rfl := hex_injective hhex
  unfold unhex hexBytes
  rw [htrim, h0x]
  exact ⟨hread, hread⟩

/-- At most one prefix taken off. -/
def strip0x : List Char → List Char
  | '0' :: 'x' :: cs => cs
  | cs => cs

/-- White space around the digits, and more than one prefix, are taken as well. -/
theorem takes_more :
    ¬((∀ s, IsHex (strip0x s) ∨ ∃ text, unhex s = .error (.format text)) ∧
      ∀ s, IsHex (strip0x s) ∨ ∃ text, hexBytes s = .error (.format text)) := by
  rintro ⟨h, -⟩
  rcases h [' ', 'a', 'b'] with hhex | ⟨text, he⟩
  · exact absurd hhex.1 (by decide)
  · rw [show unhex [' ', 'a', 'b'] = .ok [0xab] by decide +kernel] at he
    exact nomatch he

example : hexBytes ['0', 'x', '0', 'x', 'a', 'b'] = .ok [0xab] := by decide +kernel

/-- A sign is read as a digit, and a character cut by a slice panics. -/
example : hexBytes ['+', 'f'] = .ok [15] ∧ hexBytes ['€', 'a'] = .error .panic := by decide +kernel

end Venues
end MobiusSearcher
