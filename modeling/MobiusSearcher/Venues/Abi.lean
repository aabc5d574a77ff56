/-
# Reading an ABI string

`decode_string` of `crates/venues/src/evm.rs`: the first word of the return data
is where the string's length stands, its bytes stand behind. Each word is read as
a `u128` and cut to a `usize` (`as`), and the positions are added up before the
data is asked for the range; the sum fails where it passes a `usize`, as in a
build with overflow checks.

Bytes that are not UTF-8 are read as `from_utf8_lossy` does: the longest part that
could have begun a character becomes one replacement character.

Key definitions: `decodeString`, `encodedString`, `Strays`, `abiEncode`.
Key theorems: `decodeString_eq`, `decodeString_right_iff`, `decodeString_abiEncode`,
`strings_are_read`.
-/
import MobiusSearcher.Venues.Hex
import MobiusSearcher.Lib.Machine
import MobiusSearcher.Venues.Sign

namespace MobiusSearcher
namespace Venues

open Machine Rlp Text

/-! ### Text in bytes -/

/-- How many bytes that begin no character are replaced at once. -/
def badLen : List UInt8 → ℕ
  | b₀ :: b₁ :: rest =>
    let three : Bool := (b₀ == 0xe0 && 0xa0 ≤ b₁ && b₁ ≤ 0xbf) || (0xe1 ≤ b₀ && b₀ ≤ 0xec && 0x80 ≤ b₁ && b₁ ≤ 0xbf) ||
      (b₀ == 0xed && 0x80 ≤ b₁ && b₁ ≤ 0x9f) || (0xee ≤ b₀ && b₀ ≤ 0xef && 0x80 ≤ b₁ && b₁ ≤ 0xbf)
    let four : Bool := (b₀ == 0xf0 && 0x90 ≤ b₁ && b₁ ≤ 0xbf) || (0xf1 ≤ b₀ && b₀ ≤ 0xf3 && 0x80 ≤ b₁ && b₁ ≤ 0xbf) ||
      (b₀ == 0xf4 && 0x80 ≤ b₁ && b₁ ≤ 0x8f)
    if three then 2
    else if four then (if rest.head?.any (fun b₂ => 0x80 ≤ b₂ && b₂ ≤ 0xbf) then 3 else 2)
    else 1
  | _ => 1

/-- `String::from_utf8_lossy`. -/
def fromUtf8Lossy (bytes : List UInt8) : List Char :=
  match bytes with
  | [] => []
  | b :: bs =>
    match (b :: bs).toByteArray.utf8DecodeChar? 0 with
    | some c => c :: fromUtf8Lossy (bs.drop (c.utf8Size - 1))
    | none => '\uFFFD' :: fromUtf8Lossy (bs.drop (badLen (b :: bs) - 1))
  termination_by bytes.length

def utf8 (cs : List Char) : List UInt8 := cs.flatMap String.utf8EncodeChar

/-! ### Words -/

/-- `get(start..stop)`. -/
def slice (data : List UInt8) (start stop : ℕ) : Option (List UInt8) :=
  if start ≤ stop ∧ stop ≤ data.length then some ((data.drop start).take (stop - start)) else none

/-- Word `i` of ABI-encoded return data. -/
def word (data : List UInt8) (i : ℕ) : Except Unread (List UInt8) :=
  match slice data (i * 32) (i * 32 + 32) with
  | some w => .ok w
  | none => .error (.format ("return data too short for word " ++ toString i))

/-- An unsigned word that must fit in `u128`. -/
def wordU128Of (w : List UInt8) : Except Unread ℕ :=
  if (w.take 16).any (· ≠ 0) then .error (.format "value exceeds u128") else .ok (value ((w.drop 16).take 16))

def addUsize (a b : ℕ) : Except Unread ℕ := if a + b < 2 ^ 64 then .ok (a + b) else .error .panic

def okOr {α : Type} (text : String) : Option α → Except Unread α
  | some a => .ok a
  | none => .error (.format text)

/-- ABI `string` return value (offset, length, bytes). -/
def decodeString (data : List UInt8) : Except Unread (List Char) := do
  let off := wrapU64 (← wordU128Of (← word data 0))
  let stop ← addUsize off 32
  let len := wrapU64 (← wordU128Of (← okOr "string length" (slice data off stop)))
  let start ← addUsize off 32
  let stop ← addUsize start len
  let bytes ← okOr "string bytes" (slice data start stop)
  pure (fromUtf8Lossy bytes)

/-! ### What the data says -/

/-- The number in the 32 bytes from `i` on. -/
def wordAt (data : List UInt8) (i : ℕ) : ℕ := value ((data.drop i).take 32)

/-- The bytes of the string the data encodes: those the length word's number gives, behind it, with the length word
where the first word says. -/
def encodedString (data : List UInt8) : Option (List UInt8) :=
  if data.length < 32 ∨ data.length < wordAt data 0 + 32 then none
  else if data.length < wordAt data 0 + 32 + wordAt data (wordAt data 0) then none
  else some ((data.drop (wordAt data 0 + 32)).take (wordAt data (wordAt data 0)))

/-- The string the data encodes is returned, and where it encodes none an error. -/
def Right (data : List UInt8) : Prop :=
  match encodedString data with
  | some bytes => decodeString data = .ok (fromUtf8Lossy bytes)
  | none => ∃ text, decodeString data = .error (.format text)

/-- The positions, cut to 64 bits, pass the largest when added up, or lie in the data although a word does not. -/
def Strays (data : List UInt8) : Prop :=
  let off := wordAt data 0
  let len := wordAt data (wrapU64 off)
  32 ≤ data.length ∧ off < 2 ^ 128 ∧ (2 ^ 64 ≤ wrapU64 off + 32 ∨
    wrapU64 off + 32 ≤ data.length ∧ len < 2 ^ 128 ∧ (2 ^ 64 ≤ wrapU64 off + 32 + wrapU64 len ∨
      wrapU64 off + 32 + wrapU64 len ≤ data.length ∧ (2 ^ 64 ≤ off ∨ 2 ^ 64 ≤ len)))

/-! ### A word's number -/

theorem value_append (bs cs : List UInt8) : value (bs ++ cs) = value bs * 256 ^ cs.length + value cs := by
  induction cs using List.reverseRecOn with
  | nil => simp [value]
  | append_singleton cs c ih =>
    rw [← List.append_assoc, value_concat, value_concat, ih, List.length_append, List.length_singleton, pow_succ]
    ring

theorem value_eq_zero {bs : List UInt8} : value bs = 0 ↔ ∀ b ∈ bs, b = 0 := by
  induction bs using List.reverseRecOn with
  | nil => simp [value]
  | append_singleton bs b ih =>
    rw [value_concat, List.forall_mem_append, ← ih, List.forall_mem_singleton, ← UInt8.toNat_inj]
    simp only [UInt8.toNat_zero]
    omega

theorem wordU128Of_eq {w : List UInt8} (hlen : w.length = 32) :
    wordU128Of w = if value w < 2 ^ 128 then .ok (value w) else .error (.format "value exceeds u128") := by
  have hsplit := value_append (w.take 16) (w.drop 16)
  rw [List.take_append_drop] at hsplit
  have hlow := value_lt (w.drop 16)
  have hdrop : (w.drop 16).length = 16 := by simp [hlen]
  rw [hdrop] at hsplit hlow
  have hany : (w.take 16).any (· ≠ 0) = true ↔ value (w.take 16) ≠ 0 := by
    rw [ne_eq, value_eq_zero]
    simp
  unfold wordU128Of
  rw [List.take_of_length_le hdrop.le]
  by_cases h : value (w.take 16) = 0
  · rw [if_neg (by rw [hany]; exact not_not.mpr h), if_pos (by rw [hsplit, h]; omega), hsplit, h, Nat.zero_mul,
      Nat.zero_add]
  · rw [if_pos (hany.mpr h), if_neg]
    have : 1 ≤ value (w.take 16) := Nat.one_le_iff_ne_zero.mpr h
    omega

theorem slice_eq_some {data : List UInt8} {start n : ℕ} (h : start + n ≤ data.length) :
    slice data start (start + n) = some ((data.drop start).take n) := by
  unfold slice
  rw [if_pos ⟨Nat.le_add_right _ _, h⟩, Nat.add_sub_cancel_left]

theorem slice_eq_none {data : List UInt8} {start n : ℕ} (h : data.length < start + n) :
    slice data start (start + n) = none := if_neg fun hle => absurd hle.2 (not_le.mpr h)

/-! ### Reading step by step -/

theorem word_zero (data : List UInt8) :
    word data 0 = if 32 ≤ data.length then .ok (data.take 32) else .error (.format "return data too short for word 0") := by
  unfold word
  rw [Nat.zero_mul]
  by_cases h : 32 ≤ data.length
  · rw [slice_eq_some (by omega), if_pos h, List.drop_zero]
  · rw [slice_eq_none (by omega), if_neg h]
    rfl

theorem length_wordAt {data : List UInt8} {i : ℕ} (h : i + 32 ≤ data.length) : ((data.drop i).take 32).length = 32 := by
  simp
  omega

/-- What is read, by the two words' numbers. -/
theorem decodeString_eq (data : List UInt8) :
    let off := wrapU64 (wordAt data 0)
    let len := wrapU64 (wordAt data off)
    decodeString data =
      if data.length < 32 then .error (.format "return data too short for word 0")
      else if 2 ^ 128 ≤ wordAt data 0 then .error (.format "value exceeds u128")
      else if 2 ^ 64 ≤ off + 32 then .error .panic
      else if data.length < off + 32 then .error (.format "string length")
      else if 2 ^ 128 ≤ wordAt data off then .error (.format "value exceeds u128")
      else if 2 ^ 64 ≤ off + 32 + len then .error .panic
      else if data.length < off + 32 + len then .error (.format "string bytes")
      else .ok (fromUtf8Lossy ((data.drop (off + 32)).take len)) := by
  intro off len
  unfold decodeString
  rw [word_zero]
  by_cases h₁ : data.length < 32
  · rw [if_neg (by omega), if_pos h₁]
    rfl
  rw [if_pos (by omega), if_neg h₁]
  change (wordU128Of (data.take 32) >>= _) = _
  rw [wordU128Of_eq (by simp; omega)]
  have hoff : value (data.take 32) = wordAt data 0 := by rw [wordAt, List.drop_zero]
  rw [hoff]
  by_cases h₂ : 2 ^ 128 ≤ wordAt data 0
  · rw [if_neg (by omega), if_pos h₂]
    rfl
  rw [if_pos (by omega), if_neg h₂]
  change (addUsize off 32 >>= _) = _
  have hadd : addUsize off 32 = if 2 ^ 64 ≤ off + 32 then .error .panic else .ok (off + 32) := by
    unfold addUsize
    by_cases h : 2 ^ 64 ≤ off + 32
    · rw [if_neg (by omega), if_pos h]
    · rw [if_pos (by omega), if_neg h]
  rw [hadd]
  by_cases h₃ : 2 ^ 64 ≤ off + 32
  · rw [if_pos h₃, if_pos h₃]
    rfl
  rw [if_neg h₃, if_neg h₃]
  change (okOr "string length" (slice data off (off + 32)) >>= _) = _
  by_cases h₄ : data.length < off + 32
  · rw [slice_eq_none h₄, if_pos h₄]
    rfl
  rw [slice_eq_some (by omega), if_neg h₄]
  change (wordU128Of ((data.drop off).take 32) >>= _) = _
  rw [wordU128Of_eq (length_wordAt (by omega))]
  change ((if wordAt data off < 2 ^ 128 then _ else _) >>= _) = _
  by_cases h₅ : 2 ^ 128 ≤ wordAt data off
  · rw [if_neg (by omega), if_pos h₅]
    rfl
  rw [if_pos (by omega), if_neg h₅]
  change (addUsize (off + 32) len >>= _) = _
  unfold addUsize
  by_cases h₆ : 2 ^ 64 ≤ off + 32 + len
  · rw [if_neg (by omega), if_pos h₆]
    rfl
  rw [if_pos (by omega), if_neg h₆]
  change (okOr "string bytes" (slice data (off + 32) (off + 32 + len)) >>= _) = _
  by_cases h₇ : data.length < off + 32 + len
  · rw [slice_eq_none h₇, if_pos h₇]
    rfl
  rw [slice_eq_some (by omega), if_neg h₇]
  rfl

theorem encodedString_eq_none {data : List UInt8}
    (h : data.length < wordAt data 0 + 32 + wordAt data (wordAt data 0)) : encodedString data = none := by
  unfold encodedString
  rw [if_pos h, ite_self]

theorem right_of_error {data : List UInt8} {text : String} (hd : decodeString data = .error (.format text))
    (h : encodedString data = none) : Right data := by
  unfold Right
  rw [h]
  exact ⟨text, hd⟩

theorem not_right_of_panic {data : List UInt8} (hd : decodeString data = .error .panic) : ¬Right data := by
  unfold Right
  rw [hd]
  cases encodedString data <;> simp

/-- The string is read right exactly if the positions do not stray. -/
theorem decodeString_right_iff (data : { bytes : List UInt8 // bytes.length < 2 ^ 63 }) :
    Right data.val ↔ ¬Strays data.val := by
  obtain ⟨data, hlen⟩ := data
  have heq := decodeString_eq data
  simp only at heq ⊢
  have hoff : wrapU64 (wordAt data 0) ≤ wordAt data 0 := Nat.mod_le _ _
  have hcut : wordAt data 0 < 2 ^ 64 → wrapU64 (wordAt data 0) = wordAt data 0 := wrapU64_of_lt
  have hlen' : wrapU64 (wordAt data (wrapU64 (wordAt data 0))) ≤ wordAt data (wrapU64 (wordAt data 0)) := Nat.mod_le _ _
  unfold Strays
  simp only
  by_cases h₁ : data.length < 32
  · rw [if_pos h₁] at heq
    exact iff_of_true (right_of_error heq (encodedString_eq_none (by omega))) (by omega)
  rw [if_neg h₁] at heq
  by_cases h₂ : 2 ^ 128 ≤ wordAt data 0
  · rw [if_pos h₂] at heq
    exact iff_of_true (right_of_error heq (encodedString_eq_none (by omega))) (by omega)
  rw [if_neg h₂] at heq
  by_cases h₃ : 2 ^ 64 ≤ wrapU64 (wordAt data 0) + 32
  · rw [if_pos h₃] at heq
    exact iff_of_false (not_right_of_panic heq) (by omega)
  rw [if_neg h₃] at heq
  -- a position cut short leaves an offset past the data
  have hpast : ∀ {n : ℕ}, data.length < wrapU64 (wordAt data 0) + 32 + n →
      n ≤ wordAt data (wrapU64 (wordAt data 0)) → encodedString data = none := by
    intro n hn hle
    refine encodedString_eq_none ?_
    by_cases hbig : wordAt data 0 < 2 ^ 64
    · rw [hcut hbig] at hn hle
      omega
    · omega
  by_cases h₄ : data.length < wrapU64 (wordAt data 0) + 32
  · rw [if_pos h₄] at heq
    exact iff_of_true (right_of_error heq (hpast h₄ (Nat.zero_le _))) (by omega)
  rw [if_neg h₄] at heq
  by_cases h₅ : 2 ^ 128 ≤ wordAt data (wrapU64 (wordAt data 0))
  · rw [if_pos h₅] at heq
    exact iff_of_true (right_of_error heq (hpast (n := 2 ^ 128) (by omega) h₅)) (by omega)
  rw [if_neg h₅] at heq
  by_cases h₆ : 2 ^ 64 ≤ wrapU64 (wordAt data 0) + 32 + wrapU64 (wordAt data (wrapU64 (wordAt data 0)))
  · rw [if_pos h₆] at heq
    exact iff_of_false (not_right_of_panic heq) (by omega)
  rw [if_neg h₆] at heq
  by_cases h₇ : data.length < wrapU64 (wordAt data 0) + 32 + wrapU64 (wordAt data (wrapU64 (wordAt data 0)))
  · rw [if_pos h₇] at heq
    exact iff_of_true (right_of_error heq (hpast h₇ hlen')) (by omega)
  rw [if_neg h₇] at heq
  by_cases hfar : 2 ^ 64 ≤ wordAt data 0 ∨ 2 ^ 64 ≤ wordAt data (wrapU64 (wordAt data 0))
  · have hnone : encodedString data = none := by
      refine encodedString_eq_none ?_
      rcases hfar with h | h
      · omega
      · by_cases hbig : wordAt data 0 < 2 ^ 64
        · rw [hcut hbig] at h
          omega
        · omega
    have hwrong : ¬Right data := by
      unfold Right
      rw [hnone, heq]
      rintro ⟨text, h⟩
      exact nomatch h
    exact iff_of_false hwrong (by omega)
  · rw [not_or, not_le, not_le] at hfar
    have hnear := wrapU64_of_lt hfar.2
    rw [hcut hfar.1] at heq h₄ h₇ hnear
    have hsome : encodedString data =
        some ((data.drop (wordAt data 0 + 32)).take (wordAt data (wordAt data 0))) := by
      unfold encodedString
      rw [if_neg (by omega), if_neg (by omega)]
    have hright : Right data := by
      unfold Right
      rw [hsome, heq, hnear]
    exact iff_of_true hright (by omega)

/-! ### Encoded strings -/

/-- A string as its contract returns it, padded to whole words. -/
def abiEncode (bs : List UInt8) : List UInt8 :=
  toBeBytes 32 32 ++ (toBeBytes 32 bs.length ++ (bs ++ List.replicate ((32 - bs.length % 32) % 32) 0))

theorem fromUtf8Lossy_utf8 (cs : List Char) : fromUtf8Lossy (utf8 cs) = cs := by
  induction cs with
  | nil =>
    rw [utf8, List.flatMap_nil, fromUtf8Lossy]
  | cons c cs ih =>
    have hlen := String.length_utf8EncodeChar c
    have hpos := c.utf8Size_pos
    have hsplit : utf8 (c :: cs) = String.utf8EncodeChar c ++ utf8 cs := List.flatMap_cons
    obtain ⟨b, bs, hb⟩ : ∃ b bs, String.utf8EncodeChar c = b :: bs := by
      cases h : String.utf8EncodeChar c with
      | nil => simp [h] at hlen; omega
      | cons b bs => exact ⟨b, bs, rfl⟩
    have hdecode : (b :: (bs ++ utf8 cs)).toByteArray.utf8DecodeChar? 0 = some c := by
      rw [← List.cons_append, ← hb, List.toByteArray_append]
      exact ByteArray.utf8DecodeChar?_utf8EncodeChar_append
    have hbs : bs.length = c.utf8Size - 1 := by
      rw [hb, List.length_cons] at hlen
      omega
    rw [hsplit, hb, List.cons_append, fromUtf8Lossy, hdecode]
    simp only
    rw [List.drop_left' hbs, ih]

theorem wordAt_left {w rest : List UInt8} (hw : w.length = 32) : wordAt (w ++ rest) 0 = value w := by
  rw [wordAt, List.drop_zero, List.take_left' hw]

theorem wordAt_drop {w data : List UInt8} {i : ℕ} (hw : w.length = i) : wordAt (w ++ data) i = wordAt data 0 := by
  rw [wordAt, wordAt, List.drop_left' hw, List.drop_zero]

/-- What is returned encoded is read back, whatever stands behind it. -/
theorem decodeString_abiEncode (cs : List Char) (hlen : (utf8 cs).length < 2 ^ 63) (rest : List UInt8) :
    decodeString (abiEncode (utf8 cs) ++ rest) = .ok cs := by
  have hword : ∀ n < 2 ^ 64, value (toBeBytes 32 n) = n := by
    intro n hn
    rw [value_toBeBytes, Nat.mod_eq_of_lt (lt_trans hn (by norm_num))]
  have hshape : abiEncode (utf8 cs) ++ rest = toBeBytes 32 32 ++ (toBeBytes 32 (utf8 cs).length ++ (utf8 cs ++
      (List.replicate ((32 - (utf8 cs).length % 32) % 32) 0 ++ rest))) := by simp [abiEncode]
  generalize List.replicate ((32 - (utf8 cs).length % 32) % 32) (0 : UInt8) ++ rest = behind at hshape
  have hoff : wordAt (abiEncode (utf8 cs) ++ rest) 0 = 32 := by
    rw [hshape, wordAt_left (length_toBeBytes 32 32), hword 32 (by norm_num)]
  have hat : wordAt (abiEncode (utf8 cs) ++ rest) 32 = (utf8 cs).length := by
    rw [hshape, wordAt_drop (length_toBeBytes 32 32), wordAt_left (length_toBeBytes 32 _), hword _ (by omega)]
  have hbytes : ((abiEncode (utf8 cs) ++ rest).drop (32 + 32)).take (utf8 cs).length = utf8 cs := by
    rw [hshape, ← List.drop_drop, List.drop_left' (length_toBeBytes 32 32), List.drop_left' (length_toBeBytes 32 _),
      List.take_left]
  have hsize : 32 + 32 + (utf8 cs).length ≤ (abiEncode (utf8 cs) ++ rest).length := by
    rw [hshape]
    simp only [List.length_append, length_toBeBytes]
    omega
  have heq := decodeString_eq (abiEncode (utf8 cs) ++ rest)
  simp only [hoff, wrapU64_of_lt (show 32 < 2 ^ 64 by norm_num), hat,
    wrapU64_of_lt (show (utf8 cs).length < 2 ^ 64 by omega), hbytes, fromUtf8Lossy_utf8] at heq
  rw [heq, if_neg (by omega), if_neg (by omega), if_neg (by omega), if_neg (by omega), if_neg (by omega),
    if_neg (by omega), if_neg (by omega)]

/-- **An ABI string is read right exactly if the positions do not stray**, and every encoded string is read back. -/
theorem strings_are_read (data : { bytes : List UInt8 // bytes.length < 2 ^ 63 })
    (cs : { cs : List Char // (utf8 cs).length < 2 ^ 63 }) (rest : List UInt8) :
    (Right data.val ↔ ¬Strays data.val) ∧ decodeString (abiEncode (utf8 cs.val) ++ rest) = .ok cs.val :=
  ⟨decodeString_right_iff data, decodeString_abiEncode cs.val cs.property rest⟩

/-- An offset of 2^64 and 32 points outside the data, and the string at 32 is returned for it. -/
theorem read_past_the_data : ¬∀ data : { bytes : List UInt8 // bytes.length < 2 ^ 63 }, Right data.val := by
  intro h
  have hdata := h ⟨toBeBytes 32 (2 ^ 64 + 32) ++ toBeBytes 32 1 ++ [0x41], by decide⟩
  rw [decodeString_right_iff] at hdata
  refine hdata ?_
  unfold Strays
  decide +kernel

end Venues
end MobiusSearcher
