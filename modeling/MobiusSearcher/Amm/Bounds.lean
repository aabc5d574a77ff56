/-
# Where reading a pool fails

Naming a pool's accounts and decoding them, for every content of the accounts.
Sums of 32-bit integers leave their type in a few places only: the arrays
around a tick near the ends of the type, or around none where the spacing is
zero (`arraysAround_fails`); an initialized tick whose index is past the end
(`Whirlpool.tickArray_cases`); a run of arrays, side by side from the lowest
one, that goes past it (`withArrays_fails`); the one bin array that would
(`Dlmm.binArrays_cons`). Everything else gives a value or none.

Key definitions: `Spaced`, `PastEnd`, `Whirlpool.Overflows`, `Dlmm.Overflows`,
`DependenciesFail`, `DecodeFails`.
Key theorems: `dependencies_fails_iff`, `Whirlpool.decode_fails`,
`Raydium.decode_fails`, `Dlmm.decode_fails`, `decode_fails_iff`.
-/
import MobiusSearcher.Amm.Decode

namespace MobiusSearcher
namespace Amm

open Checked

/-! ### Fields -/

theorem uintAt_eq_ok {n offset : ℕ} {d : Bytes} (h : offset + n ≤ d.length) :
    uintAt n d offset = .ok ⟨le (d.slice offset n), le_slice_lt d offset n⟩ := if_pos h

theorem uintAt_not_fails {n offset : ℕ} {d : Bytes} : ¬(uintAt n d offset).Fails := if_none_not_fails

theorem intAt_not_fails {n offset : ℕ} {d : Bytes} : ¬(intAt n d offset).Fails := by
  unfold intAt
  rw [fails_bind_of uintAt_not_fails]
  rintro ⟨v, -, h⟩
  exact absurd h (not_fails_ok _)

theorem signed_range {n v : ℕ} (hn : 0 < n) (hv : v < 256 ^ n) :
    -2 ^ (8 * n - 1) ≤ signed (8 * n) v ∧ signed (8 * n) v < 2 ^ (8 * n - 1) := by
  have hpow : 256 ^ n = 2 * 2 ^ (8 * n - 1) := by
    rw [← pow_succ', show 8 * n - 1 + 1 = 8 * n by omega, pow_mul]
    norm_num
  have hfull : (2 : ℤ) ^ (8 * n) = 2 * 2 ^ (8 * n - 1) := by
    rw [← pow_succ', show 8 * n - 1 + 1 = 8 * n by omega]
  have hhalf : ((2 ^ (8 * n - 1) : ℕ) : ℤ) = 2 ^ (8 * n - 1) := by push_cast; rfl
  rw [hpow] at hv
  unfold signed
  rw [hfull, ← hhalf]
  generalize 2 ^ (8 * n - 1) = m at hv ⊢
  split
  · omega
  · omega

theorem intAt_range {n offset : ℕ} {d : Bytes} {x : ℤ} (hn : 0 < n) (h : intAt n d offset = .ok x) :
    -2 ^ (8 * n - 1) ≤ x ∧ x < 2 ^ (8 * n - 1) := by
  unfold intAt at h
  obtain ⟨v, -, h⟩ := bind_eq_ok.mp h
  rw [← Except.ok.inj h]
  exact signed_range hn v.2

/-! ### The arrays around a tick -/

/-- The arrays two spans around the one that holds `tick` start at 32-bit ticks. -/
def Spaced (tick span : ℤ) : Prop :=
  span ≠ 0 ∧ -2 ^ 31 ≤ tick / span * span - 2 * span ∧ tick / span * span + 2 * span < 2 ^ 31

theorem arraysAround_fails {tick : ℤ} {spacing n : ℕ} (hs : spacing < 256 ^ 2) (hn : n ≤ 88)
    (ht : -2 ^ 31 ≤ tick ∧ tick < 2 ^ 31) :
    (arrayStart tick spacing n).Fails ∨ (∃ start, arrayStart tick spacing n = .ok start ∧
      (around.mapM (arrayAround start (spacing * n))).Fails) ↔ ¬Spaced tick (spacing * n) := by
  have hsmall : spacing * n ≤ 256 ^ 2 * 88 := Nat.mul_le_mul hs.le hn
  have hspan : ((spacing * n : ℕ) : ℤ) = spacing * n := by push_cast; ring
  have hint : Checked.int 32 (spacing * n) = .ok (spacing * n : ℤ) := by
    rw [← hspan]
    exact int_ok (by omega) (by omega)
  unfold arrayStart
  rw [hint, ok_bind]
  rw [← hspan]
  generalize spacing * n = m at hsmall ⊢
  by_cases h0 : (m : ℤ) = 0
  · rw [if_pos h0]
    exact ⟨fun _ h => h.1 h0, fun _ => .inl rfl⟩
  · rw [if_neg h0, int_fails]
    have hpos : 0 < (m : ℤ) := by omega
    have hle : tick / m * m ≤ tick := Int.ediv_mul_le tick h0
    have hslot : ∀ {start k : ℤ}, k ∈ around → (arrayAround start m k = .ok (.ticks (start + k * m)) ∧
        -2 ^ 31 ≤ start + k * m ∧ start + k * m < 2 ^ 31) ∨ ((arrayAround start m k).Fails ∧
        ¬(-2 ^ 31 ≤ start + k * m ∧ start + k * m < 2 ^ 31)) := by
      intro start k hk
      have hk' : -2 ≤ k ∧ k ≤ 2 := by
        unfold around at hk
        simp only [List.mem_cons, List.not_mem_nil, or_false] at hk
        omega
      have hkm : -(2 * m : ℤ) ≤ k * m ∧ k * m ≤ 2 * m := by constructor <;> nlinarith
      unfold arrayAround
      rw [int_ok (w := 32) (x := k * m) (by omega) (by omega), ok_bind]
      by_cases hin : -2 ^ 31 ≤ start + k * m ∧ start + k * m < 2 ^ 31
      · rw [int_ok (w := 32) hin.1 hin.2]
        exact .inl ⟨rfl, hin⟩
      · refine .inr ⟨fails_bind.mpr (.inl (int_fails.mpr hin)), hin⟩
    have hall : ∀ {start : ℤ}, (around.mapM (arrayAround start m)).Fails ↔
        ∃ k ∈ around, ¬(-2 ^ 31 ≤ start + k * m ∧ start + k * m < 2 ^ 31) := by
      intro start
      rw [mapM_fails_iff_exists fun k hk => (hslot hk).imp (fun h => ⟨_, h.1⟩) And.left]
      refine exists_congr fun k => and_congr_right fun hk => ⟨fun hf => ?_, fun hout => ?_⟩
      · rcases @hslot start k hk with ⟨hok, -⟩ | ⟨-, hout⟩
        · rw [hok] at hf
          exact absurd hf (not_fails_ok _)
        · exact hout
      · rcases @hslot start k hk with ⟨-, hin⟩ | ⟨hf, -⟩
        · exact absurd hin hout
        · exact hf
    unfold Spaced
    constructor
    · rintro (h | ⟨start, hstart, h⟩)
      · omega
      · obtain ⟨-, rfl⟩ := int_eq_ok.mp hstart
        obtain ⟨k, hk, hout⟩ := hall.mp h
        unfold around at hk
        simp only [List.mem_cons, List.not_mem_nil, or_false] at hk
        rcases hk with rfl | rfl | rfl | rfl | rfl <;> omega
    · intro h
      by_cases hstart : -2 ^ 31 ≤ tick / m * m
      · refine .inr ⟨tick / m * m, int_ok hstart (by omega), hall.mpr ?_⟩
        by_cases hlow : -2 ^ 31 ≤ tick / m * m - 2 * m
        · exact ⟨2, by decide, by omega⟩
        · exact ⟨-2, by decide, by omega⟩
      · exact .inl (by omega)

/-- When naming a pool's accounts fails: the tick spacing is zero, or the tick
is within two arrays of the ends of its type. -/
def DependenciesFail (kind : PoolKind) (pool : Bytes) : Prop :=
  match kind with
  | .whirlpool => ∃ spacing tick, Whirlpool.tickSpacing pool = .ok spacing ∧ Whirlpool.currentTick pool = .ok tick ∧
      ¬Spaced tick (spacing * Whirlpool.arrayTicks)
  | .raydiumClmm => ∃ spacing tick, Raydium.tickSpacing pool = .ok spacing ∧ Raydium.currentTick pool = .ok tick ∧
      ¬Spaced tick (spacing * Raydium.arrayTicks)
  | .meteoraDlmm => False

theorem span_ok {spacing n : ℕ} (hs : spacing < 256 ^ 2) (hn : n ≤ 88) :
    Checked.int 32 (spacing * n) = .ok (spacing * n : ℤ) := by
  have hsmall : spacing * n ≤ 256 ^ 2 * 88 := Nat.mul_le_mul hs.le hn
  have hspan : ((spacing * n : ℕ) : ℤ) = spacing * n := by push_cast; ring
  rw [← hspan]
  exact int_ok (by omega) (by omega)

theorem dependencies_fails_iff {kind : PoolKind} {pool : Bytes} :
    (dependencies kind pool).Fails ↔ DependenciesFail kind pool := by
  unfold dependencies DependenciesFail
  cases kind with
  | whirlpool =>
    simp only
    unfold Whirlpool.tickSpacing Whirlpool.currentTick
    rw [fails_bind_of uintAt_not_fails]
    refine exists_congr fun spacing => ?_
    constructor
    · rintro ⟨hspacing, h⟩
      rw [span_ok spacing.2 (by decide), ok_bind, fails_bind_of intAt_not_fails] at h
      obtain ⟨tick, htick, h⟩ := h
      rw [fails_bind] at h
      exact ⟨tick, hspacing, htick, (arraysAround_fails spacing.2 (by decide) (intAt_range (by decide) htick)).mp h⟩
    · rintro ⟨tick, hspacing, htick, h⟩
      refine ⟨hspacing, ?_⟩
      rw [span_ok spacing.2 (by decide), ok_bind, htick, ok_bind, fails_bind]
      exact (arraysAround_fails spacing.2 (by decide) (intAt_range (by decide) htick)).mpr h
  | raydiumClmm =>
    simp only
    unfold Raydium.tickSpacing Raydium.currentTick
    rw [fails_bind_of uintAt_not_fails]
    refine exists_congr fun spacing => ?_
    have hconfig : uintAt 2 pool 235 = .ok spacing → Raydium.ammConfig pool = .ok (pool.slice 9 32) := by
      intro hspacing
      unfold uintAt at hspacing
      have hlen := ((of_if_eq_ok fun _ => none_ne_ok).mp hspacing).1
      exact if_pos (by omega)
    have hlist : ∀ start, (around.mapM (arrayAround start (spacing.1 * Raydium.arrayTicks)) >>= fun arrays =>
        (pure (.config (pool.slice 9 32) :: arrays) : Checked (List Dependency))).Fails ↔
        (around.mapM (arrayAround start (spacing.1 * Raydium.arrayTicks))).Fails := by
      intro start
      rw [fails_bind]
      refine ⟨fun h => ?_, .inl⟩
      rcases h with h | ⟨as, -, h⟩
      · exact h
      · exact absurd h (not_fails_ok _)
    constructor
    · rintro ⟨hspacing, h⟩
      rw [span_ok spacing.2 (by decide), ok_bind, fails_bind_of intAt_not_fails] at h
      obtain ⟨tick, htick, h⟩ := h
      rw [fails_bind] at h
      refine ⟨tick, hspacing, htick, (arraysAround_fails spacing.2 (by decide) (intAt_range (by decide) htick)).mp ?_⟩
      refine h.imp_right fun ⟨start, hstart, hf⟩ => ⟨start, hstart, ?_⟩
      rw [hconfig hspacing, ok_bind] at hf
      exact (hlist start).mp hf
    · rintro ⟨tick, hspacing, htick, h⟩
      refine ⟨hspacing, ?_⟩
      rw [span_ok spacing.2 (by decide), ok_bind, htick, ok_bind, fails_bind]
      refine ((arraysAround_fails spacing.2 (by decide) (intAt_range (by decide) htick)).mpr h).imp_right ?_
      rintro ⟨start, hstart, hf⟩
      refine ⟨start, hstart, ?_⟩
      rw [hconfig hspacing, ok_bind]
      exact (hlist start).mpr hf
  | meteoraDlmm =>
    simp only [iff_false]
    intro h
    unfold Dlmm.activeIdOf at h
    rw [fails_bind_of intAt_not_fails] at h
    obtain ⟨id, hid, h⟩ := h
    have hrange := intAt_range (by decide) hid
    obtain ⟨l₁, k, l₂, hsplit, -, hf⟩ := mapM_fails_iff.mp h
    have hk : k ∈ around := by
      rw [hsplit]
      exact List.mem_append.mpr (.inr (List.mem_cons_self ..))
    unfold around at hk
    simp only [List.mem_cons, List.not_mem_nil, or_false] at hk
    have hindex : -2 ^ 31 ≤ Dlmm.arrayIndex id ∧ Dlmm.arrayIndex id < 2 ^ 31 := by
      unfold Dlmm.arrayIndex Dlmm.binsPerArray
      omega
    rw [int_ok (w := 64) (by omega) (by omega)] at hf
    exact absurd hf (not_fails_ok _)

/-! ### Tick arrays -/

/-- From the lowest start on, side by side, an array goes past the last 32-bit tick. -/
def PastEnd (span : ℤ) : List ℤ → Prop
  | [] => False
  | a :: rest => 2 ^ 31 ≤ a + span ∨ (rest.head? = some (a + span) ∧ PastEnd span rest)

theorem gapped_fails {span : ℤ} (hspan : 0 ≤ span) : ∀ {l : List ℤ} {last : ℤ}, l.getLast? = some last →
    (∀ a ∈ l, -2 ^ 31 ≤ a) →
    ((gapped span l).Fails ∨ (gapped span l = .ok false ∧ 2 ^ 31 ≤ last + span) ↔ PastEnd span l)
  | [], _, hlast, _ => absurd hlast (by simp)
  | [a], last, hlast, _ => by
    obtain rfl := Option.some.inj hlast
    unfold PastEnd gapped
    constructor
    · rintro (h | ⟨-, h⟩)
      · exact absurd h (not_fails_ok _)
      · exact .inl h
    · rintro (h | ⟨h, -⟩)
      · exact .inr ⟨rfl, h⟩
      · exact absurd h (by simp)
  | a :: b :: rest, last, hlast, hall => by
    have ha := hall a (List.mem_cons_self ..)
    rw [List.getLast?_cons_cons] at hlast
    have ih := gapped_fails hspan (l := b :: rest) hlast fun x hx => hall x (List.mem_cons_of_mem a hx)
    unfold gapped PastEnd
    by_cases hout : 2 ^ 31 ≤ a + span
    · refine ⟨fun _ => .inl hout, fun _ => .inl ?_⟩
      rw [fails_bind, int_fails]
      exact .inl (by omega)
    · rw [int_ok (w := 32) (by omega) (by omega), ok_bind]
      by_cases hnext : b = a + span
      · rw [if_neg (not_not.mpr hnext), ih]
        refine ⟨fun h => .inr ⟨congrArg some hnext, h⟩, fun h => ?_⟩
        exact (h.resolve_left hout).2
      · rw [if_pos hnext]
        constructor
        · rintro (h | ⟨h, -⟩)
          · exact absurd h (not_fails_ok _)
          · exact absurd (Except.ok.inj h) (by decide)
        · rintro (h | ⟨h, -⟩)
          · exact absurd h hout
          · exact absurd (Option.some.inj h) hnext

theorem sqrtPriceAtTick_not_fails (t : ℤ) : ¬(sqrtPriceAtTick t).Fails := by
  rw [sqrtPriceAtTick_eq]
  exact if_none_not_fails

theorem tickAtSqrtPrice_not_fails (x : ℕ) : ¬(tickAtSqrtPrice x).Fails := by
  rcases tickAtSqrtPrice_eq x with ⟨-, h⟩ | ⟨t, h, -⟩
  · rw [h]
    exact not_fails_none
  · rw [h]
    exact not_fails_ok t

/-- **Joining arrays fails where a run of them goes past the end.** -/
theorem withArrays_fails {p : Clmm} {arrays : List (ℤ × List Tick)} {span : ℤ} (hspan : 0 ≤ span)
    (hall : ∀ d ∈ arrays, -2 ^ 31 ≤ d.1) :
    (withArrays p arrays span).Fails ↔ PastEnd span ((Table.ordered Prod.fst arrays).map Prod.fst) := by
  have hordered : ∀ d ∈ Table.ordered Prod.fst arrays, -2 ^ 31 ≤ d.1 := by
    intro d hd
    exact hall d ((List.perm_insertionSort _ _).mem_iff.mp hd)
  unfold withArrays
  simp only
  generalize Table.ordered Prod.fst arrays = l at hordered
  cases hfirst : l.head? with
  | none =>
    rw [List.head?_eq_none_iff] at hfirst
    rw [hfirst]
    exact ⟨fun h => absurd h not_fails_none, fun h => h.elim⟩
  | some first =>
    have hne : l ≠ [] := by
      rintro rfl
      exact absurd hfirst (by simp)
    obtain ⟨last, hlast⟩ : ∃ last, l.getLast? = some last := ⟨_, List.getLast?_eq_some_getLast hne⟩
    have hlast' : (l.map Prod.fst).getLast? = some last.1 := by
      rw [List.getLast?_map, hlast]
      rfl
    have hends := gapped_fails hspan hlast' (fun a ha => by
      obtain ⟨d, hd, rfl⟩ := List.mem_map.mp ha
      exact hordered d hd)
    have hmem : last ∈ l := List.mem_of_getLast? hlast
    have hlow := hordered last hmem
    rw [← hends, hlast]
    show (gapped span (l.map Prod.fst) >>= _).Fails ↔ _
    rw [fails_bind]
    refine or_congr_right ?_
    constructor
    · rintro ⟨apart, hapart, h⟩
      cases apart with
      | true => exact absurd h not_fails_none
      | false =>
        refine ⟨hapart, ?_⟩
        by_contra hlt
        rw [if_neg (by decide), int_ok (w := 32) (by omega) (by omega), ok_bind] at h
        split at h
        · exact absurd h not_fails_none
        · rw [ok_bind, fails_bind_of (tickAtSqrtPrice_not_fails _)] at h
          obtain ⟨t, -, h⟩ := h
          split at h
          · exact absurd h (not_fails_ok _)
          · exact absurd h not_fails_none
    · rintro ⟨hapart, h⟩
      refine ⟨false, hapart, ?_⟩
      rw [if_neg (by decide), fails_bind, int_fails]
      exact .inl (by omega)

theorem heldTicks_fails {slot : ℕ → Checked (Option Tick)} : ∀ {is : List ℕ},
    (∀ i ∈ is, (∃ t, slot i = .ok t) ∨ (slot i).Fails) →
    (((heldTicks slot is).Fails ↔ ∃ i ∈ is, (slot i).Fails) ∧
      ((∃ ts, heldTicks slot is = .ok ts) ∨ (heldTicks slot is).Fails))
  | [], _ => ⟨⟨fun h => absurd h (not_fails_ok _), fun ⟨_, h, _⟩ => absurd h List.not_mem_nil⟩, .inl ⟨[], rfl⟩⟩
  | i :: is, htotal => by
    obtain ⟨ih, ihtotal⟩ := @heldTicks_fails slot is fun j hj => htotal j (List.mem_cons_of_mem i hj)
    unfold heldTicks
    rcases htotal i (List.mem_cons_self ..) with ⟨t, ht⟩ | hi
    · rw [ht, ok_bind]
      rcases ihtotal with ⟨ts, hts⟩ | hf
      · rw [hts, ok_bind]
        refine ⟨⟨fun h => absurd h (not_fails_ok _), ?_⟩, .inl ⟨_, rfl⟩⟩
        rintro ⟨j, hj, hf⟩
        rcases List.mem_cons.mp hj with rfl | hj
        · rw [ht] at hf
          exact absurd hf (not_fails_ok t)
        · have hnone := ih.mpr ⟨j, hj, hf⟩
          rw [hts] at hnone
          exact absurd hnone (not_fails_ok ts)
      · obtain ⟨j, hj, hfj⟩ := ih.mp hf
        exact ⟨⟨fun _ => ⟨j, List.mem_cons_of_mem i hj, hfj⟩, fun _ => fails_bind.mpr (.inl hf)⟩,
          .inr (fails_bind.mpr (.inl hf))⟩
    · exact ⟨⟨fun _ => ⟨i, List.mem_cons_self .., hi⟩, fun _ => fails_bind.mpr (.inl hi)⟩,
        .inr (fails_bind.mpr (.inl hi))⟩

theorem intAt_eq_ok {n offset : ℕ} {d : Bytes} (h : offset + n ≤ d.length) :
    intAt n d offset = .ok (signed (8 * n) (le (d.slice offset n))) := by
  unfold intAt
  rw [uintAt_eq_ok h]
  rfl

/-- A list mapped in order, where it gives a value: in every place, what its element gives. -/
theorem mapM_map {α β γ : Type} {f : α → Checked β} {g : β → γ} {k : α → γ} (hk : ∀ {a b}, f a = .ok b → g b = k a) :
    ∀ {as : List α} {bs : List β}, as.mapM f = .ok bs → bs.map g = as.map k
  | [], bs, h => by
    rw [List.mapM_nil] at h
    rw [← Except.ok.inj h]
    rfl
  | a :: as, bs, h => by
    rw [List.mapM_cons] at h
    obtain ⟨b, hb, h⟩ := bind_eq_ok.mp h
    obtain ⟨bs', hbs, h⟩ := bind_eq_ok.mp h
    rw [← Except.ok.inj h, List.map_cons, List.map_cons, hk hb, mapM_map hk hbs]

theorem mapM_ok_of_forall {α β : Type} {f : α → Checked β} : ∀ {as : List α}, (∀ a ∈ as, ∃ b, f a = .ok b) →
    ∃ bs, as.mapM f = .ok bs
  | [], _ => ⟨[], rfl⟩
  | a :: as, hall => by
    obtain ⟨b, hb⟩ := hall a (List.mem_cons_self ..)
    obtain ⟨bs, hbs⟩ := mapM_ok_of_forall fun x hx => hall x (List.mem_cons_of_mem a hx)
    rw [List.mapM_cons, hb, ok_bind, hbs]
    exact ⟨_, rfl⟩

theorem forall_of_mapM_ok {α β : Type} {f : α → Checked β} : ∀ {as : List α} {bs : List β}, as.mapM f = .ok bs →
    ∀ a ∈ as, ∃ b, f a = .ok b
  | [], _, _, _, ha => absurd ha List.not_mem_nil
  | a :: as, bs, h, x, hx => by
    rw [List.mapM_cons] at h
    obtain ⟨b, hb, h⟩ := bind_eq_ok.mp h
    obtain ⟨bs', hbs, -⟩ := bind_eq_ok.mp h
    rcases List.mem_cons.mp hx with rfl | hx
    · exact ⟨b, hb⟩
    · exact forall_of_mapM_ok hbs x hx

/-- The starts of arrays joined in order. -/
theorem ordered_starts {decoded : List (ℤ × List Tick)} {starts : List ℤ} (h : decoded.map Prod.fst = starts) :
    (Table.ordered Prod.fst decoded).map Prod.fst = starts.insertionSort (· ≤ ·) := by
  rw [← h]
  exact List.map_insertionSort _ _ Prod.fst decoded fun a _ b _ => Iff.rfl

namespace Whirlpool

/-- A fixed-size tick array account. -/
def IsArray (a : Bytes) : Prop := a.length = 9988 ∧ a.slice 0 8 = fixedArray

def startOf (a : Bytes) : ℤ := signed 32 (le (a.slice 8 4))

/-- An initialized tick of it has an index past the last 32-bit tick. -/
def Overflows (spacing : ℕ) (a : Bytes) : Prop :=
  IsArray a ∧ ∃ i < arrayTicks, a.byte (12 + i * 113) ≠ 0 ∧ 2 ^ 31 ≤ startOf a + i * spacing

/-- It can be read. -/
def Reads (spacing : ℕ) (a : Bytes) : Prop := IsArray a ∧ ¬Overflows spacing a

theorem slot_cases {a : Bytes} {start : ℤ} {spacing i : ℕ} (ha : a.length = 9988) (hs : spacing < 256 ^ 2)
    (hstart : -2 ^ 31 ≤ start) (hi : i < arrayTicks) :
    ((slot a start spacing i).Fails ↔ a.byte (12 + i * 113) ≠ 0 ∧ 2 ^ 31 ≤ start + i * spacing) ∧
      ((∃ t, slot a start spacing i = .ok t) ∨ (slot a start spacing i).Fails) := by
  unfold arrayTicks at hi
  have hbyte : byteAt a (12 + i * 113) = .ok (a.byte (12 + i * 113)) := if_pos (by omega)
  have hpast : Checked.int 32 (i * spacing) = .ok (i * spacing : ℤ) := by
    rw [mul_comm]
    exact span_ok hs hi.le
  unfold slot
  rw [hbyte, ok_bind]
  by_cases h0 : a.byte (12 + i * 113) = 0
  · rw [if_pos h0]
    exact ⟨⟨fun h => absurd h (not_fails_ok _), fun h => absurd h0 h.1⟩, .inl ⟨none, rfl⟩⟩
  · rw [if_neg h0, hpast, ok_bind]
    have hnonneg : (0 : ℤ) ≤ i * spacing := mul_nonneg (Int.natCast_nonneg i) (Int.natCast_nonneg spacing)
    by_cases hout : 2 ^ 31 ≤ start + i * spacing
    · have hf : (Checked.int 32 (start + i * spacing)).Fails := int_fails.mpr (by omega)
      exact ⟨⟨fun _ => ⟨h0, hout⟩, fun _ => fails_bind.mpr (.inl hf)⟩, .inr (fails_bind.mpr (.inl hf))⟩
    · rw [int_ok (w := 32) (by omega) (by omega), ok_bind, intAt_eq_ok (by omega), ok_bind]
      exact ⟨⟨fun h => absurd h (not_fails_ok _), fun h => absurd h.2 hout⟩, .inl ⟨_, rfl⟩⟩

theorem tickArray_cases {spacing : ℕ} (hs : spacing < 256 ^ 2) (a : Bytes) :
    ((tickArray spacing a).Fails ↔ Overflows spacing a) ∧
      ((∃ d, tickArray spacing a = .ok d) ↔ Reads spacing a) ∧
      ∀ d, tickArray spacing a = .ok d → d.1 = startOf a := by
  unfold Overflows Reads tickArray
  by_cases harray : IsArray a
  · have hcond : ¬(a.length ≠ 9988 ∨ a.slice 0 8 ≠ fixedArray) := by
      rintro (h | h)
      · exact h harray.1
      · exact h harray.2
    have hlen := harray.1
    have hstart : intAt 4 a 8 = .ok (startOf a) := intAt_eq_ok (by omega)
    have hlow := (intAt_range (by decide) hstart).1
    have hslots := @heldTicks_fails (slot a (startOf a) spacing) (List.range arrayTicks) fun i hi =>
      (slot_cases hlen hs hlow (List.mem_range.mp hi)).2
    have hiff : (∃ i ∈ List.range arrayTicks, (slot a (startOf a) spacing i).Fails) ↔
        ∃ i < arrayTicks, a.byte (12 + i * 113) ≠ 0 ∧ 2 ^ 31 ≤ startOf a + i * spacing := by
      refine exists_congr fun i => ?_
      rw [List.mem_range]
      exact and_congr_right fun hi => (slot_cases hlen hs hlow hi).1
    rw [if_neg hcond, hstart, ok_bind]
    rcases hslots.2 with ⟨ts, hts⟩ | hf
    · have hno : ¬∃ i < arrayTicks, a.byte (12 + i * 113) ≠ 0 ∧ 2 ^ 31 ≤ startOf a + i * spacing := by
        rw [← hiff, ← hslots.1, hts]
        exact not_fails_ok ts
      rw [hts, ok_bind]
      refine ⟨⟨fun h => absurd h (not_fails_ok _), fun h => absurd h.2 hno⟩,
        ⟨fun _ => ⟨harray, fun h => hno h.2⟩, fun _ => ⟨_, rfl⟩⟩, fun d hd => ?_⟩
      rw [← Except.ok.inj hd]
    · have hyes := hiff.mp (hslots.1.mp hf)
      have hfails := fails_bind (f := fun ticks => (pure (startOf a, ticks) : Checked _)).mpr (.inl hf)
      refine ⟨⟨fun _ => ⟨harray, hyes⟩, fun _ => hfails⟩, ⟨?_, fun h => absurd ⟨harray, hyes⟩ h.2⟩, ?_⟩
      · rintro ⟨d, hd⟩
        rw [hd] at hfails
        exact absurd hfails (not_fails_ok d)
      · intro d hd
        rw [hd] at hfails
        exact absurd hfails (not_fails_ok d)
  · have hcond : a.length ≠ 9988 ∨ a.slice 0 8 ≠ fixedArray := by
      unfold IsArray at harray
      by_contra h
      rw [not_or, not_not, not_not] at h
      exact harray h
    rw [if_pos hcond]
    refine ⟨⟨fun h => absurd h not_fails_none, fun h => absurd h.1 harray⟩,
      ⟨fun ⟨d, hd⟩ => absurd hd none_ne_ok, fun h => absurd h.1 harray⟩, fun d hd => absurd hd none_ne_ok⟩

/-- When decoding a Whirlpool fails: the first array that cannot be read has an
initialized tick past the end, or they all can be and a run of them goes past it. -/
def DecodeFails (pool : Bytes) (arrays : List Bytes) : Prop :=
  ∃ spacing, tickSpacing pool = .ok spacing ∧ uintAt 2 pool 43 = .ok spacing ∧
    ((∃ l₁ a l₂, arrays = l₁ ++ a :: l₂ ∧ (∀ b ∈ l₁, Reads spacing b) ∧ Overflows spacing a) ∨
      ((∀ a ∈ arrays, Reads spacing a) ∧ 85 ≤ pool.length ∧
        PastEnd (spacing * arrayTicks) ((arrays.map startOf).insertionSort (· ≤ ·))))

theorem decode_fails {pool : Bytes} {arrays : List Bytes} : (decode pool arrays).Fails ↔ DecodeFails pool arrays := by
  unfold decode DecodeFails tickSpacing
  rw [fails_bind_of uintAt_not_fails]
  refine exists_congr fun spacing => and_congr_right fun hspacing => ?_
  have hcases := fun a => tickArray_cases spacing.2 a
  rw [fails_bind_of uintAt_not_fails]
  have htier : (∃ tier, uintAt 2 pool 43 = .ok tier ∧ (if tier ≠ spacing then Checked.none else do
      let span ← Checked.int 32 (spacing * arrayTicks)
      let decoded ← arrays.mapM (tickArray spacing)
      let sqrtPrice ← uintAt 16 pool 65
      let tick ← currentTick pool
      let liquidity ← uintAt 16 pool 49
      let feePpm ← uintAt 2 pool 45
      withArrays
        { sqrtPrice, tick, liquidity, feePpm, ticks := [], known := (0, 0)
          sqrtPrice_lt := sqrtPrice.2.trans_eq (by norm_num), liquidity_lt := liquidity.2.trans_eq (by norm_num) }
        decoded span : Checked Clmm).Fails) ↔ uintAt 2 pool 43 = .ok spacing ∧ (do
      let decoded ← arrays.mapM (tickArray spacing)
      let sqrtPrice ← uintAt 16 pool 65
      let tick ← currentTick pool
      let liquidity ← uintAt 16 pool 49
      let feePpm ← uintAt 2 pool 45
      withArrays
        { sqrtPrice, tick, liquidity, feePpm, ticks := [], known := (0, 0)
          sqrtPrice_lt := sqrtPrice.2.trans_eq (by norm_num), liquidity_lt := liquidity.2.trans_eq (by norm_num) }
        decoded (spacing * arrayTicks) : Checked Clmm).Fails := by
    constructor
    · rintro ⟨tier, htier, h⟩
      by_cases hne : tier ≠ spacing
      · rw [if_pos hne] at h
        exact absurd h not_fails_none
      · rw [if_neg hne, span_ok spacing.2 (by decide), ok_bind] at h
        rw [not_not] at hne
        rw [← hne] at h ⊢
        exact ⟨htier, h⟩
    · rintro ⟨htier, h⟩
      refine ⟨spacing, htier, ?_⟩
      rw [if_neg (by simp), span_ok spacing.2 (by decide), ok_bind]
      exact h
  rw [htier]
  refine and_congr_right fun _ => ?_
  rw [fails_bind, mapM_fails_iff]
  refine or_congr ?_ ?_
  · refine exists_congr fun l₁ => exists_congr fun a => exists_congr fun l₂ => and_congr_right fun _ => ?_
    exact and_congr (forall_congr' fun b => imp_congr_right fun _ => (hcases b).2.1) (hcases a).1
  · have hrest : ∀ {decoded}, arrays.mapM (tickArray spacing) = .ok decoded → ((do
        let sqrtPrice ← uintAt 16 pool 65
        let tick ← currentTick pool
        let liquidity ← uintAt 16 pool 49
        let feePpm ← uintAt 2 pool 45
        withArrays
          { sqrtPrice, tick, liquidity, feePpm, ticks := [], known := (0, 0)
            sqrtPrice_lt := sqrtPrice.2.trans_eq (by norm_num), liquidity_lt := liquidity.2.trans_eq (by norm_num) }
          decoded (spacing * arrayTicks) : Checked Clmm).Fails ↔ 85 ≤ pool.length ∧
        PastEnd (spacing * arrayTicks) ((arrays.map startOf).insertionSort (· ≤ ·))) := by
      intro decoded hdecoded
      have hstarts := mapM_map (fun {a d} hd => (hcases a).2.2 d hd) hdecoded
      have hlow : ∀ d ∈ decoded, -2 ^ 31 ≤ d.1 := by
        intro d hd
        obtain ⟨a, -, ha⟩ := mapM_eq_ok hdecoded d hd
        rw [(hcases a).2.2 d ha]
        exact (signed_range (n := 4) (by decide) (le_slice_lt a 8 4)).1
      rw [← ordered_starts hstarts]
      have hspan : (0 : ℤ) ≤ spacing.1 * arrayTicks := mul_nonneg (Int.natCast_nonneg _) (Int.natCast_nonneg _)
      unfold currentTick
      constructor
      · intro h
        rw [fails_bind_of uintAt_not_fails] at h
        obtain ⟨sqrtPrice, -, h⟩ := h
        rw [fails_bind_of intAt_not_fails] at h
        obtain ⟨tick, htick, h⟩ := h
        rw [fails_bind_of uintAt_not_fails] at h
        obtain ⟨liquidity, -, h⟩ := h
        rw [fails_bind_of uintAt_not_fails] at h
        obtain ⟨feePpm, -, h⟩ := h
        refine ⟨?_, (withArrays_fails hspan hlow).mp h⟩
        unfold intAt at htick
        obtain ⟨v, hv, -⟩ := bind_eq_ok.mp htick
        unfold uintAt at hv
        have hlen := ((of_if_eq_ok fun _ => none_ne_ok).mp hv).1
        exact hlen
      · rintro ⟨hlen, h⟩
        rw [uintAt_eq_ok (by omega), ok_bind, intAt_eq_ok (by omega), ok_bind, uintAt_eq_ok (by omega), ok_bind,
          uintAt_eq_ok (by omega), ok_bind]
        exact (withArrays_fails hspan hlow).mpr h
    constructor
    · rintro ⟨decoded, hdecoded, h⟩
      refine ⟨fun a ha => ?_, (hrest hdecoded).mp h⟩
      exact (hcases a).2.1.mp (forall_of_mapM_ok hdecoded a ha)
    · rintro ⟨hall, h⟩
      obtain ⟨decoded, hdecoded⟩ := mapM_ok_of_forall fun a ha => (hcases a).2.1.mpr (hall a ha)
      exact ⟨decoded, hdecoded, (hrest hdecoded).mpr h⟩

end Whirlpool

namespace Raydium

def startOf (a : Bytes) : ℤ := signed 32 (le (a.slice 40 4))

theorem slot_ok {a : Bytes} {i : ℕ} (ha : a.length = 10240) (hi : i < arrayTicks) : ∃ t, slot a i = .ok t := by
  unfold arrayTicks at hi
  unfold slot
  rw [uintAt_eq_ok (by omega)]
  simp only
  split
  · exact ⟨none, rfl⟩
  · rw [intAt_eq_ok (by omega), ok_bind, intAt_eq_ok (by omega), ok_bind]
    exact ⟨_, rfl⟩

/-- Reading a tick array never fails. -/
theorem tickArray_cases (a : Bytes) : ¬(tickArray a).Fails ∧ ((∃ d, tickArray a = .ok d) ↔ a.length = 10240) ∧
    ∀ d, tickArray a = .ok d → d.1 = startOf a := by
  unfold tickArray
  by_cases ha : a.length = 10240
  · have hslots : ∀ i ∈ List.range arrayTicks, ∃ t, slot a i = .ok t :=
      fun i hi => slot_ok ha (List.mem_range.mp hi)
    obtain ⟨hiff, hcases⟩ := heldTicks_fails fun i hi => .inl (hslots i hi)
    obtain ⟨ts, hts⟩ : ∃ ts, heldTicks (slot a) (List.range arrayTicks) = .ok ts := by
      refine hcases.resolve_right fun hf => ?_
      obtain ⟨i, hi, hfi⟩ := hiff.mp hf
      obtain ⟨t, ht⟩ := hslots i hi
      rw [ht] at hfi
      exact absurd hfi (not_fails_ok t)
    rw [if_neg (not_not.mpr ha), hts, ok_bind, intAt_eq_ok (by omega), ok_bind]
    refine ⟨not_fails_ok _, ⟨fun _ => ha, fun _ => ⟨_, rfl⟩⟩, fun d hd => ?_⟩
    rw [← Except.ok.inj hd]
    rfl
  · rw [if_pos ha]
    exact ⟨not_fails_none, ⟨fun ⟨d, hd⟩ => absurd hd none_ne_ok, fun h => absurd h ha⟩,
      fun d hd => absurd hd none_ne_ok⟩

/-- When decoding a Raydium pool fails: everything can be read, and a run of the arrays goes past the end. -/
def DecodeFails (pool config : Bytes) (arrays : List Bytes) : Prop :=
  ∃ spacing, tickSpacing pool = .ok spacing ∧ 273 ≤ pool.length ∧ 51 ≤ config.length ∧
    (∀ a ∈ arrays, a.length = 10240) ∧ PastEnd (spacing * arrayTicks) ((arrays.map startOf).insertionSort (· ≤ ·))

theorem decode_fails {pool config : Bytes} {arrays : List Bytes} :
    (decode pool config arrays).Fails ↔ DecodeFails pool config arrays := by
  unfold decode DecodeFails
  have htick : ¬(currentTick pool).Fails := intAt_not_fails
  have hspacing : ¬(tickSpacing pool).Fails := uintAt_not_fails
  rw [fails_bind_of hspacing]
  refine exists_congr fun spacing => and_congr_right fun _ => ?_
  have hspan : (0 : ℤ) ≤ spacing.1 * arrayTicks := mul_nonneg (Int.natCast_nonneg _) (Int.natCast_nonneg _)
  have hreads : ¬(arrays.mapM tickArray).Fails := by
    rw [mapM_fails_iff]
    rintro ⟨l₁, a, l₂, -, -, hf⟩
    exact (tickArray_cases a).1 hf
  have hjoin : ∀ {decoded}, arrays.mapM tickArray = .ok decoded → ∀ p,
      ((withArrays p decoded (spacing.1 * arrayTicks)).Fails ↔
        PastEnd (spacing.1 * arrayTicks) ((arrays.map startOf).insertionSort (· ≤ ·))) := by
    intro decoded hdecoded p
    have hstarts := mapM_map (fun {a d} hd => (tickArray_cases a).2.2 d hd) hdecoded
    rw [← ordered_starts hstarts]
    refine withArrays_fails hspan fun d hd => ?_
    obtain ⟨a, -, ha⟩ := mapM_eq_ok hdecoded d hd
    rw [(tickArray_cases a).2.2 d ha]
    exact (signed_range (n := 4) (by decide) (le_slice_lt a 40 4)).1
  rw [span_ok spacing.2 (by decide), ok_bind, fails_bind_of hreads]
  constructor
  · rintro ⟨decoded, hdecoded, h⟩
    rw [fails_bind_of uintAt_not_fails] at h
    obtain ⟨sqrtPrice, -, h⟩ := h
    rw [fails_bind_of htick] at h
    obtain ⟨tick, hread, h⟩ := h
    rw [fails_bind_of uintAt_not_fails] at h
    obtain ⟨liquidity, -, h⟩ := h
    rw [fails_bind_of uintAt_not_fails] at h
    obtain ⟨feePpm, hfee, h⟩ := h
    obtain ⟨v, hv, -⟩ := bind_eq_ok.mp hread
    have hpool := ((of_if_eq_ok fun _ => none_ne_ok).mp hv).1
    have hconfig := ((of_if_eq_ok fun _ => none_ne_ok).mp hfee).1
    refine ⟨hpool, hconfig, fun a ha => ?_, (hjoin hdecoded _).mp h⟩
    exact (tickArray_cases a).2.1.mp (forall_of_mapM_ok hdecoded a ha)
  · rintro ⟨hpool, hconfig, hall, h⟩
    obtain ⟨decoded, hdecoded⟩ := mapM_ok_of_forall fun a ha => (tickArray_cases a).2.1.mpr (hall a ha)
    refine ⟨decoded, hdecoded, ?_⟩
    unfold currentTick
    rw [uintAt_eq_ok (by omega), ok_bind, intAt_eq_ok (by omega), ok_bind, uintAt_eq_ok (by omega), ok_bind,
      uintAt_eq_ok (by omega), ok_bind]
    exact (hjoin hdecoded _).mpr h

end Raydium

namespace Dlmm

def indexOf (a : Bytes) : ℤ := signed 64 (le (a.slice 8 8))

/-- A bin array account whose first bin has a 32-bit id. -/
def IsArray (a : Bytes) : Prop :=
  a.length = 10136 ∧ -2 ^ 31 ≤ indexOf a * binsPerArray ∧ indexOf a * binsPerArray < 2 ^ 31

/-- Its last bins have none. -/
def Overflows (a : Bytes) : Prop := a.length = 10136 ∧ indexOf a = 30678337

/-- It can be read. -/
def Reads (a : Bytes) : Prop := IsArray a ∧ ¬Overflows a

/-- Every bin's id is in the range the bin arrays have. -/
def Placed (bins : Keyed.Map ℤ Bin) : Prop := ∀ id b, bins.lookup id = some b → -2 ^ 31 < id ∧ id < 2 ^ 31 - 1

theorem placed_insert {bins : Keyed.Map ℤ Bin} (h : Placed bins) {id : ℤ} (hid : -2 ^ 31 < id ∧ id < 2 ^ 31 - 1)
    (b : Bin) : Placed (bins.insert id b) := by
  intro k c hk
  by_cases heq : k = id
  · rw [heq]
    exact hid
  · rw [AList.lookup_insert_ne heq] at hk
    exact h k c hk

theorem binArray_cases {a : Bytes} {first : ℤ} (ha : a.length = 10136) (hfirst : -2 ^ 31 < first) :
    ∀ {is : List ℕ} {bins : Keyed.Map ℤ Bin}, (∀ i ∈ is, i < binsPerArray) →
      ((∀ i ∈ is, first + i < 2 ^ 31) → ∃ bins', binArray a first is bins = .ok bins') ∧
      ((∃ i ∈ is, 2 ^ 31 ≤ first + i) → (binArray a first is bins).Fails) ∧
      ((∀ i ∈ is, first + i < 2 ^ 31 - 1) → Placed bins → ∀ bins', binArray a first is bins = .ok bins' → Placed bins')
  | [], bins, _ => by
    refine ⟨fun _ => ⟨bins, rfl⟩, fun ⟨_, h, _⟩ => absurd h List.not_mem_nil, fun _ hp bins' h => ?_⟩
    rw [← Except.ok.inj h]
    exact hp
  | i :: is, bins, hall => by
    have hi := hall i (List.mem_cons_self ..)
    unfold binsPerArray at hi
    have hfields : ∀ {id}, Checked.int 32 (first + i) = .ok id → ∃ b, binArray a first (i :: is) bins =
        binArray a first is (bins.insert id b) := by
      intro id hid
      rw [binArray, hid, ok_bind, uintAt_eq_ok (by omega), ok_bind, uintAt_eq_ok (by omega), ok_bind,
        uintAt_eq_ok (by omega), ok_bind]
      exact ⟨_, rfl⟩
    by_cases hin : first + i < 2 ^ 31
    · have hid : Checked.int 32 (first + i) = .ok (first + i) := int_ok (by omega) (by omega)
      obtain ⟨b, hstep⟩ := hfields hid
      obtain ⟨hok, hfails, hplaced⟩ := @binArray_cases a first ha hfirst is (bins.insert (first + i) b)
        fun j hj => hall j (List.mem_cons_of_mem i hj)
      rw [hstep]
      refine ⟨fun h => hok fun j hj => h j (List.mem_cons_of_mem i hj), ?_, fun h hp => ?_⟩
      · rintro ⟨j, hj, hout⟩
        rcases List.mem_cons.mp hj with rfl | hj
        · omega
        · exact hfails ⟨j, hj, hout⟩
      · refine hplaced (fun j hj => h j (List.mem_cons_of_mem i hj)) (placed_insert hp ⟨by omega, ?_⟩ b)
        exact h i (List.mem_cons_self ..)
    · have hf : (binArray a first (i :: is) bins).Fails := by
        rw [binArray, fails_bind, int_fails]
        exact .inl (by omega)
      refine ⟨fun h => absurd (h i (List.mem_cons_self ..)) hin, fun _ => hf, fun _ _ bins' h => ?_⟩
      rw [h] at hf
      exact absurd hf (not_fails_ok bins')

theorem binArrays_cons {a : Bytes} {as : List Bytes} {bins : Keyed.Map ℤ Bin} :
    (Overflows a → (binArrays (a :: as) bins).Fails) ∧
    (Reads a → ∃ bins', binArrays (a :: as) bins = binArrays as bins' ∧ (Placed bins → Placed bins')) ∧
    (¬Overflows a → ¬Reads a → binArrays (a :: as) bins = Checked.none) := by
  have hrange : ∀ i ∈ List.range binsPerArray, i < binsPerArray := fun i hi => List.mem_range.mp hi
  have hhead : a.length = 10136 → intAt 8 a 8 = .ok (indexOf a) := fun ha => intAt_eq_ok (by omega)
  have hunfold : IsArray a → binArrays (a :: as) bins =
      binArray a (indexOf a * binsPerArray) (List.range binsPerArray) bins >>= binArrays as := by
    intro h
    rw [binArrays, if_neg (not_not.mpr h.1), hhead h.1, ok_bind, if_neg (not_not.mpr h.2)]
  refine ⟨fun h => ?_, fun h => ?_, fun hover hreads => ?_⟩
  · obtain ⟨ha, hindex⟩ := h
    have hplace : indexOf a * binsPerArray = 2147483590 := by
      rw [hindex]
      rfl
    rw [hunfold ⟨ha, by omega, by omega⟩, fails_bind]
    refine .inl ((binArray_cases ha (by omega) hrange).2.1 ⟨69, by decide, ?_⟩)
    omega
  · obtain ⟨harray, hover⟩ := h
    have hindex : indexOf a ≠ 30678337 := fun h => hover ⟨harray.1, h⟩
    have hlow := harray.2.1
    have hhigh := harray.2.2
    unfold binsPerArray at hlow hhigh
    have hin : ∀ i ∈ List.range binsPerArray, indexOf a * binsPerArray + i < 2 ^ 31 - 1 := by
      intro i hi
      have hlt := hrange i hi
      unfold binsPerArray at hlt ⊢
      omega
    have hfirst : -2 ^ 31 < indexOf a * binsPerArray := by
      unfold binsPerArray
      omega
    obtain ⟨hok, -, hplaced⟩ := @binArray_cases a (indexOf a * binsPerArray) harray.1 hfirst _ bins hrange
    obtain ⟨bins', hbins⟩ := hok fun i hi => by
      have h := hin i hi
      omega
    rw [hunfold harray, hbins, ok_bind]
    exact ⟨bins', rfl, fun hp => hplaced hin hp bins' hbins⟩
  · have hno : ¬IsArray a := fun h => hreads ⟨h, hover⟩
    rw [binArrays]
    by_cases ha : a.length = 10136
    · rw [if_neg (not_not.mpr ha), hhead ha, ok_bind, if_pos fun h => hno ⟨ha, h⟩]
    · rw [if_pos ha]

theorem binArrays_cases : ∀ {arrays : List Bytes} {bins : Keyed.Map ℤ Bin},
    ((binArrays arrays bins).Fails ↔ ∃ l₁ a l₂, arrays = l₁ ++ a :: l₂ ∧ (∀ b ∈ l₁, Reads b) ∧ Overflows a) ∧
      (Placed bins → ∀ bins', binArrays arrays bins = .ok bins' → Placed bins')
  | [], bins => by
    refine ⟨⟨fun h => absurd h (not_fails_ok _), ?_⟩, fun hp bins' h => ?_⟩
    · rintro ⟨l₁, a, l₂, h, -⟩
      exact absurd h (by simp)
    · rw [← Except.ok.inj h]
      exact hp
  | a :: as, bins => by
    obtain ⟨hover, hreads, hnone⟩ := @binArrays_cons a as bins
    by_cases ho : Overflows a
    · have hf := hover ho
      refine ⟨⟨fun _ => ⟨[], a, as, rfl, fun b hb => absurd hb List.not_mem_nil, ho⟩, fun _ => hf⟩, fun _ bins' h => ?_⟩
      rw [h] at hf
      exact absurd hf (not_fails_ok bins')
    by_cases hr : Reads a
    · obtain ⟨bins₁, hstep, hplaced⟩ := hreads hr
      obtain ⟨hiff, hrest⟩ := @binArrays_cases as bins₁
      rw [hstep]
      refine ⟨hiff.trans ⟨?_, ?_⟩, fun hp => hrest (hplaced hp)⟩
      · rintro ⟨l₁, b, l₂, rfl, hall, hb⟩
        refine ⟨a :: l₁, b, l₂, rfl, fun c hc => ?_, hb⟩
        rcases List.mem_cons.mp hc with rfl | hc
        · exact hr
        · exact hall c hc
      · rintro ⟨l₁, b, l₂, hsplit, hall, hb⟩
        cases l₁ with
        | nil =>
          obtain ⟨rfl, -⟩ := List.cons.inj hsplit
          exact absurd hb ho
        | cons c l₁ =>
          obtain ⟨rfl, rfl⟩ := List.cons.inj hsplit
          exact ⟨l₁, b, l₂, rfl, fun d hd => hall d (List.mem_cons_of_mem _ hd), hb⟩
    · rw [hnone ho hr]
      refine ⟨⟨fun h => absurd h not_fails_none, ?_⟩, fun _ bins' h => absurd h none_ne_ok⟩
      rintro ⟨l₁, b, l₂, hsplit, hall, hb⟩
      cases l₁ with
      | nil =>
        obtain ⟨rfl, -⟩ := List.cons.inj hsplit
        exact absurd hb ho
      | cons c l₁ =>
        obtain ⟨rfl, rfl⟩ := List.cons.inj hsplit
        exact absurd (hall _ (List.mem_cons_self ..)) hr

/-- When decoding a DLMM pool fails: the first array that cannot be read is the one with bins past the end. -/
def DecodeFails (arrays : List Bytes) : Prop :=
  ∃ l₁ a l₂, arrays = l₁ ++ a :: l₂ ∧ (∀ b ∈ l₁, Reads b) ∧ Overflows a

theorem decode_fails {pool : Bytes} {arrays : List Bytes} : (decode pool arrays).Fails ↔ DecodeFails arrays := by
  unfold decode DecodeFails
  rw [← (@binArrays_cases arrays ∅).1, fails_bind]
  refine ⟨fun h => h.resolve_right ?_, .inl⟩
  rintro ⟨bins, -, h⟩
  have hactive : ¬(activeIdOf pool).Fails := intAt_not_fails
  rw [fails_bind_of hactive] at h
  obtain ⟨activeId, -, h⟩ := h
  iterate 11
    rw [fails_bind_of uintAt_not_fails] at h
    obtain ⟨_, -, h⟩ := h
  rw [fails_bind_of intAt_not_fails] at h
  obtain ⟨_, -, h⟩ := h
  rw [fails_bind_of intAt_not_fails] at h
  obtain ⟨_, -, h⟩ := h
  exact if_none_not_fails h

end Dlmm

/-! ### Any pool -/

theorem run_ok (arrays : List (Option Bytes)) : ∃ as, run arrays = .ok as := by
  unfold run
  by_cases hempty : arrays.isEmpty = true
  · rw [if_pos hempty]
    exact ⟨[], rfl⟩
  rw [if_neg hempty]
  have hpos : 0 < arrays.length := by
    rw [List.length_pos_iff]
    rintro rfl
    exact hempty rfl
  have hbelow : ((arrays.take (arrays.length / 2)).reverse.takeWhile Option.isSome).length ≤ arrays.length / 2 := by
    refine (List.takeWhile_sublist _).length_le.trans ?_
    rw [List.length_reverse, List.length_take]
    exact min_le_left ..
  have habove : ((arrays.drop (arrays.length / 2 + 1)).takeWhile Option.isSome).length ≤
      arrays.length - (arrays.length / 2 + 1) := by
    refine (List.takeWhile_sublist _).length_le.trans ?_
    rw [List.length_drop]
  simp only
  rw [sub_ok hbelow, ok_bind, if_pos (by omega)]
  exact ⟨_, rfl⟩

/-- When decoding a pool fails, of the arrays around the price that exist without a gap. -/
def DecodeFails (kind : PoolKind) (pool : Bytes) (deps : List (Option Bytes)) : Prop :=
  match kind with
  | .whirlpool => ∃ arrays, run deps = .ok arrays ∧ Whirlpool.DecodeFails pool arrays
  | .raydiumClmm => ∃ config rest arrays, deps = some config :: rest ∧ run rest = .ok arrays ∧
      Raydium.DecodeFails pool config arrays
  | .meteoraDlmm => ∃ arrays, run deps = .ok arrays ∧ Dlmm.DecodeFails arrays

theorem wrapped_fails {α β : Type} {x : Checked α} {g : α → β} :
    (x >>= fun a => (pure (g a) : Checked β)).Fails ↔ x.Fails := by
  rw [fails_bind]
  refine ⟨fun h => h.resolve_right ?_, .inl⟩
  rintro ⟨a, -, h⟩
  exact absurd h (not_fails_ok _)

theorem decode_fails_iff {kind : PoolKind} {pool : Bytes} {deps : List (Option Bytes)} :
    (decode kind pool deps).Fails ↔ DecodeFails kind pool deps := by
  unfold decode DecodeFails
  have hrun : ∀ arrays, ¬(run arrays).Fails := by
    intro arrays h
    obtain ⟨as, has⟩ := run_ok arrays
    rw [has] at h
    exact absurd h (not_fails_ok as)
  cases kind with
  | whirlpool =>
    simp only
    rw [fails_bind_of (hrun deps)]
    exact exists_congr fun arrays => and_congr_right fun _ => wrapped_fails.trans Whirlpool.decode_fails
  | raydiumClmm =>
    cases deps with
    | nil =>
      refine ⟨fun h => absurd h not_fails_none, ?_⟩
      rintro ⟨config, rest, arrays, h, -⟩
      exact absurd h (by simp)
    | cons config rest =>
      simp only
      rw [fails_bind_of ofOption_not_fails]
      constructor
      · rintro ⟨c, hc, h⟩
        rw [fails_bind_of (hrun rest)] at h
        obtain ⟨arrays, harrays, h⟩ := h
        rw [ofOption_eq_ok.mp hc]
        exact ⟨c, rest, arrays, rfl, harrays, Raydium.decode_fails.mp (wrapped_fails.mp h)⟩
      · rintro ⟨c, rest', arrays, hdeps, harrays, h⟩
        obtain ⟨rfl, rfl⟩ := List.cons.inj hdeps
        refine ⟨c, rfl, ?_⟩
        rw [harrays, ok_bind]
        exact wrapped_fails.mpr (Raydium.decode_fails.mpr h)
  | meteoraDlmm =>
    simp only
    rw [fails_bind_of (hrun deps)]
    exact exists_congr fun arrays => and_congr_right fun _ => wrapped_fails.trans Dlmm.decode_fails

end Amm
end MobiusSearcher
