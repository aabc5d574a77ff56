/-
# Since when a position could be liquidated

`apps/mobius-searcher/src/research/liquidation.rs`: `since` asks at whose blocks'
end a position was liquidatable, back from the block before a liquidation: twice
as far each time until the answer is no (`back`), then halving what is left
between (`bisect`). A question can fail, and the answers need not be monotone,
as prices move both ways.

A search is its result and the blocks it asked about, in order. The step is a
`u64` that wraps; `Back` carries what keeps it from wrapping before the floor.

Key definitions: `Asking`, `Back`, `bisect`, `back`, `since`.
Key theorems: `bisect_spec`, `back_spec`, `since_is_right`.
-/
import MobiusSearcher.Lib.Machine
import Mathlib.Data.Nat.Log

namespace MobiusSearcher
namespace Research

open Machine

/-- A search's result, and what it asked. -/
structure Asking (E α : Type) where
  result : Except E α
  asked : List ℕ

namespace Asking

variable {E α β : Type}

def bind (x : Asking E α) (f : α → Asking E β) : Asking E β :=
  match x.result with
  | .error e => ⟨.error e, x.asked⟩
  | .ok a => ⟨(f a).result, x.asked ++ (f a).asked⟩

instance : Monad (Asking E) where
  pure a := ⟨.ok a, []⟩
  bind := bind

/-- Everything asked was answered, up to a failed question that is the result. -/
def Passes (probe : ℕ → Except E Bool) (x : Asking E α) : Prop :=
  match x.result with
  | .ok _ => ∀ n ∈ x.asked, ∃ r, probe n = .ok r
  | .error e => ∃ before n, x.asked = before ++ [n] ∧ probe n = .error e ∧ ∀ m ∈ before, ∃ r, probe m = .ok r

end Asking

variable {E : Type} (probe : ℕ → Except E Bool)

def ask (n : ℕ) : Asking E Bool := ⟨probe n, [n]⟩

/-- Between `lo`, answered no, and `hi`, answered yes. -/
def bisect (lo hi : ℕ) : Asking E ℕ :=
  if hi - lo > 1 then do
    if ← ask probe (lo + (hi - lo) / 2) then bisect lo (lo + (hi - lo) / 2) else bisect (lo + (hi - lo) / 2) hi
  else pure hi
  termination_by hi - lo

/-- The last block answered yes and how far back to step from it. -/
structure Back (floor : ℕ) where
  yes : ℕ
  step : ℕ
  moves : floor < yes → 0 < step ∧ yes + step ≤ 2 ^ 64

namespace Back

variable {floor : ℕ}

/-- The next block to ask about. -/
def next (b : Back floor) : ℕ := max (b.yes - b.step) floor

/-- That block was answered yes too. -/
def further (b : Back floor) : Back floor where
  yes := b.next
  step := wrapU64 (b.step * 2)
  moves h := by
    unfold next at h ⊢
    obtain ⟨hpos, hsum⟩ := b.moves (by omega)
    rw [wrapU64_of_lt (by omega)]
    omega

theorem next_lt (b : Back floor) (h : ¬ b.yes ≤ floor) : b.next < b.yes := by
  have hpos := (b.moves (not_le.mp h)).1
  unfold next
  omega

/-- The block before was answered yes. -/
def start (block floor : UInt64) : Back floor.toNat where
  yes := block.toNat - 1
  step := 1
  moves _ := ⟨one_pos, by have := block.toNat_lt; omega⟩

end Back

variable {floor : ℕ}

/-- Liquidatable at `yes`: twice as far back each time until it is not. -/
def back (b : Back floor) : Asking E (ℕ × Bool) :=
  if _h : b.yes ≤ floor then pure (b.yes, true)
  else do
    if ← ask probe b.next then back b.further
    else
      let hi ← bisect probe b.next b.yes
      pure (hi, false)
  termination_by b.yes
  decreasing_by exact b.next_lt _h

/-- The first block at whose end `probe` says yes, and whether the search stopped at the floor. -/
def search (block floor : UInt64) : Asking E (ℕ × Bool) :=
  if block.toNat = 0 ∨ floor.toNat ≥ block.toNat then pure (block.toNat, decide (floor.toNat ≥ block.toNat))
  else do
    if ← ask probe (block.toNat - 1) then
      back probe (.start block floor)
    else pure (block.toNat, decide (floor.toNat ≥ block.toNat))

/-- With how many blocks were asked. -/
def since (block floor : UInt64) : Asking E (ℕ × Bool × ℕ) :=
  ⟨(search probe block floor).result.map fun r => (r.1, r.2, (search probe block floor).asked.length),
    (search probe block floor).asked⟩

/-! ### A question at a time -/

variable {probe}

theorem ask_bind_error {α : Type} {n : ℕ} {e : E} (h : probe n = .error e) (f : Bool → Asking E α) :
    (ask probe n >>= f) = ⟨.error e, [n]⟩ := by
  change Asking.bind (ask probe n) f = _
  simp [Asking.bind, ask, h]

theorem ask_bind_ok {α : Type} {n : ℕ} {r : Bool} (h : probe n = .ok r) (f : Bool → Asking E α) :
    (ask probe n >>= f) = ⟨(f r).result, n :: (f r).asked⟩ := by
  change Asking.bind (ask probe n) f = _
  simp [Asking.bind, ask, h]

theorem bind_pure {α β : Type} (x : Asking E α) (f : α → β) :
    (x >>= fun a => pure (f a)) = ⟨x.result.map f, x.asked⟩ := by
  change Asking.bind x _ = _
  cases hx : x.result <;> simp [Asking.bind, hx, pure, Except.map]

namespace Asking

variable {α : Type}

theorem passes_error {n : ℕ} {e : E} (h : probe n = .error e) : Passes probe (⟨.error e, [n]⟩ : Asking E α) :=
  ⟨[], n, rfl, h, by simp⟩

theorem Passes.cons {x : Asking E α} {n : ℕ} {r : Bool} (hx : x.Passes probe) (h : probe n = .ok r) :
    Passes probe (⟨x.result, n :: x.asked⟩ : Asking E α) := by
  unfold Passes at hx ⊢
  cases hr : x.result with
  | ok a =>
    rw [hr] at hx
    exact List.forall_mem_cons.mpr ⟨⟨r, h⟩, hx⟩
  | error e =>
    rw [hr] at hx
    obtain ⟨before, m, hasked, herr, hbefore⟩ := hx
    exact ⟨n :: before, m, by simp [hasked], herr, List.forall_mem_cons.mpr ⟨⟨r, h⟩, hbefore⟩⟩

theorem Passes.map {β : Type} {x : Asking E α} (hx : x.Passes probe) (f : α → β) :
    Passes probe (⟨x.result.map f, x.asked⟩ : Asking E β) := by
  unfold Passes at hx ⊢
  cases hr : x.result with
  | ok a => simpa [hr, Except.map] using hx
  | error e => simpa [hr, Except.map] using hx

end Asking

theorem bisect_done {lo hi : ℕ} (h : ¬ hi - lo > 1) : bisect probe lo hi = ⟨.ok hi, []⟩ := by
  rw [bisect, if_neg h]
  rfl

theorem bisect_error {lo hi : ℕ} {e : E} (h : hi - lo > 1) (hp : probe (lo + (hi - lo) / 2) = .error e) :
    bisect probe lo hi = ⟨.error e, [lo + (hi - lo) / 2]⟩ := by
  rw [bisect, if_pos h, ask_bind_error hp]

theorem bisect_ok {lo hi : ℕ} {r : Bool} (h : hi - lo > 1) (hp : probe (lo + (hi - lo) / 2) = .ok r) :
    bisect probe lo hi =
      let x := if r then bisect probe lo (lo + (hi - lo) / 2) else bisect probe (lo + (hi - lo) / 2) hi
      ⟨x.result, (lo + (hi - lo) / 2) :: x.asked⟩ := by
  rw [bisect, if_pos h, ask_bind_ok hp]

theorem back_floor {b : Back floor} (h : b.yes ≤ floor) : back probe b = ⟨.ok (b.yes, true), []⟩ := by
  rw [back, dif_pos h]
  rfl

theorem back_error {b : Back floor} {e : E} (h : ¬ b.yes ≤ floor) (hp : probe b.next = .error e) :
    back probe b = ⟨.error e, [b.next]⟩ := by
  rw [back, dif_neg h, ask_bind_error hp]

theorem back_yes {b : Back floor} (h : ¬ b.yes ≤ floor) (hp : probe b.next = .ok true) :
    back probe b = ⟨(back probe b.further).result, b.next :: (back probe b.further).asked⟩ := by
  rw [back, dif_neg h, ask_bind_ok hp, if_pos rfl]

theorem back_no {b : Back floor} (h : ¬ b.yes ≤ floor) (hp : probe b.next = .ok false) :
    back probe b = ⟨(bisect probe b.next b.yes).result.map (·, false), b.next :: (bisect probe b.next b.yes).asked⟩ := by
  rw [back, dif_neg h, ask_bind_ok hp, if_neg (by simp), bind_pure]

/-! ### Halving what is left -/

/-- What is known of a block found between `lo` and `hi`. -/
structure Between (probe : ℕ → Except E Bool) (lo hi : ℕ) (asked : List ℕ) (b : ℕ) : Prop where
  gt : lo < b
  le : b ≤ hi
  yes : b = hi ∨ b ∈ asked ∧ probe b = .ok true
  no : b - 1 = lo ∨ b - 1 ∈ asked ∧ probe (b - 1) = .ok false

theorem Between.widen {lo hi lo' hi' b : ℕ} {asked asked' : List ℕ} (h : Between probe lo' hi' asked b)
    (hsub : ∀ n ∈ asked, n ∈ asked') (hlo : lo' = lo ∨ lo < lo' ∧ lo' ∈ asked' ∧ probe lo' = .ok false)
    (hhi : hi' = hi ∨ hi' < hi ∧ hi' ∈ asked' ∧ probe hi' = .ok true) : Between probe lo hi asked' b where
  gt := lt_of_le_of_lt (by omega) h.gt
  le := h.le.trans (by omega)
  yes := by
    rcases h.yes with rfl | ⟨hmem, hp⟩
    · exact hhi.imp_right And.right
    · exact Or.inr ⟨hsub b hmem, hp⟩
  no := by
    rcases h.no with he | ⟨hmem, hp⟩
    · rw [he]
      exact hlo.imp_right And.right
    · exact Or.inr ⟨hsub _ hmem, hp⟩

/-- Only blocks between are asked about, no more than halvings take. -/
theorem bisect_spec {lo hi : ℕ} (hlt : lo < hi) :
    (bisect probe lo hi).Passes probe ∧ (∀ n ∈ (bisect probe lo hi).asked, lo < n ∧ n < hi) ∧
      (∀ b, (bisect probe lo hi).result = .ok b → Between probe lo hi (bisect probe lo hi).asked b) ∧
      (bisect probe lo hi).asked.length ≤ Nat.clog 2 (hi - lo) := by
  by_cases h : hi - lo > 1
  swap
  · rw [bisect_done h]
    refine ⟨by simp [Asking.Passes], by simp, fun b hb => ?_, by simp⟩
    obtain rfl := Except.ok.inj hb
    exact ⟨hlt, le_rfl, Or.inl rfl, Or.inl (by omega)⟩
  have hhalf : Nat.clog 2 (hi - lo) = Nat.clog 2 ((hi - lo + 1) / 2) + 1 := Nat.clog_of_two_le (by omega) (by omega)
  generalize hmid : lo + (hi - lo) / 2 = mid
  cases hp : probe mid with
  | error e =>
    rw [bisect_error h (hmid ▸ hp), hmid]
    refine ⟨Asking.passes_error hp, ?_, nofun, by simp [hhalf]⟩
    simp only [List.mem_singleton, forall_eq]
    omega
  | ok r =>
    -- the half the search goes on in
    obtain ⟨lo', hi', hgo, hlo, hhi, hlt', hshort⟩ : ∃ lo' hi', bisect probe lo hi =
        ⟨(bisect probe lo' hi').result, mid :: (bisect probe lo' hi').asked⟩ ∧
        (lo' = lo ∨ lo < lo' ∧ lo' = mid ∧ probe lo' = .ok false) ∧
        (hi' = hi ∨ hi' < hi ∧ hi' = mid ∧ probe hi' = .ok true) ∧ lo' < hi' ∧ hi' - lo' ≤ (hi - lo + 1) / 2 := by
      rw [bisect_ok h (hmid ▸ hp), hmid]
      cases r with
      | true => exact ⟨lo, mid, rfl, Or.inl rfl, Or.inr ⟨by omega, rfl, hp⟩, by omega, by omega⟩
      | false => exact ⟨mid, hi, rfl, Or.inr ⟨by omega, rfl, hp⟩, Or.inl rfl, by omega, by omega⟩
    obtain ⟨hpass, hwithin, hfound, hfew⟩ := bisect_spec hlt'
    rw [hgo]
    refine ⟨hpass.cons hp, List.forall_mem_cons.mpr ⟨by omega, fun n hn => ?_⟩, fun b hb => ?_, ?_⟩
    · have := hwithin n hn
      omega
    · refine (hfound b hb).widen (fun n => List.mem_cons_of_mem mid) ?_ ?_
      · exact hlo.imp_right fun ⟨hlt, he, hp⟩ => ⟨hlt, he ▸ List.mem_cons_self, hp⟩
      · exact hhi.imp_right fun ⟨hlt, he, hp⟩ => ⟨hlt, he ▸ List.mem_cons_self, hp⟩
    · have hmono := Nat.clog_mono_right 2 hshort
      simp only [List.length_cons]
      omega
  termination_by hi - lo

/-! ### Stepping back -/

/-- What is known of the result of stepping back from `yes`: the floor, all answered yes, or a block answered yes
after one answered no. -/
def Stepped (probe : ℕ → Except E Bool) (floor yes : ℕ) (asked : List ℕ) : ℕ × Bool → Prop
  | (b, true) => b ≤ floor ∧ (b = yes ∨ b ∈ asked) ∧ ∀ n ∈ asked, probe n = .ok true
  | (b, false) => floor < b ∧ b ≤ yes ∧ (b = yes ∨ b ∈ asked ∧ probe b = .ok true) ∧
      b - 1 ∈ asked ∧ probe (b - 1) = .ok false

theorem back_spec (b : Back floor) :
    (back probe b).Passes probe ∧ (∀ n ∈ (back probe b).asked, floor ≤ n ∧ n < b.yes) ∧
      ∀ r, (back probe b).result = .ok r → Stepped probe floor b.yes (back probe b).asked r := by
  by_cases h : b.yes ≤ floor
  · rw [back_floor h]
    refine ⟨by simp [Asking.Passes], by simp, fun r hr => ?_⟩
    obtain rfl := Except.ok.inj hr
    exact ⟨h, Or.inl rfl, by simp⟩
  have hlt := b.next_lt h
  have hge : floor ≤ b.next := le_max_right _ _
  cases hp : probe b.next with
  | error e =>
    rw [back_error h hp]
    exact ⟨Asking.passes_error hp, by simp [hge, hlt], nofun⟩
  | ok answer =>
    cases answer with
    | true =>
      obtain ⟨hpass, hwithin, hfound⟩ := back_spec b.further
      rw [back_yes h hp]
      refine ⟨hpass.cons hp, List.forall_mem_cons.mpr ⟨⟨hge, hlt⟩, fun n hn => ?_⟩, fun r hr => ?_⟩
      · have := hwithin n hn
        exact ⟨this.1, this.2.trans hlt⟩
      · obtain ⟨n, stopped⟩ := r
        have hn := hfound _ hr
        cases stopped with
        | true =>
          obtain ⟨hle, hmem, hall⟩ := hn
          exact ⟨hle, Or.inr (List.mem_cons.mpr hmem), List.forall_mem_cons.mpr ⟨hp, hall⟩⟩
        | false =>
          obtain ⟨hgt, hle, hyes, hmem, hno⟩ := hn
          refine ⟨hgt, hle.trans hlt.le, Or.inr ?_, List.mem_cons_of_mem _ hmem, hno⟩
          rcases hyes with rfl | ⟨hmem, hyes⟩
          · exact ⟨List.mem_cons_self, hp⟩
          · exact ⟨List.mem_cons_of_mem _ hmem, hyes⟩
    | false =>
      obtain ⟨hpass, hwithin, hfound, -⟩ := @bisect_spec E probe _ _ hlt
      rw [back_no h hp]
      refine ⟨(hpass.map _).cons hp, List.forall_mem_cons.mpr ⟨⟨hge, hlt⟩, fun n hn => ?_⟩, fun r hr => ?_⟩
      · have := hwithin n hn
        exact ⟨hge.trans this.1.le, this.2⟩
      · cases hb : (bisect probe b.next b.yes).result with
        | error e =>
          rw [hb] at hr
          exact nomatch hr
        | ok n =>
          rw [hb] at hr
          obtain rfl := Except.ok.inj hr
          obtain ⟨hgt, hle, hyes, hno⟩ := hfound n hb
          refine ⟨hge.trans_lt hgt, hle, hyes.imp_right fun hy => ⟨List.mem_cons_of_mem _ hy.1, hy.2⟩, ?_⟩
          rcases hno with he | ⟨hmem, hno⟩
          · rw [he]
            exact ⟨List.mem_cons_self, hp⟩
          · exact ⟨List.mem_cons_of_mem _ hmem, hno⟩
  termination_by b.yes
  decreasing_by exact b.next_lt h

/-- After `i` steps back of doubling length, each but the one to the floor its full length: no more questions than
twice the logarithm of how far back the result is. -/
theorem back_few (block i : ℕ) (b : Back floor) (hyes : b.yes < block)
    (hstep : floor < b.yes → b.step = 2 ^ i ∧ b.yes + 2 ^ i = block)
    (hfloor : b.yes ≤ floor → 2 ^ i ≤ 2 * (block - b.yes)) {n : ℕ} {stopped : Bool}
    (h : (back probe b).result = .ok (n, stopped)) :
    (back probe b).asked.length + i + 1 ≤ 2 * (Nat.log 2 (block - n + 1) + 1) := by
  by_cases hle : b.yes ≤ floor
  · rw [back_floor hle] at h ⊢
    obtain ⟨rfl, -⟩ := Prod.mk.inj (Except.ok.inj h)
    have hlog : i ≤ Nat.log 2 (2 * (block - b.yes)) := Nat.le_log_of_pow_le (by omega) (hfloor hle)
    rw [mul_comm, Nat.log_mul_base (by omega) (by omega)] at hlog
    have hmono : Nat.log 2 (block - b.yes) ≤ Nat.log 2 (block - b.yes + 1) := Nat.log_mono_right (by omega)
    simp only [List.length_nil]
    omega
  obtain ⟨hs, hsum⟩ := hstep (not_le.mp hle)
  have hlt := b.next_lt hle
  cases hp : probe b.next with
  | error e =>
    rw [back_error hle hp] at h
    exact nomatch h
  | ok answer =>
    cases answer with
    | true =>
      rw [back_yes hle hp] at h ⊢
      have hnext : floor < b.next → b.next = b.yes - 2 ^ i := by
        unfold Back.next
        omega
      have ih := back_few block (i + 1) b.further (hlt.trans hyes) (fun hf => ?_) (fun _ => ?_) h
      · simp only [List.length_cons]
        omega
      · have := hnext hf
        have hmoves := b.moves (not_le.mp hle)
        have hf' : floor < b.yes - 2 ^ i := this ▸ hf
        change wrapU64 (b.step * 2) = _ ∧ b.next + _ = _
        rw [pow_succ, wrapU64_of_lt (by omega)]
        omega
      · change _ ≤ 2 * (block - b.next)
        rw [pow_succ]
        omega
    | false =>
      rw [back_no hle hp] at h ⊢
      have hclog : Nat.clog 2 (b.yes - b.next) ≤ i := by
        refine (Nat.clog_le_iff_le_pow (by omega)).mpr ?_
        unfold Back.next
        omega
      obtain ⟨-, -, hfound, hfew⟩ := @bisect_spec E probe _ _ hlt
      cases hb : (bisect probe b.next b.yes).result with
      | error e =>
        rw [hb] at h
        exact nomatch h
      | ok m =>
        rw [hb] at h
        obtain ⟨rfl, -⟩ := Prod.mk.inj (Except.ok.inj h)
        have hm := (hfound m hb).le
        have hlog : i ≤ Nat.log 2 (block - m + 1) := Nat.le_log_of_pow_le (by omega) (by omega)
        simp only [List.length_cons]
        omega
  termination_by b.yes
  decreasing_by exact b.next_lt hle

/-! ### The search -/

/-- Once liquidatable, liquidatable up to the block. -/
def StaysYes (probe : ℕ → Except E Bool) (floor block : ℕ) : Prop :=
  ∀ n m, floor ≤ n → n ≤ m → m < block → probe n = .ok true → probe m = .ok true

/-- The first block from `floor` on answered yes, or `block` if none is. -/
structure FirstYes (probe : ℕ → Except E Bool) (floor block b : ℕ) : Prop where
  ge : floor ≤ b
  le : b ≤ block
  yes : b < block → probe b = .ok true
  first : ∀ n, floor ≤ n → n < b → probe n ≠ .ok true

/-- What is known of a search's result. -/
def Right (probe : ℕ → Except E Bool) (floor block : ℕ) (asked : List ℕ) : ℕ × Bool → Prop
  | (b, true) => block ≤ floor ∧ b = block ∨ floor < block ∧ b = floor ∧ floor ∈ asked ∧ ∀ n ∈ asked, probe n = .ok true
  | (b, false) => floor < block ∧ b - 1 ∈ asked ∧ probe (b - 1) = .ok false ∧ floor < b ∧
      (b = block ∨ b < block ∧ b ∈ asked ∧ probe b = .ok true)

theorem search_spec (block floor : UInt64) :
    (search probe block floor).Passes probe ∧
      (∀ n ∈ (search probe block floor).asked, floor.toNat ≤ n ∧ n < block.toNat) ∧
      ∀ b stopped, (search probe block floor).result = .ok (b, stopped) →
        Right probe floor.toNat block.toNat (search probe block floor).asked (b, stopped) ∧
          (search probe block floor).asked.length ≤ 2 * (Nat.log 2 (block.toNat - b + 1) + 2) := by
  unfold search
  by_cases h : block.toNat = 0 ∨ floor.toNat ≥ block.toNat
  · rw [if_pos h]
    refine ⟨List.forall_mem_nil _, List.forall_mem_nil _, fun b stopped hr => ?_⟩
    obtain ⟨rfl, rfl⟩ := Prod.mk.inj (Except.ok.inj hr)
    have hle : block.toNat ≤ floor.toNat := by omega
    rw [decide_eq_true hle]
    exact ⟨Or.inl ⟨hle, rfl⟩, Nat.zero_le _⟩
  rw [if_neg h]
  rw [not_or, not_le] at h
  have hlast : floor.toNat ≤ block.toNat - 1 ∧ block.toNat - 1 < block.toNat := by omega
  cases hp : probe (block.toNat - 1) with
  | error e =>
    rw [ask_bind_error hp]
    exact ⟨Asking.passes_error hp, by simpa using hlast, nofun⟩
  | ok answer =>
    rw [ask_bind_ok hp]
    cases answer with
    | false =>
      refine ⟨Asking.Passes.cons (List.forall_mem_nil _) hp, by simpa [pure] using hlast, fun b stopped hr => ?_⟩
      obtain ⟨rfl, rfl⟩ := Prod.mk.inj (Except.ok.inj hr)
      rw [decide_eq_false (not_le.mpr h.2)]
      exact ⟨⟨h.2, List.mem_cons_self, hp, h.2, Or.inl rfl⟩, by simp [pure]⟩
    | true =>
      simp only [if_true]
      obtain ⟨hpass, hwithin, hfound⟩ := @back_spec E probe _ (.start block floor)
      refine ⟨hpass.cons hp, List.forall_mem_cons.mpr ⟨hlast, fun n hn => ?_⟩, fun b stopped hr => ⟨?_, ?_⟩⟩
      · have := hwithin n hn
        exact ⟨this.1, this.2.trans hlast.2⟩
      · have hn := hfound _ hr
        change Stepped probe _ (block.toNat - 1) _ _ at hn
        cases stopped with
        | true =>
          obtain ⟨hle, hmem, hall⟩ := hn
          obtain rfl : b = floor.toNat := by
            refine le_antisymm hle ?_
            rcases hmem with he | hmem
            · exact he ▸ hlast.1
            · exact (hwithin b hmem).1
          refine Or.inr ⟨h.2, rfl, List.mem_cons.mpr hmem, List.forall_mem_cons.mpr ⟨hp, hall⟩⟩
        | false =>
          obtain ⟨hgt, hle, hyes, hmem, hno⟩ := hn
          refine ⟨h.2, List.mem_cons_of_mem _ hmem, hno, hgt, Or.inr ⟨by omega, ?_⟩⟩
          rcases hyes with rfl | ⟨hmem, hyes⟩
          · exact ⟨List.mem_cons_self, hp⟩
          · exact ⟨List.mem_cons_of_mem _ hmem, hyes⟩
      · have hfew := back_few block.toNat 0 (.start block floor) hlast.2
          (fun _ => ⟨rfl, Nat.sub_add_cancel (by omega)⟩) (fun _ => by omega) hr
        simp only [List.length_cons]
        omega

/-- With answers that stay yes, the block found is the first answered yes. -/
theorem Right.firstYes {floor block b : ℕ} {asked : List ℕ} {stopped : Bool}
    (h : Right probe floor block asked (b, stopped)) (hlt : floor < block) (hstays : StaysYes probe floor block)
    (hwithin : ∀ n ∈ asked, floor ≤ n ∧ n < block) : FirstYes probe floor block b := by
  cases stopped with
  | true =>
    rcases h with ⟨hle, -⟩ | ⟨-, rfl, hmem, hall⟩
    · exact absurd hlt (not_lt.mpr hle)
    · exact ⟨le_rfl, hlt.le, fun _ => hall b hmem, fun n hn hlt => absurd hlt (not_lt.mpr hn)⟩
  | false =>
    obtain ⟨-, hmem, hno, hgt, hyes⟩ := h
    have hlast := (hwithin _ hmem).2
    refine ⟨hgt.le, by omega, fun hb => ?_, fun n hn hnb hp => ?_⟩
    · rcases hyes with he | ⟨-, -, hyes⟩
      · omega
      · exact hyes
    · rw [hstays n (b - 1) hn (by omega) hlast hp] at hno
      exact nomatch hno

/-- **The search is right whatever the answers.** It asks only about blocks from `floor` up to the one before
`block`, and its first error is its result. A block it finds is `block` itself, the one before answered no, or one
answered yes after one answered no; it stops at the floor only if that was answered yes as was all it asked, or was
not below `block`. With answers that stay yes, it finds the first. The questions are about twice as many as the
logarithm of how far back the found block lies. -/
theorem since_is_right (probe : ℕ → Except E Bool) (block floor : UInt64) :
    let x := since probe block floor
    (∀ n ∈ x.asked, floor.toNat ≤ n ∧ n < block.toNat) ∧ x.Passes probe ∧
      ∀ b stopped n, x.result = .ok (b, stopped, n) →
        n = x.asked.length ∧ Right probe floor.toNat block.toNat x.asked (b, stopped) ∧
        (floor < block → StaysYes probe floor.toNat block.toNat → FirstYes probe floor.toNat block.toNat b) ∧
        n ≤ 2 * (Nat.log 2 (block.toNat - b + 1) + 2) := by
  intro x
  obtain ⟨hpass, hwithin, hfound⟩ := @search_spec E probe block floor
  refine ⟨hwithin, hpass.map _, fun b stopped n hr => ?_⟩
  change (search probe block floor).result.map _ = _ at hr
  cases hs : (search probe block floor).result with
  | error e =>
    rw [hs] at hr
    exact nomatch hr
  | ok r =>
    rw [hs] at hr
    obtain ⟨b', stopped'⟩ := r
    have he := Except.ok.inj hr
    simp only [Prod.mk.injEq] at he
    obtain ⟨rfl, rfl, rfl⟩ := he
    obtain ⟨hright, hfew⟩ := hfound b' stopped' hs
    exact ⟨rfl, hright, fun hlt hstays => hright.firstYes (UInt64.lt_iff_toNat_lt.mp hlt) hstays hwithin, hfew⟩

end Research
end MobiusSearcher
