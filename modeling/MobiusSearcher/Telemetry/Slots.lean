/-
# When the next slots are free

`next_slot_n` against `available` at later times, the limiter left as it is. Its
log is in order of time (`grants_sorted`), so that at any time as many sends
have aged out as the one at the right place has (`length_dropWhile_le`). When
only the window binds, slots are free from the time that place's send ages out
(`available_iff`); the code waits for another one when its log holds more sends
than the limit (`next_slot_iff`).

Key definitions: `Unbound`, `NamesSlot`, `WaitsRight`.
Key theorems: `grants_sorted`, `length_dropWhile_le`, `available_iff`,
`nextSlotN_eq`, `next_slot_iff`.
-/
import MobiusSearcher.Telemetry.Limits
import Mathlib.Data.List.GetD
import Mathlib.Order.Bounds.Basic

namespace MobiusSearcher

open Machine

namespace WindowLimiter

/-! ### A log in order of time -/

section Lists

variable {p q : ℕ → Bool}

/-- What passes the weaker test is dropped by it alone. -/
theorem dropWhile_dropWhile (hpq : ∀ a, p a = true → q a = true) : ∀ xs : List ℕ,
    (xs.dropWhile p).dropWhile q = xs.dropWhile q
  | [] => rfl
  | x :: xs => by
    by_cases hp : p x = true
    · rw [List.dropWhile_cons_of_pos hp, List.dropWhile_cons_of_pos (hpq x hp), dropWhile_dropWhile hpq xs]
    · rw [List.dropWhile_cons_of_neg hp]

/-- In order, at most `k` are left exactly when the one `k` from the end is dropped. -/
theorem length_dropWhile_le (hp : ∀ a b, a ≤ b → p b = true → p a = true) {k : ℕ} : ∀ {xs : List ℕ},
    xs.Pairwise (· ≤ ·) → ((xs.dropWhile p).length ≤ k ↔ xs.length ≤ k ∨ p (xs.getD (xs.length - k - 1) 0) = true)
  | [], _ => by simp
  | x :: xs, hs => by
    obtain ⟨hx, hs⟩ := List.pairwise_cons.mp hs
    have ih := length_dropWhile_le hp (k := k) hs
    rw [List.length_cons]
    by_cases hpx : p x = true
    · rw [List.dropWhile_cons_of_pos hpx, ih]
      rcases Nat.lt_trichotomy k xs.length with hlt | heq | hgt
      · have hidx : xs.length + 1 - k - 1 = (xs.length - k - 1) + 1 := by omega
        rw [hidx, List.getD_cons_succ]
        exact or_congr (by omega) Iff.rfl
      · have hidx : xs.length + 1 - k - 1 = 0 := by omega
        rw [hidx, List.getD_cons_zero]
        exact ⟨fun _ => .inr hpx, fun _ => .inl heq.ge⟩
      · exact ⟨fun _ => .inl hgt, fun _ => .inl hgt.le⟩
    · rw [List.dropWhile_cons_of_neg hpx, List.length_cons]
      refine ⟨.inl, ?_⟩
      rintro (hle | hlast)
      · exact hle
      · by_contra hlt
        refine hpx (hp x _ ?_ hlast)
        have hmem : (x :: xs).getD (xs.length + 1 - k - 1) 0 ∈ x :: xs := by
          have hidx : xs.length + 1 - k - 1 < (x :: xs).length := by
            rw [List.length_cons]
            omega
          rw [List.getD_eq_getElem _ _ hidx]
          exact List.getElem_mem hidx
        rcases List.mem_cons.mp hmem with heq | hm
        · exact heq.ge
        · exact hx _ hm

end Lists

section Sorted

variable {es : List Made} {s : WindowLimiter × Instant} {capacity window safety : ℕ}

/-- Slots are granted in order of time. -/
theorem grants_sorted (hc : capacity < 2 ^ 32) (h : Run Makes (new capacity window safety, 0) es s) :
    (grants es).Pairwise (· ≤ ·) := by
  induction h with
  | nil => exact List.Pairwise.nil
  | @snoc es s t e hr hm ih =>
    rw [grants_snoc]
    by_cases hg : e.granted = true
    · rw [if_pos hg, List.pairwise_append]
      refine ⟨ih, List.pairwise_singleton _ _, ?_⟩
      intro u hu v hv
      rw [List.mem_singleton.mp hv]
      exact ((run_tracks hc hr).past u hu).trans hm.1
    · rw [if_neg hg]
      exact ih

/-- The log is in order, and holds nothing of the future. -/
theorem sent_sorted (hc : capacity < 2 ^ 32) (h : Run Makes (new capacity window safety, 0) es s) :
    s.1.sent.Pairwise (· ≤ ·) := by
  obtain ⟨old, hs, -⟩ := (run_tracks hc h).sent
  have hsorted := grants_sorted hc h
  rw [hs, List.pairwise_append] at hsorted
  exact hsorted.2.1

end Sorted

/-! ### Slots free at a time -/

variable {g : WindowLimiter} {now t reserve need : ℕ}

/-- What may be used with `reserve` kept free. -/
def limit (g : WindowLimiter) (reserve : ℕ) : ℕ := g.capacity - g.headroom reserve

theorem available_eq (hb : g.blocked now = false) : (g.available now reserve).1 = match g.server with
    | some k => if now - k.1 < g.window then
        min ((g.prune now).localFree reserve) ((g.prune now).serverFree now k.1 k.2 reserve)
      else (g.prune now).localFree reserve
    | none => (g.prune now).localFree reserve := by
  unfold available
  rw [if_neg (by rw [hb]; exact Bool.false_ne_true)]
  have hserver : (g.prune now).server = g.server := rfl
  have hwindow : (g.prune now).window = g.window := rfl
  simp only [hserver, hwindow]
  cases g.server with
  | none => rfl
  | some k =>
    simp only
    by_cases hfresh : now - k.1 < g.window
    · rw [if_pos hfresh, if_pos hfresh]
    · rw [if_neg hfresh, if_neg hfresh]

/-- Neither a block nor the gateway's report keeps `need` slots from being free, now or later. -/
structure Unbound (g : WindowLimiter) (now reserve need : ℕ) : Prop where
  block : g.blocked now = false
  report : ∀ t : ℕ, now ≤ t → ∀ k, g.server = some k → t - k.1 < g.window →
    need ≤ (g.prune t).serverFree t k.1 k.2 reserve

theorem blocked_later (hb : g.blocked now = false) (ht : now ≤ t) : g.blocked t = false := by
  unfold blocked at hb ⊢
  cases hu : g.blockedUntil with
  | none => rfl
  | some u =>
    rw [hu] at hb
    have hle : ¬now < u := of_decide_eq_false hb
    exact decide_eq_false fun hlt => hle (lt_of_le_of_lt ht hlt)

/-- Where only the window binds, slots are free when few enough sends are left in it. -/
theorem available_iff_left (hshort : g.sent.length < 2 ^ 32) (hu : Unbound g now reserve need) (hneed : 0 < need)
    (ht : now ≤ t) : need ≤ (g.available t reserve).1 ↔ need + (g.prune t).sent.length ≤ g.limit reserve := by
  have hlen : (g.prune t).sent.length < 2 ^ 32 :=
    lt_of_le_of_lt (List.length_dropWhile_le _ _) hshort
  have hlocal : need ≤ (g.prune t).localFree reserve ↔ need + (g.prune t).sent.length ≤ g.limit reserve := by
    have heq : (g.prune t).localFree reserve = g.limit reserve - (g.prune t).sent.length := by
      unfold localFree
      rw [wrapU32_of_lt hlen]
      rfl
    rw [heq]
    omega
  rw [available_eq (blocked_later hu.block ht), ← hlocal]
  cases hs : g.server with
  | none => exact Iff.rfl
  | some k =>
    show need ≤ (if t - k.1 < g.window then _ else _) ↔ _
    by_cases hfresh : t - k.1 < g.window
    · rw [if_pos hfresh, le_min_iff]
      exact ⟨fun h => h.1, fun h => ⟨h, hu.report t ht k hs hfresh⟩⟩
    · rw [if_neg hfresh]

/-- The send that has to age out for `need` slots to be free. -/
def awaited (g : WindowLimiter) (now reserve need : ℕ) : ℕ :=
  (g.prune now).sent.getD ((g.prune now).sent.length + need - g.limit reserve - 1) 0

/-- The send the code waits for. -/
def waitedFor (g : WindowLimiter) (now reserve need : ℕ) : ℕ :=
  (g.prune now).sent.getD (need - (g.limit reserve - (g.prune now).sent.length) - 1) 0

theorem prune_later (ht : now ≤ t) : ((g.prune now).prune t).sent = (g.prune t).sent := by
  apply dropWhile_dropWhile
  intro a ha
  have hle : g.window ≤ now - a := of_decide_eq_true ha
  have hage : now - a ≤ t - a := Nat.sub_le_sub_right ht a
  exact decide_eq_true (le_trans hle hage)

/-- Slots that are not free now are free once the awaited send has aged out. -/
theorem available_iff (hshort : g.sent.length < 2 ^ 32) (hsorted : g.sent.Pairwise (· ≤ ·))
    (hu : Unbound g now reserve need) (hneed : 0 < need) (hlimit : need ≤ g.limit reserve)
    (hnot : ¬need ≤ (g.available now reserve).1) (ht : now ≤ t) :
    need ≤ (g.available t reserve).1 ↔ g.awaited now reserve need + g.window ≤ t := by
  rw [available_iff_left hshort hu hneed le_rfl] at hnot
  rw [available_iff_left hshort hu hneed ht, ← prune_later ht]
  have hsub : (g.prune now).sent.Pairwise (· ≤ ·) := hsorted.sublist (List.dropWhile_sublist _)
  have hdown : ∀ a b : ℕ, a ≤ b → decide (g.window ≤ t - b) = true → decide (g.window ≤ t - a) = true := by
    intro a b hab hb
    have hle : g.window ≤ t - b := of_decide_eq_true hb
    exact decide_eq_true (by omega)
  have hdrop := length_dropWhile_le hdown (k := g.limit reserve - need) hsub
  have hidx : (g.prune now).sent.length - (g.limit reserve - need) - 1 =
      (g.prune now).sent.length + need - g.limit reserve - 1 := by omega
  rw [hidx] at hdrop
  have hleft : need + (((g.prune now).prune t).sent).length ≤ g.limit reserve ↔
      ((g.prune now).sent.dropWhile fun a => g.window ≤ t - a).length ≤ g.limit reserve - need := by
    show need + ((g.prune now).sent.dropWhile fun a => g.window ≤ t - a).length ≤ g.limit reserve ↔ _
    omega
  rw [hleft, hdrop]
  -- a send still in the window makes the window longer than nothing
  have hwindow : 0 < g.window := by
    by_contra hzero
    have hempty : (g.prune now).sent = [] := by
      apply List.dropWhile_eq_nil_iff.mpr
      intro a _
      exact decide_eq_true (by omega)
    rw [hempty] at hnot
    exact hnot hlimit
  have hlong : ¬(g.prune now).sent.length ≤ g.limit reserve - need := by omega
  have haged : decide (g.window ≤ t - g.awaited now reserve need) = true ↔
      g.awaited now reserve need + g.window ≤ t := by
    rw [decide_eq_true_iff]
    omega
  rw [← haged]
  exact ⟨fun h => h.resolve_left hlong, .inr⟩

/-! ### The instant named -/

/-- The least wait that is asked for, a millisecond. -/
def leastWait : ℕ := 1000000

theorem blocked_iff : g.blocked now = true ↔ ∃ u, g.blockedUntil = some u ∧ now < u := by
  unfold blocked
  cases g.blockedUntil with
  | none => exact ⟨nofun, fun ⟨_, h, _⟩ => nomatch h⟩
  | some u =>
    exact ⟨fun h => ⟨u, rfl, of_decide_eq_true h⟩, fun ⟨v, hv, hlt⟩ => decide_eq_true (Option.some.inj hv ▸ hlt)⟩

theorem nextSlotN_blocked {u : ℕ} (hu : g.blockedUntil = some u) (hlt : now < u) :
    (g.nextSlotN now reserve need).1 = u := by
  unfold nextSlotN
  rw [hu, Option.filter_some, if_pos (decide_eq_true hlt)]

theorem filter_unblocked (hb : g.blocked now = false) : (g.blockedUntil.filter fun u => now < u) = none := by
  unfold blocked at hb
  cases hu : g.blockedUntil with
  | none => rfl
  | some u =>
    rw [hu] at hb
    have hle : ¬decide (now < u) = true := fun h => Bool.false_ne_true (hb.symm.trans h)
    exact if_neg hle

theorem nextSlotN_now (hb : g.blocked now = false) (hfree : max need 1 ≤ (g.available now reserve).1) :
    (g.nextSlotN now reserve need).1 = now := by
  unfold nextSlotN
  rw [filter_unblocked hb]
  simp only [if_pos hfree]

/-- With no block and too few slots free, the wait is a millisecond or more. -/
theorem leastWait_le (hb : g.blocked now = false) (hfree : ¬max need 1 ≤ (g.available now reserve).1) :
    now + leastWait ≤ (g.nextSlotN now reserve need).1 := by
  unfold nextSlotN
  rw [filter_unblocked hb]
  simp only [if_neg hfree]
  exact le_max_right _ _

/-- Where only the window binds, the send waited for has to age out. -/
theorem nextSlotN_eq (hshort : g.sent.length < 2 ^ 32) (hu : Unbound g now reserve need) (hneed : 0 < need)
    (hlimit : need ≤ g.limit reserve) (hnot : ¬need ≤ (g.available now reserve).1) :
    (g.nextSlotN now reserve need).1 = max (g.waitedFor now reserve need + g.window) (now + leastWait) := by
  have hmax : max need 1 = need := max_eq_left hneed
  have hlen : (g.prune now).sent.length < 2 ^ 32 := lt_of_le_of_lt (List.length_dropWhile_le _ _) hshort
  have hleft := hnot
  rw [available_iff_left hshort hu hneed le_rfl] at hleft
  unfold nextSlotN
  rw [filter_unblocked hu.block]
  simp only [hmax, if_neg hnot, available_snd reserve hu.block, wrapU32_of_lt hlen]
  show max ((if g.limit reserve < need then none
    else if need ≤ g.limit reserve - (g.prune now).sent.length then _ else _).getD _) _ = _
  rw [if_neg (Nat.not_lt.mpr hlimit), if_neg (by omega)]
  have hidx : need - (g.limit reserve - (g.prune now).sent.length) - 1 < (g.prune now).sent.length := by omega
  unfold waitedFor
  rw [List.getD_eq_getElem _ _ hidx]
  show max (((g.prune now).sent[need - (g.limit reserve - (g.prune now).sent.length) - 1]?.map
    fun t => t + g.window).getD _) _ = _
  rw [List.getElem?_eq_getElem hidx]
  rfl

/-- What `next_slot_n` is for: now when the slots are free, else a later instant, at least
the least wait later unless a block ends before, and when only the window binds, the
earliest such instant at which they are. -/
structure NamesSlot (g : WindowLimiter) (now reserve need : ℕ) : Prop where
  now_iff : (g.nextSlotN now reserve need).1 = now ↔ need ≤ (g.available now reserve).1
  later : ¬need ≤ (g.available now reserve).1 → now < (g.nextSlotN now reserve need).1 ∧
    (now + leastWait ≤ (g.nextSlotN now reserve need).1 ∨ g.blockedUntil = some (g.nextSlotN now reserve need).1)
  earliest : ¬need ≤ (g.available now reserve).1 → Unbound g now reserve need → need ≤ g.limit reserve →
    IsLeast {t | now + leastWait ≤ t ∧ need ≤ (g.available t reserve).1} (g.nextSlotN now reserve need).1

/-- Some slot is asked for, or one is free; and where only the window binds, the log holds no
more sends than the limit, or what it waits for ages out when the awaited send does, or that
one ages out within the least wait. -/
structure WaitsRight (g : WindowLimiter) (now reserve need : ℕ) : Prop where
  asked : 0 < need ∨ 0 < (g.available now reserve).1
  waits : 0 < need → ¬need ≤ (g.available now reserve).1 → Unbound g now reserve need → need ≤ g.limit reserve →
    (g.prune now).sent.length ≤ g.limit reserve ∨
    g.waitedFor now reserve need = g.awaited now reserve need ∨
    g.awaited now reserve need + g.window ≤ now + leastWait

/-- The instants at which enough slots are free, when they are not now. -/
theorem isLeast_awaited (hshort : g.sent.length < 2 ^ 32) (hsorted : g.sent.Pairwise (· ≤ ·))
    (hu : Unbound g now reserve need) (hneed : 0 < need) (hlimit : need ≤ g.limit reserve)
    (hnot : ¬need ≤ (g.available now reserve).1) :
    IsLeast {t | now + leastWait ≤ t ∧ need ≤ (g.available t reserve).1}
      (max (g.awaited now reserve need + g.window) (now + leastWait)) := by
  have hiff : ∀ t, now + leastWait ≤ t →
      (need ≤ (g.available t reserve).1 ↔ g.awaited now reserve need + g.window ≤ t) :=
    fun t ht => available_iff hshort hsorted hu hneed hlimit hnot (le_trans (Nat.le_add_right _ _) ht)
  constructor
  · refine ⟨le_max_right _ _, ?_⟩
    rw [hiff _ (le_max_right _ _)]
    exact le_max_left _ _
  · rintro t ⟨ht, hfree⟩
    exact max_le ((hiff t ht).mp hfree) ht

/-- With no more sends than the limit, the awaited send is the one waited for. -/
theorem waitedFor_eq (h : (g.prune now).sent.length ≤ g.limit reserve) :
    g.waitedFor now reserve need = g.awaited now reserve need := by
  unfold waitedFor awaited
  congr 1
  omega

/-- The send waited for is no later than the awaited one. -/
theorem waitedFor_le (hsorted : g.sent.Pairwise (· ≤ ·)) (hlimit : need ≤ g.limit reserve)
    (hleft : ¬need + (g.prune now).sent.length ≤ g.limit reserve) :
    g.waitedFor now reserve need ≤ g.awaited now reserve need := by
  have hsub : (g.prune now).sent.Pairwise (· ≤ ·) := hsorted.sublist (List.dropWhile_sublist _)
  have hidx : (g.prune now).sent.length + need - g.limit reserve - 1 < (g.prune now).sent.length := by omega
  have hle : need - (g.limit reserve - (g.prune now).sent.length) - 1 ≤
      (g.prune now).sent.length + need - g.limit reserve - 1 := by omega
  unfold waitedFor awaited
  rw [List.getD_eq_getElem _ _ hidx, List.getD_eq_getElem _ _ (lt_of_le_of_lt hle hidx)]
  rcases Nat.lt_or_eq_of_le hle with hlt | heq
  · exact List.pairwise_iff_getElem.mp hsub _ _ _ _ hlt
  · simp only [heq, le_refl]

/-- **`next_slot_n` names the right instant**, in every state a run reaches, exactly where it
waits for the right send. -/
theorem next_slot_iff {capacity window safety : ℕ} {es : List Made} {clock : ℕ} (hc : capacity < 2 ^ 32)
    (h : Run Makes (new capacity window safety, 0) es (g, clock)) :
    NamesSlot g now reserve need ↔ WaitsRight g now reserve need := by
  have hshort : g.sent.length < 2 ^ 32 := (run_tracks hc h).short
  have hsorted : g.sent.Pairwise (· ≤ ·) := sent_sorted hc h
  constructor
  · intro hn
    refine ⟨?_, ?_⟩
    · by_contra hno
      have hzero : need = 0 := by omega
      have hfree : need ≤ (g.available now reserve).1 := hzero ▸ Nat.zero_le _
      have hnow := hn.now_iff.mpr hfree
      by_cases hb : g.blocked now = true
      · obtain ⟨u, hu, hlt⟩ := blocked_iff.mp hb
        rw [nextSlotN_blocked hu hlt] at hnow
        exact absurd hnow hlt.ne'
      · have hle := @leastWait_le g now reserve need (Bool.not_eq_true _ ▸ hb) (by omega)
        rw [hnow] at hle
        unfold leastWait at hle
        omega
    · intro hneed hnot hu hlimit
      have hleast := (hn.earliest hnot hu hlimit).unique
        (isLeast_awaited hshort hsorted hu hneed hlimit hnot)
      rw [nextSlotN_eq hshort hu hneed hlimit hnot] at hleast
      omega
  · rintro ⟨hasked, hwaits⟩
    refine ⟨?_, ?_, ?_⟩
    · by_cases hb : g.blocked now = true
      · obtain ⟨u, hu, hlt⟩ := blocked_iff.mp hb
        have hzero : (g.available now reserve).1 = 0 := by
          unfold available
          rw [if_pos hb]
        have hneed : ¬need ≤ (g.available now reserve).1 := by omega
        rw [nextSlotN_blocked hu hlt]
        exact ⟨fun heq => absurd heq hlt.ne', fun hle => absurd hle hneed⟩
      · have hb' : g.blocked now = false := Bool.not_eq_true _ ▸ hb
        by_cases hfree : max need 1 ≤ (g.available now reserve).1
        · exact ⟨fun _ => le_trans (le_max_left _ _) hfree, fun _ => nextSlotN_now hb' hfree⟩
        · have hneed : ¬need ≤ (g.available now reserve).1 := by omega
          have hlt : now < (g.nextSlotN now reserve need).1 := by
            refine lt_of_lt_of_le ?_ (leastWait_le hb' hfree)
            exact Nat.lt_add_of_pos_right (by decide)
          exact ⟨fun heq => absurd heq hlt.ne', fun hle => absurd hle hneed⟩
    · intro hnot
      by_cases hb : g.blocked now = true
      · obtain ⟨u, hu, hlt⟩ := blocked_iff.mp hb
        rw [nextSlotN_blocked hu hlt]
        exact ⟨hlt, .inr hu⟩
      · have hle := @leastWait_le g now reserve need (Bool.not_eq_true _ ▸ hb) (by omega)
        refine ⟨lt_of_lt_of_le ?_ hle, .inl hle⟩
        exact Nat.lt_add_of_pos_right (by decide)
    · intro hnot hu hlimit
      have hneed : 0 < need := by omega
      have hleast := isLeast_awaited hshort hsorted hu hneed hlimit hnot
      rw [nextSlotN_eq hshort hu hneed hlimit hnot]
      have hsame : max (g.waitedFor now reserve need + g.window) (now + leastWait) =
          max (g.awaited now reserve need + g.window) (now + leastWait) := by
        have hleft := hnot
        rw [available_iff_left hshort hu hneed le_rfl] at hleft
        have hle := waitedFor_le hsorted hlimit hleft
        rcases hwaits hneed hnot hu hlimit with hlen | heq | hsoon
        · rw [waitedFor_eq hlen]
        · rw [heq]
        · rw [max_eq_right hsoon, max_eq_right (by omega)]
      rw [hsame]
      exact hleast

/-! ### Four sends, a second apart -/

def fourSends : List Made :=
  [⟨0, .tryAcquire 0, 5, true⟩, ⟨1000000000, .tryAcquire 0, 5, true⟩, ⟨2000000000, .tryAcquire 0, 5, true⟩,
   ⟨3000000000, .tryAcquire 0, 5, true⟩]

def afterFour : WindowLimiter :=
  { new 5 10000000000 0 with sent := [0, 1000000000, 2000000000, 3000000000] }

theorem fourSends_run : Run Makes (new 5 10000000000 0, 0) fourSends (afterFour, 3000000000) :=
  run_again (by decide +kernel)

/-- Asked for three slots at once, with nothing kept free. -/
theorem next_slot_iff_four : NamesSlot afterFour 4000000000 0 3 ↔ WaitsRight afterFour 4000000000 0 3 :=
  next_slot_iff (by decide) fourSends_run

/-- With three slots kept free the four sends are over the limit of two: the oldest is
waited for, and when it has aged out no slot is free yet. -/
theorem next_slot_too_early : Run Makes (new 5 10000000000 0, 0) fourSends (afterFour, 3000000000) ∧
    Unbound afterFour 4000000000 3 1 ∧ 1 ≤ afterFour.limit 3 ∧
    ¬NamesSlot afterFour 4000000000 3 1 := by
  have hunbound : Unbound afterFour 4000000000 3 1 := ⟨rfl, fun _ _ k hk => nomatch hk⟩
  have hlimit : 1 ≤ afterFour.limit 3 := by decide
  refine ⟨fourSends_run, hunbound, hlimit, fun hn => ?_⟩
  have hnext : (afterFour.nextSlotN 4000000000 3 1).1 = 10000000000 := by decide +kernel
  have hleast := (hn.earliest (by decide +kernel) hunbound hlimit).1
  rw [hnext] at hleast
  exact absurd hleast.2 (by decide +kernel)

end WindowLimiter

end MobiusSearcher
