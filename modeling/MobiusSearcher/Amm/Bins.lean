/-
# What bins give

Over a whole swap through bins: what goes in, fees included, is the amount;
no bin gives more than it holds, and none is met twice, so that what comes out
is at most what all of them hold (`Dlmm.Recorded`). And more input never gets
less: two swaps empty the same bins until the smaller one runs out, and in its
last bin the larger one gets at least as much (`Dlmm.Paired.turn`), whatever
the fee has grown to there.

Key definitions: `Dlmm.Recorded`, `Dlmm.Paired`.
Key theorems: `Dlmm.Recorded.turn`, `Dlmm.Recorded.out_le`, `Dlmm.Paired.turn`, `Dlmm.swap_mono`.
-/
import MobiusSearcher.Amm.Dlmm

namespace MobiusSearcher
namespace Amm
namespace Dlmm

variable {p : Dlmm} {xToY : Bool} {refs : ℤ × ℕ} {w w' : Walk}

/-! ### What was taken -/

/-- What all the bins hold of the token that is bought. -/
def held (p : Dlmm) (xToY : Bool) : ℕ := (p.bins.entries.map fun e => available xToY e.2).sum

/-- The bin `id` is behind the place `here`. -/
def Behind (xToY : Bool) (here id : ℤ) : Prop := if xToY then here < id else id < here

/-- What was taken so far is all that went in and came out, bin by bin. -/
structure Recorded (p : Dlmm) (xToY : Bool) (x : ℕ) (w : Walk) : Prop where
  left_lt : w.left < 2 ^ 64
  input : (w.visits.map fun v => v.input + v.fee).sum + w.left = x
  out : (w.visits.map Visit.got).sum = w.out
  fees : (w.visits.map Visit.fee).sum = w.fees
  held : ∀ v ∈ w.visits, p.bins.lookup v.id = some v.bin ∧ v.got ≤ available xToY v.bin
  distinct : (w.visits.map Visit.id).Nodup
  behind : w.left ≠ 0 → ∀ v ∈ w.visits, Behind xToY w.id v.id

theorem recorded_start (p : Dlmm) (xToY : Bool) {x : ℕ} (hx : x < 2 ^ 64) : Recorded p xToY x (p.start x) where
  left_lt := hx
  input := Nat.zero_add x
  out := rfl
  fees := rfl
  held _ hv := absurd hv List.not_mem_nil
  distinct := List.nodup_nil
  behind _ _ hv := absurd hv List.not_mem_nil

theorem Recorded.turn {broke : Bool} {x : ℕ} (h : Recorded p xToY x w) (hleft : w.left ≠ 0)
    (hturn : p.turn xToY refs w = .ok (w', broke)) : Recorded p xToY x w' := by
  obtain ⟨-, b, rate, u, hb, -, hu, rfl⟩ := turn_eq_ok hturn
  have hbehind := h.behind hleft
  -- the bin just met is behind once the swap moves on
  have hnext : ∀ k : ℤ, k = w.id ∨ Behind xToY w.id k →
      Behind xToY (if xToY then w.id - 1 else w.id + 1) k := by
    intro k hk
    unfold Behind at hk ⊢
    cases xToY
    · simp only [Bool.false_eq_true, if_false] at hk ⊢
      omega
    · simp only [if_true] at hk ⊢
      omega
  by_cases hpos : 0 < available xToY b
  · rw [if_pos hpos] at hu
    obtain ⟨v, hvid, hvb, hid, hin, hout, hfees, hvisits, onTop, -, htakes⟩ := take_eq_ok h.left_lt hu
    have hinput := h.input
    have hlt := h.left_lt
    refine ⟨?_, ?_, ?_, ?_, ?_, ?_, ?_⟩
    · show u.left < 2 ^ 64
      omega
    · show (u.visits.map fun v => v.input + v.fee).sum + u.left = x
      rw [hvisits, List.map_cons, List.sum_cons]
      omega
    · show (u.visits.map Visit.got).sum = u.out
      rw [hvisits, List.map_cons, List.sum_cons, h.out, hout]
      exact Nat.add_comm ..
    · show (u.visits.map Visit.fee).sum = u.fees
      rw [hvisits, List.map_cons, List.sum_cons, h.fees, hfees]
      exact Nat.add_comm ..
    · show ∀ v ∈ u.visits, _
      rw [hvisits]
      intro v' hv'
      rcases List.mem_cons.mp hv' with rfl | hv'
      · rw [hvid, hvb]
        exact ⟨hb, htakes.got_le⟩
      · exact h.held v' hv'
    · show (u.visits.map Visit.id).Nodup
      rw [hvisits, List.map_cons, List.nodup_cons]
      refine ⟨fun hmem => ?_, h.distinct⟩
      obtain ⟨v', hv', hsame⟩ := List.mem_map.mp hmem
      have hb' := hbehind v' hv'
      rw [hsame, hvid] at hb'
      unfold Behind at hb'
      cases xToY
      · exact lt_irrefl _ hb'
      · exact lt_irrefl _ hb'
    · show u.left ≠ 0 → ∀ v ∈ u.visits, _
      intro hu0
      rw [hvisits]
      intro v' hv'
      simp only
      rw [if_pos (Nat.pos_of_ne_zero hu0), hid]
      apply hnext
      rcases List.mem_cons.mp hv' with rfl | hv'
      · exact .inl hvid
      · exact .inr (hbehind v' hv')
  · rw [if_neg hpos] at hu
    obtain rfl := Except.ok.inj hu
    refine ⟨h.left_lt, h.input, h.out, h.fees, h.held, h.distinct, ?_⟩
    show w.left ≠ 0 → ∀ v ∈ w.visits, _
    intro _ v hv
    simp only
    rw [if_pos (Nat.pos_of_ne_zero hleft)]
    exact hnext _ (.inr (hbehind v hv))

/-- **What comes out is at most what the bins hold.** -/
theorem Recorded.out_le {x : ℕ} (h : Recorded p xToY x w) : w.out ≤ p.held xToY := by
  have hgot : (w.visits.map Visit.got).sum ≤ (w.visits.map fun v => available xToY v.bin).sum :=
    List.sum_le_sum fun v hv => (h.held v hv).2
  have hsub : (w.visits.map fun v => (⟨v.id, v.bin⟩ : Sigma fun _ : ℤ => Bin)) ⊆ p.bins.entries := by
    intro e he
    obtain ⟨v, hv, rfl⟩ := List.mem_map.mp he
    exact AList.mem_lookup_iff.mp (h.held v hv).1
  have hnodup : (w.visits.map fun v => (⟨v.id, v.bin⟩ : Sigma fun _ : ℤ => Bin)).Nodup := by
    apply List.Nodup.of_map Sigma.fst
    rw [List.map_map]
    exact h.distinct
  obtain ⟨l, hperm, hsublist⟩ := List.subperm_of_subset hnodup hsub
  have hle : (l.map fun e => available xToY e.2).sum ≤ p.held xToY :=
    (hsublist.map _).sum_le_sum fun _ _ => Nat.zero_le _
  have hsum : (l.map fun e => available xToY e.2).sum = (w.visits.map fun v => available xToY v.bin).sum := by
    rw [(hperm.map _).sum_eq, List.map_map]
    rfl
  rw [← h.out]
  omega

/-! ### More input -/

/-- Two swaps at the same bin, the second with at least as much left. -/
structure Paired (v w : Walk) : Prop where
  left_lt : w.left < 2 ^ 64
  left : v.left ≤ w.left
  out : v.out ≤ w.out
  id : v.left ≠ 0 → v.id = w.id

/-- What is left of an input after the fee grows with it. -/
theorem kept_mono {r a b : ℕ} (hr : r ≤ feePrecision) (h : a ≤ b) :
    a - a * r ⌈/⌉ feePrecision ≤ b - b * r ⌈/⌉ feePrecision := by
  have hpos : 0 < feePrecision := by norm_num [feePrecision]
  obtain ⟨k, rfl⟩ := Nat.exists_eq_add_of_le h
  obtain ⟨s, hs⟩ := Nat.exists_eq_add_of_le hr
  have hfee : (a + k) * r ⌈/⌉ feePrecision ≤ a * r ⌈/⌉ feePrecision + k := by
    rw [ceilDiv_le_iff_le_mul hpos]
    have hup : a * r ≤ feePrecision * (a * r ⌈/⌉ feePrecision) := (ceilDiv_le_iff_le_mul hpos).mp (le_refl _)
    calc (a + k) * r = a * r + k * r := Nat.add_mul ..
      _ ≤ feePrecision * (a * r ⌈/⌉ feePrecision) + k * feePrecision := Nat.add_le_add hup (Nat.mul_le_mul_left k hr)
      _ = feePrecision * (a * r ⌈/⌉ feePrecision + k) := by ring
  generalize (a + k) * r ⌈/⌉ feePrecision = f at hfee ⊢
  generalize a * r ⌈/⌉ feePrecision = g at hfee ⊢
  omega

/-- In one bin, at one rate, more input gets at least as much. -/
theorem Takes.mono {b : Bin} {rate left left' onTop rest rest' : ℕ} {v v' : Visit} (hr : rate ≤ feePrecision)
    (hle : left ≤ left') (h : Takes xToY b rate left onTop v rest) (h' : Takes xToY b rate left' onTop v' rest') :
    v.got ≤ v'.got ∧ (rest ≠ 0 → v'.input + v'.fee = v.input + v.fee ∧ v'.got = v.got) := by
  cases h' with
  | whole _ input' fee' got' =>
    refine ⟨?_, ?_⟩
    · rw [got']
      exact h.got_le
    · intro hrest
      cases h with
      | whole _ input fee got => rw [input, input', fee, fee', got, got']; exact ⟨rfl, rfl⟩
      | part _ rest => exact absurd rest hrest
  | part lacks' _ fee' got' =>
    cases h with
    | whole covers => omega
    | part _ rest fee got =>
      refine ⟨?_, fun hrest => absurd rest hrest⟩
      rw [got, got', fee, fee']
      exact min_le_min_right _ (worth_mono xToY b (kept_mono hr hle))

theorem feeRate_le {id index : ℤ} {volatility rate : ℕ} (h : p.feeRate id index volatility = .ok rate) :
    rate ≤ feePrecision := by
  unfold feeRate at h
  obtain ⟨_, _, h⟩ := Checked.bind_eq_ok.mp h
  obtain ⟨_, _, h⟩ := Checked.bind_eq_ok.mp h
  obtain ⟨_, _, h⟩ := Checked.bind_eq_ok.mp h
  obtain ⟨_, _, h⟩ := Checked.bind_eq_ok.mp h
  obtain ⟨_, _, h⟩ := Checked.bind_eq_ok.mp h
  obtain ⟨_, _, h⟩ := Checked.bind_eq_ok.mp h
  obtain ⟨_, _, h⟩ := Checked.bind_eq_ok.mp h
  obtain ⟨total, _, h⟩ := Checked.bind_eq_ok.mp h
  obtain rfl := Except.ok.inj h
  exact (min_le_right ..).trans (by norm_num [maxFeeRate, feePrecision])

theorem Paired.turn {v v' : Walk} {broke broke' : Bool} (h : Paired v w) (hleft : v.left ≠ 0)
    (hv : p.turn xToY refs v = .ok (v', broke)) (hw : p.turn xToY refs w = .ok (w', broke')) : Paired v' w' := by
  obtain ⟨-, b, rate, u, hb, hrate, hu, rfl⟩ := turn_eq_ok hv
  obtain ⟨-, b', rate', u', hb', hrate', hu', rfl⟩ := turn_eq_ok hw
  have hsame := h.id hleft
  have hle := h.left
  have hlt := h.left_lt
  have hout := h.out
  have hid := taken_id hu
  have hid' := taken_id hu'
  rw [← hsame] at hb' hrate' hid'
  obtain rfl := Option.some.inj (hb.symm.trans hb')
  obtain rfl := Except.ok.inj (hrate.symm.trans hrate')
  have hrest : u.left ≤ u'.left ∧ u.out ≤ u'.out ∧ u'.left < 2 ^ 64 := by
    by_cases hpos : 0 < available xToY b
    · rw [if_pos hpos] at hu hu'
      obtain ⟨t, -, -, -, hin, ho, -, -, onTop, honTop, htakes⟩ := take_eq_ok (by omega) hu
      obtain ⟨t', -, -, -, hin', ho', -, -, onTop', honTop', htakes'⟩ := take_eq_ok hlt hu'
      obtain rfl := Except.ok.inj (honTop.symm.trans honTop')
      obtain ⟨hgot, hmore⟩ := htakes.mono (feeRate_le hrate) hle htakes'
      refine ⟨?_, by omega, by omega⟩
      by_cases hzero : u.left = 0
      · omega
      · have hspent := (hmore hzero).1
        omega
    · rw [if_neg hpos] at hu hu'
      obtain rfl := Except.ok.inj hu
      obtain rfl := Except.ok.inj hu'
      exact ⟨hle, hout, hlt⟩
  refine ⟨hrest.2.2, hrest.1, hrest.2.1, fun hne => ?_⟩
  show (if 0 < u.left then _ else _) = if 0 < u'.left then _ else _
  have hne' : 0 < u.left := Nat.pos_of_ne_zero hne
  rw [if_pos hne', if_pos (hne'.trans_le hrest.1), hid, hid']

/-- What is paid out only grows. -/
theorem turn_out_le {broke : Bool} (hlt : w.left < 2 ^ 64) (h : p.turn xToY refs w = .ok (w', broke)) :
    w.out ≤ w'.out ∧ w'.left < 2 ^ 64 := by
  obtain ⟨-, b, rate, u, -, -, hu, rfl⟩ := turn_eq_ok h
  by_cases hpos : 0 < available xToY b
  · rw [if_pos hpos] at hu
    obtain ⟨t, -, -, -, hin, ho, -⟩ := take_eq_ok hlt hu
    show w.out ≤ u.out ∧ u.left < 2 ^ 64
    omega
  · rw [if_neg hpos] at hu
    obtain rfl := Except.ok.inj hu
    exact ⟨le_refl _, hlt⟩

theorem run_out_le (hlt : w.left < 2 ^ 64) (h : (p.loop xToY refs).run w = .ok w') : w.out ≤ w'.out := by
  have hboth : w.out ≤ w'.out ∧ w'.left < 2 ^ 64 := by
    refine Loop.run_inv (I := fun v => w.out ≤ v.out ∧ v.left < 2 ^ 64) (fun {v v' broke} hv _ hturn => ?_)
      ⟨le_refl _, hlt⟩ h
    have hstep := turn_out_le hv.2 hturn
    exact ⟨hv.1.trans hstep.1, hstep.2⟩
  exact hboth.1

theorem run_mono {v v' : Walk} (h : Paired v w) (hv : (p.loop xToY refs).run v = .ok v')
    (hw : (p.loop xToY refs).run w = .ok w') : v'.out ≤ w'.out := by
  -- a turn of the smaller swap, beside the larger one's
  have hagain : ∀ {v v' w w' : Walk} {broke : Bool}, Paired v w → v.left ≠ 0 → p.turn xToY refs v = .ok (v', broke) →
      (p.loop xToY refs).run w = .ok w' → ∃ u, (p.loop xToY refs).run u = .ok w' ∧ Paired v' u := by
    intro v v' w w' broke h hleft hturn hrun
    have hle := h.left
    rcases Loop.run_eq_ok.mp hrun with ⟨hspent, -⟩ | ⟨-, hbroke | ⟨u, hu, hrest⟩⟩
    · have hzero : w.left = 0 := of_decide_eq_true hspent
      omega
    · exact absurd (turn_eq_ok hbroke).1 (by decide)
    · exact ⟨u, hrest, h.turn hleft hturn hu⟩
  refine Loop.run_pair (R := Paired) (Q := fun v w => v.out ≤ w.out) ?_ ?_ ?_ h hv hw
  · intro v w w' h _ hrun
    exact h.out.trans (run_out_le h.left_lt hrun)
  · intro v v' w w' h hdone hturn hrun
    obtain ⟨u, hrest, hpair⟩ := hagain h (of_decide_eq_false hdone) hturn hrun
    exact hpair.out.trans (run_out_le hpair.left_lt hrest)
  · intro v v' w w' h hdone hturn hrun
    exact hagain h (of_decide_eq_false hdone) hturn hrun

/-! ### The swap -/

theorem swap_eq_ok {x : ℕ} {now : ℤ} {s : Swap} (h : p.swap xToY x now = .ok s) :
    ∃ refs w, p.references now = .ok refs ∧ (p.loop xToY refs).run (p.start x) = .ok w ∧
      s.amountOut = w.out ∧ s.fee = w.fees ∧ s.activeId = w.id := by
  unfold swap at h
  obtain ⟨refs, hrefs, h⟩ := Checked.bind_eq_ok.mp h
  obtain ⟨w, hw, h⟩ := Checked.bind_eq_ok.mp h
  obtain ⟨out, hout, h⟩ := Checked.bind_eq_ok.mp h
  obtain ⟨fee, hfee, h⟩ := Checked.bind_eq_ok.mp h
  obtain rfl := Except.ok.inj h
  exact ⟨refs, w, hrefs, hw, (Checked.fit_eq_ok.mp hout).2, (Checked.fit_eq_ok.mp hfee).2, rfl⟩

/-- More of a token in never gives less of the other. -/
theorem swap_mono {x y : ℕ} {now : ℤ} {s s' : Swap} (hxy : x ≤ y) (hy : y < 2 ^ 64) (hs : p.swap xToY x now = .ok s)
    (hs' : p.swap xToY y now = .ok s') : s.amountOut ≤ s'.amountOut := by
  obtain ⟨refs, v, hrefs, hv, hout, -⟩ := swap_eq_ok hs
  obtain ⟨refs', w, hrefs', hw, hout', -⟩ := swap_eq_ok hs'
  obtain rfl := Except.ok.inj (hrefs.symm.trans hrefs')
  have hpair : Paired (p.start x) (p.start y) := ⟨hy, hxy, le_refl _, fun _ => rfl⟩
  rw [hout, hout']
  exact run_mono hpair hv hw

/-- The loop ends with nothing left. -/
theorem run_spent (h : (p.loop xToY refs).run w = .ok w') : w'.left = 0 := by
  refine Loop.run_induct (P := fun _ w' => w'.left = 0) ?_ ?_ ?_ h
  · exact fun w hdone => of_decide_eq_true hdone
  · exact fun w w' _ hturn => absurd (turn_eq_ok hturn).1 (by decide)
  · exact fun w v w' _ _ _ ih => ih

end Dlmm
end Amm
end MobiusSearcher
