/-
# A taken gain is a gain

A lot is sold for a gain where the sale is held to it: the swap must bring
`floorAtoms`, or it does not land. Where a swap that lands brings at least what
it was held to, and one swap is open at a time, the trade that such a sale makes
has the gain, whenever it is accounted for (`gain_taken`); but for the rounding
of the floor and of the trade, which can leave it short of the gain
(`gain_rounded_down`). The floor is never nothing: something was paid for every
lot (`reach_paid`).

Key definitions: `Gain`, `Brings`, `quay`, `Takes`, `Paid`, `GainHeld`, `Made`.
Key theorems: `gain_of_floor`, `keeps_takes`, `reach_paid`, `takeGains_held`, `gain_taken`.
-/
import MobiusSearcher.Lab.Told
import MobiusSearcher.Lab.OneSwap
import MobiusSearcher.Lib.Binary64

namespace MobiusSearcher
namespace Lab

open FloatOps Machine Ledger

/-! ### What a sale held to its floor makes -/

/-- At least this, or infinite. -/
def Reaches (x : Binary64) (q : ℚ) : Prop := x = .inf false ∨ (x.IsFinite ∧ q ≤ x.val)

/-- What was made is the gain on what was paid, but for rounding. -/
structure Gain (t : Binary64) (trade : Trade Binary64) : Prop where
  take : t.IsFinite
  usd : trade.usd.IsFinite
  net : Reaches trade.net (t.val * trade.usd.val -
    (f64.unit * (5 * |trade.usd.val * (1 + t.val)| + |t.val * trade.usd.val|) + 5 * f64.least))

/-- A rounded number is short of its own by a share of it at most. -/
theorem round_short {q : ℚ} (h : 0 ≤ q) : q * (1 - f64.unit) - f64.least ≤ f64.round q := by
  have herr := (abs_le.mp (Format.round_error (f := f64) q)).1
  rw [abs_of_nonneg h] at herr
  linarith

theorem pos_of_round_pos {q : ℚ} (h : 0 < f64.round q) : 0 < q := by
  by_contra hle
  have hneg := Format.round_nonneg (f := f64) (q := -q) (by linarith)
  rw [Format.round_neg] at hneg
  linarith

/-- What the floor of a lot is, in atoms: what was paid with its gain, rounded three times. -/
theorem floor_short {usd take x : ℚ} (ha : f64.OnGrid (1 + take))
    (hx : x = f64.round (f64.round (usd * f64.round (1 + take)) * 10 ^ 6)) (hpos : 0 < x) :
    0 < usd * (1 + take) ∧ usd * (1 + take) * (1 - f64.unit) ^ 3 - 2 * f64.least ≤ x / 10 ^ 6 := by
  have hu : f64.unit < 1 := by
    rw [f64_unit]
    norm_num
  have hu0 := f64.unit_pos
  have hl0 := f64.least_pos
  have hsum := (Format.round_error_grid ha).1
  generalize f64.round (1 + take) = a at hx hsum
  -- every factor is positive, as the result is
  have hb : 0 < f64.round (usd * a) := by
    rw [hx] at hpos
    have h6 := pos_of_round_pos hpos
    linarith
  have hua : 0 < usd * a := pos_of_round_pos hb
  have hdist : |usd * a - usd * (1 + take)| ≤ f64.unit * |usd * (1 + take)| := by
    rw [← mul_sub, abs_mul, abs_mul]
    calc |usd| * |a - (1 + take)| ≤ |usd| * (f64.unit * |1 + take|) := mul_le_mul_of_nonneg_left hsum (abs_nonneg _)
      _ = f64.unit * (|usd| * |1 + take|) := by ring
  have hw : 0 < usd * (1 + take) := by
    by_contra hle
    rw [abs_of_nonpos (not_lt.mp hle)] at hdist
    have h1 := (abs_le.mp hdist).2
    have h2 : usd * (1 + take) * (1 - f64.unit) ≤ 0 := mul_nonpos_of_nonpos_of_nonneg (not_lt.mp hle) (by linarith)
    linarith
  rw [abs_of_pos hw] at hdist
  have h1 : usd * (1 + take) * (1 - f64.unit) ≤ usd * a := by linarith [(abs_le.mp hdist).1]
  have h2 : usd * (1 + take) * (1 - f64.unit) ^ 2 - f64.least ≤ f64.round (usd * a) := by
    have h := mul_le_mul_of_nonneg_right h1 (by linarith : 0 ≤ 1 - f64.unit)
    linarith [round_short hua.le]
  have h3 := round_short (q := f64.round (usd * a) * 10 ^ 6) (by linarith)
  rw [← hx] at h3
  have h4 := mul_le_mul_of_nonneg_right h2 (by linarith : 0 ≤ 1 - f64.unit)
  have h5 : f64.least * (1 - f64.unit) ≤ f64.least := by
    have := mul_pos hl0 hu0
    linarith
  refine ⟨hw, ?_⟩
  rw [le_div_iff₀ (by norm_num)]
  linarith

/-- The floor less what was paid, each rounded. -/
theorem net_short {usd take got x : ℚ} (hw : 0 < usd * (1 + take))
    (hx : usd * (1 + take) * (1 - f64.unit) ^ 3 - 2 * f64.least ≤ x)
    (hgot : x * (1 - f64.unit) - f64.least ≤ got) :
    take * usd - (f64.unit * (5 * |usd * (1 + take)| + |take * usd|) + 5 * f64.least) ≤ f64.round (got - usd) := by
  have hl0 := f64.least_pos
  have hu0 := f64.unit_pos
  have hunit : (1 - 4 * f64.unit) ≤ (1 - f64.unit) ^ 4 ∧ f64.unit * 4 ≤ 1 ∧ f64.unit * 3 ≤ 1 ∧ f64.unit < 1 := by
    rw [f64_unit]
    norm_num
  obtain ⟨hpow, hu4, hu3, hu1⟩ := hunit
  have h1 := mul_le_mul_of_nonneg_right hx (by linarith : 0 ≤ 1 - f64.unit)
  have h2 := mul_le_mul_of_nonneg_left hpow hw.le
  have h3 : 0 ≤ f64.least * f64.unit := (mul_pos hl0 hu0).le
  -- the least it can be before the last rounding
  have hz : take * usd - 4 * f64.unit * (usd * (1 + take)) - 3 * f64.least ≤ got - usd := by linarith
  have hround := Format.round_mono (f := f64) hz
  have herr := (abs_le.mp (Format.round_error (f := f64) (take * usd - 4 * f64.unit * (usd * (1 + take)) - 3 * f64.least))).1
  have habs : |take * usd - 4 * f64.unit * (usd * (1 + take)) - 3 * f64.least| ≤
      |take * usd| + 4 * f64.unit * (usd * (1 + take)) + 3 * f64.least := by
    have hpos : 0 ≤ 4 * f64.unit * (usd * (1 + take)) := by positivity
    rw [abs_le]
    constructor
    · linarith [neg_abs_le (take * usd)]
    · linarith [le_abs_self (take * usd)]
  have hmul := mul_le_mul_of_nonneg_left habs hu0.le
  have h4 : f64.unit * (4 * f64.unit * (usd * (1 + take))) ≤ f64.unit * (usd * (1 + take)) := by
    have := mul_le_mul_of_nonneg_right hu4 (mul_pos hu0 hw).le
    linarith
  have h5 : f64.unit * (3 * f64.least) ≤ f64.least := by
    have := mul_le_mul_of_nonneg_right hu3 hl0.le
    linarith
  rw [abs_of_pos hw]
  linarith

/-- **A sale that brought its floor made its gain**, but for rounding. -/
theorem gain_of_floor {lot : Lot Binary64} {take : Binary64} {atoms : ℤ} {opened closed : ℤ}
    (h0 : floorAtoms lot take ≠ 0) (hle : (floorAtoms lot take : ℤ) ≤ atoms) (hlt : atoms < 2 ^ 64 - 1) :
    Gain take ⟨opened, closed, lot.usd, lit atoms / lit (10 ^ 6) - lot.usd⟩ := by
  have hmillion : (lit (10 ^ 6) : Binary64).value = some (10 ^ 6) := by decide +kernel
  have hone : (lit 1 : Binary64).value = some 1 := by decide +kernel
  obtain ⟨hfin, hpos, hceil⟩ := Binary64.toU64_ceil h0 (by unfold floorAtoms at hle; omega)
  -- the floor is of numbers, each sum and product rounded
  obtain ⟨b, c, hb, hc, hx⟩ := Binary64.value_mul hfin
  obtain ⟨usd, a, husd, ha, rfl⟩ := Binary64.value_mul hb
  obtain ⟨o, t, ho, ht, rfl⟩ := Binary64.value_add ha
  obtain rfl := Option.some.inj (hmillion.symm.trans hc)
  obtain rfl := Option.some.inj (hone.symm.trans ho)
  have hgrid : f64.OnGrid (1 + t) := (Binary64.value_mem hone).onGrid.add (Binary64.value_mem ht).onGrid
  obtain ⟨hw, hfloor⟩ := floor_short hgrid hx hpos
  have hxmem : f64.Mem (lot.usd * (lit 1 + take) * lit (10 ^ 6) : Binary64).val := Binary64.value_mem hfin
  generalize (lot.usd * (lit 1 + take) * lit (10 ^ 6) : Binary64).val = x at hx hpos hceil hfloor hxmem
  -- what it brought is a number no less
  have hatoms : x ≤ (atoms : ℚ) := by
    refine hceil.trans ?_
    exact_mod_cast hle
  have hxround : x ≤ f64.round (atoms : ℚ) := Format.le_round hxmem hatoms
  have hbig : f64.Mem (2 ^ 64 : ℚ) := ⟨1, 64, by norm_num [f64], by norm_num [f64], by norm_num⟩
  have hatoms64 : (atoms : ℚ) ≤ 2 ^ 64 := by
    have : atoms ≤ 2 ^ 64 := by omega
    exact_mod_cast this
  have hround64 : f64.round (atoms : ℚ) ≤ 2 ^ 64 := Format.round_le hbig hatoms64
  have h64 : (2 ^ 64 : ℚ) < limit64 := pow_lt_pow_right₀ (by norm_num) (by norm_num)
  have hlit : (lit (atoms : ℚ) : Binary64).value = some (f64.round atoms) := by
    show (Binary64.ofRat _ (atoms : ℚ)).value = _
    rw [Binary64.value_ofRat, if_pos]
    rw [abs_of_pos (by linarith)]
    linarith
  obtain ⟨s, hdiv⟩ := Binary64.div_eq hlit hmillion (by norm_num)
  have hquot : f64.round (atoms : ℚ) / 10 ^ 6 ≤ 2 ^ 64 := by
    rw [div_le_iff₀ (by norm_num)]
    linarith
  have hgotle : f64.round (f64.round (atoms : ℚ) / 10 ^ 6) ≤ 2 ^ 64 := Format.round_le hbig hquot
  have hgotge : f64.round (x / 10 ^ 6) ≤ f64.round (f64.round (atoms : ℚ) / 10 ^ 6) :=
    Format.round_mono (div_le_div_of_nonneg_right hxround (by norm_num))
  have hshort := round_short (q := x / 10 ^ 6) (by positivity)
  have hgot0 : 0 ≤ f64.round (f64.round (atoms : ℚ) / 10 ^ 6) :=
    Format.round_nonneg (div_nonneg (by linarith) (by norm_num))
  have hgot : (lit (atoms : ℚ) / lit (10 ^ 6) : Binary64).value = some (f64.round (f64.round atoms / 10 ^ 6)) := by
    rw [hdiv, Binary64.value_ofRat, if_pos]
    rw [abs_of_nonneg hgot0]
    linarith
  generalize f64.round (f64.round (atoms : ℚ) / 10 ^ 6) = got at hgotle hgotge hgot0 hgot
  -- less what was paid
  have hleast := net_short hw hfloor (hshort.trans hgotge)
  obtain ⟨s', hsub⟩ := Binary64.sub_eq hgot husd
  refine ⟨Binary64.isFinite_of ht, Binary64.isFinite_of husd, ?_⟩
  rw [Binary64.val_eq ht, Binary64.val_eq husd]
  by_cases hbound : |f64.round (got - usd)| < limit64
  · have hnet : (lit (atoms : ℚ) / lit (10 ^ 6) - lot.usd : Binary64).value = some (f64.round (got - usd)) := by
      rw [hsub, Binary64.value_ofRat, if_pos hbound]
    refine .inr ⟨Binary64.isFinite_of hnet, ?_⟩
    rw [Binary64.val_eq hnet]
    exact hleast
  · left
    show (lit (atoms : ℚ) / lit (10 ^ 6) - lot.usd : Binary64) = .inf false
    have hinf : Binary64.ofRat s' (got - usd) = .inf (decide (got - usd < 0)) := dif_neg hbound
    rw [hsub, hinf]
    rcases Binary64.overflow_sign hbound with ⟨-, hr⟩ | ⟨h, -⟩
    · -- it is no less than what was paid, which is a number
      have hmin : -usd ≤ f64.round (got - usd) := Format.le_round (Binary64.value_mem husd).neg (by linarith)
      have hlimit := (abs_lt.mp (Binary64.value_lt husd)).2
      linarith
    · rw [decide_eq_false (not_lt.mpr h)]

/-! ### What was paid, and its floor, are not nothing -/

section Reaches

variable {x y : Binary64} {b q r : ℚ} {sign : Bool}

theorem reaches_ofRat (hq : f64.Mem q) (h0 : 0 ≤ q) (h : q ≤ r) : Reaches (Binary64.ofRat sign r) q := by
  by_cases hbound : |f64.round r| < limit64
  · have hvalue : (Binary64.ofRat sign r).value = some (f64.round r) := by rw [Binary64.value_ofRat, if_pos hbound]
    refine .inr ⟨Binary64.isFinite_of hvalue, ?_⟩
    rw [Binary64.val_eq hvalue]
    exact Format.le_round hq h
  · left
    have hinf : Binary64.ofRat sign r = .inf (decide (r < 0)) := dif_neg hbound
    rw [hinf, decide_eq_false (by linarith)]

/-- A product is no less than its first factor, if the other is no less than one. -/
theorem Reaches.mul (hx : Reaches x b) (hb : 0 < b) (hy : Reaches y 1) : Reaches (x * y) b := by
  have hinf : ∀ {z : Finite64}, 0 < z.val → (if z.val = 0 then Binary64.nan else .inf (false ^^ z.neg)) = .inf false := by
    intro z hz
    rw [if_neg hz.ne', z.sign hz.ne', decide_eq_false (not_lt.mpr hz.le)]
    rfl
  rcases hx with rfl | ⟨hx, hbx⟩
  · rcases hy with rfl | ⟨hy, h1y⟩
    · exact .inl rfl
    · obtain ⟨z, rfl, hz⟩ := Binary64.value_eq_some.mp hy
      rw [← hz] at h1y
      exact .inl (hinf (by linarith))
  · obtain ⟨z, rfl, hz⟩ := Binary64.value_eq_some.mp hx
    rw [← hz] at hbx
    rcases hy with rfl | ⟨hy, h1y⟩
    · left
      have h := @hinf z (by linarith)
      rwa [Bool.xor_comm] at h
    · obtain ⟨z', rfl, hz'⟩ := Binary64.value_eq_some.mp hy
      rw [← hz'] at h1y
      have hle : z.val ≤ z.val * z'.val := le_mul_of_one_le_right (by linarith) h1y
      have h : Reaches (Binary64.ofRat (z.neg ^^ z'.neg) (z.val * z'.val)) z.val :=
        reaches_ofRat z.val_mem (by linarith) hle
      exact h.imp id fun h => ⟨h.1, hbx.trans h.2⟩

/-- What is above zero is at least one when rounded up to a `u64`. -/
theorem Reaches.toU64_ceil (hx : Reaches x b) (hb : 0 < b) : toU64 (ceil x) ≠ 0 := by
  rcases hx with rfl | ⟨hx, hbx⟩
  · exact Nat.succ_ne_zero _
  · obtain ⟨z, rfl, hz⟩ := Binary64.value_eq_some.mp hx
    rw [← hz] at hbx
    have hone : (1 : ℤ) ≤ ⌈z.val⌉ := Int.one_le_ceil_iff.mpr (by linarith)
    have hmem : f64.Mem (1 : ℚ) := ⟨1, 0, by norm_num [f64], by norm_num [f64], by norm_num⟩
    have h : Reaches (Binary64.ofRat z.neg (⌈z.val⌉ : ℤ)) 1 := reaches_ofRat hmem (by norm_num) (by exact_mod_cast hone)
    have hceil : (ceil (.fin z) : Binary64) = Binary64.ofRat z.neg (⌈z.val⌉ : ℤ) := rfl
    rw [hceil]
    rcases h with h | ⟨h, h1⟩
    · rw [h]
      exact Nat.succ_ne_zero _
    · obtain ⟨z', h', hz'⟩ := Binary64.value_eq_some.mp h
      rw [← hz'] at h1
      rw [h']
      have hfloor : (1 : ℤ) ≤ ⌊z'.val⌋ := Int.le_floor.mpr (by exact_mod_cast h1)
      show min ⌊z'.val⌋.toNat (2 ^ 64 - 1) ≠ 0
      omega

/-- What a purchase of at least one atom costs, in USD: more than a millionth, or nearly. -/
theorem reaches_atoms (h : 1 ≤ q) : Reaches (lit q / lit (10 ^ 6)) (1 / 2 ^ 20) := by
  have hmillion : (lit (10 ^ 6) : Binary64).value = some (10 ^ 6) := by decide +kernel
  have hmem : f64.Mem (1 : ℚ) := ⟨1, 0, by norm_num [f64], by norm_num [f64], by norm_num⟩
  have hatoms : Reaches (lit q) 1 := reaches_ofRat hmem (by norm_num) h
  rcases hatoms with hinf | ⟨hfin, h1⟩
  · left
    rw [hinf]
    decide +kernel
  · obtain ⟨s, hdiv⟩ := Binary64.div_eq hfin hmillion (by norm_num)
    have hsmall : f64.Mem (1 / 2 ^ 20 : ℚ) := ⟨1, -20, by norm_num [f64], by norm_num [f64], by norm_num⟩
    rw [hdiv]
    refine reaches_ofRat hsmall (by norm_num) ?_
    rw [le_div_iff₀ (by norm_num)]
    exact le_trans (by norm_num) h1

/-- The floor of a gain is not nothing, when something was paid. -/
theorem floorAtoms_ne_zero {lot : Lot Binary64} {take : Binary64} (hlot : Reaches lot.usd b) (hb : 0 < b)
    (hfin : take.IsFinite) (hpos : 0 < take.val) : floorAtoms lot take ≠ 0 := by
  have hone : (lit 1 : Binary64).value = some 1 := by decide +kernel
  have hmillion : (lit (10 ^ 6) : Binary64).value = some (10 ^ 6) := by decide +kernel
  have hmem : f64.Mem (1 : ℚ) := ⟨1, 0, by norm_num [f64], by norm_num [f64], by norm_num⟩
  obtain ⟨s, hadd⟩ := Binary64.add_eq hone hfin
  have hshare : Reaches (lit 1 + take) 1 := by
    rw [hadd]
    exact reaches_ofRat hmem (by norm_num) (by linarith)
  have hscale : Reaches (lit (10 ^ 6)) 1 := by
    refine .inr ⟨Binary64.isFinite_of hmillion, ?_⟩
    rw [Binary64.val_eq hmillion]
    norm_num
  exact ((hlot.mul hb hshare).mul hb hscale).toU64_ceil hb

end Reaches

/-! ### A chain on which a swap brings what it is held to -/

/-- A chain, and the last swap sent on it with what it was held to. -/
abbrev Quay (F : Type) := Ledger F × Option (Pending F × ℕ)

/-- The last swap sent, if it sells SOL, brings what it was held to. The wallet's
USDC atoms are fewer than the largest `u64`. -/
def Brings {F : Type} (last : Option (Pending F × ℕ)) (p : Pending F) (before after : Wallet) : Prop :=
  ∀ atLeast, last = some (p, atLeast) → p.what.sellsSol = true →
    before.2 + atLeast ≤ after.2 ∧ after.2 < 2 ^ 64 - 1

/-- The wallet changes by the run's swaps and their fees only, whenever they land. -/
def quay (F : Type) : Chain F (Quay F) where
  balances x a x' := (venue (Brings x.2)).balances x.1 a x'.1 ∧ x'.2 = x.2
  swap x pending _ _ atLeast a x' :=
    match a, pending with
    | .sent, some p => Drifts (Brings (some (p, atLeast))) { x.1 with flights := x.1.flights ++ [p] } x'.1 ∧
        x'.2 = some (p, atLeast)
    | _, _ => Drifts (Brings x.2) x.1 x'.1 ∧ x'.2 = x.2
  now x t x' := (venue (Brings x.2)).now x.1 t x'.1 ∧ x'.2 = x.2
  passes x x' := Drifts (Brings x.2) x.1 x'.1 ∧ x'.2 = x.2

section Phases

variable {F : Type} [FloatOps F] {T : F → Prop} {s s' : State F} {e : Done F} {x x' : Quay F} {p : Pending F}

/-- What has become of the open swap: it can still land, it did not, or it has
landed and brought what it was held to. -/
def Phase (T : F → Prop) (s : State F) (x : Quay F) (p : Pending F) : Prop :=
  (x.1.Flying p ∧ x.1.wallet.2 = p.usdc ∧ ∃ atLeast, x.2 = some (p, atLeast) ∧ HeldTo T s p atLeast) ∨
  (x.1.Still ∧ x.1.wallet.2 = p.usdc) ∨
  (x.1.Still ∧ ∃ atLeast, x.2 = some (p, atLeast) ∧ HeldTo T s p atLeast ∧
    Brings x.2 p (p.lamports, p.usdc) x.1.wallet)

/-- Nothing can land but the open swap. -/
structure Takes (T : F → Prop) (s : State F) (_e : Done F) (x : Quay F) : Prop where
  closed : s.pending = none → x.1.Still
  opened : ∀ p, s.pending = some p → Phase T s x p

/-- A swap that is held and not sent: nothing can land, and the wallet is as it was read. -/
structure Moored (s : State F) (_e : Done F) (x : Quay F) : Prop where
  still : x.1.Still
  wallet : ∀ p, s.pending = some p → x.1.wallet.2 = p.usdc
  held : s.pending ≠ none

theorem HeldTo.same {atLeast : ℕ} (h : HeldTo T s p atLeast) (hl : s'.account.lots = s.account.lots) :
    HeldTo T s' p atLeast := by
  unfold HeldTo
  rw [hl]
  exact h

theorem Phase.same (h : Phase T s x p) (hl : s'.account.lots = s.account.lots) : Phase T s' x p := by
  rcases h with ⟨hf, hw, n, hn, hto⟩ | h | ⟨hs, n, hn, hto, hb⟩
  · exact .inl ⟨hf, hw, n, hn, hto.same hl⟩
  · exact .inr (.inl h)
  · exact .inr (.inr ⟨hs, n, hn, hto.same hl, hb⟩)

theorem Phase.drifts (h : Phase T s x p) (hd : Drifts (Brings x.2) x.1 x'.1) (hx : x'.2 = x.2) : Phase T s x' p := by
  unfold Phase
  rw [hx]
  rcases h with ⟨hf, hw, n, hn, hto⟩ | ⟨hs, hw⟩ | ⟨hs, n, hn, hto, hb⟩
  · rcases hd.flying hf with ⟨hf', hw', -⟩ | ⟨hs', -, hw', -⟩ | ⟨hs', hland, -⟩
    · exact .inl ⟨hf', by rw [hw', hw], n, hn, hto⟩
    · exact .inr (.inl ⟨hs', hw'.trans hw⟩)
    · refine .inr (.inr ⟨hs', n, hn, hto, fun m hm hsell => ?_⟩)
      obtain ⟨h1, h2⟩ := hland m hm hsell
      exact ⟨hw ▸ h1, h2⟩
  · obtain ⟨hs', hw', -⟩ := hd.still hs
    exact .inr (.inl ⟨hs', by rw [hw', hw]⟩)
  · obtain ⟨hs', hw', -⟩ := hd.still hs
    exact .inr (.inr ⟨hs', n, hn, hto, by rw [hw']; exact hb⟩)

/-- Once it shows, or can no longer land, nothing can. -/
theorem Phase.still (h : Phase T s x p) (hover : Shows p x.1.wallet ∨ ¬ x.1.Alive p) : x.1.Still := by
  rcases h with ⟨⟨rest, hf, hrest⟩, hw, -⟩ | ⟨hs, -⟩ | ⟨hs, -⟩
  · have hdead : ¬ x.1.Alive p := by
      rcases hover with hsh | hdead
      · exfalso
        unfold Shows Moved at hsh
        split at hsh <;> simp only at hsh <;> omega
      · exact hdead
    intro q hq
    rw [hf, List.mem_append, List.mem_singleton] at hq
    rcases hq with hq | rfl
    · exact hrest q hq
    · exact hdead
  · exact hs
  · exact hs

theorem Takes.drifts (h : Takes T s e x) (hd : Drifts (Brings x.2) x.1 x'.1) (hx : x'.2 = x.2) : Takes T s e x' :=
  ⟨fun hn => (hd.still (h.closed hn)).1, fun p hp => (h.opened p hp).drifts hd hx⟩

theorem Moored.takes (h : Moored s e x) : Takes T s e x :=
  ⟨fun _ => h.still, fun p hp => .inr (.inl ⟨h.still, h.wallet p hp⟩)⟩

theorem keeps_takes (T : F → Prop) :
    KeepsHeld (quay F) (fun t (x : Quay F) => t ≤ x.1.clock) T (Takes T) Moored where
  edit h hs := ⟨fun hn => h.closed (hs.pending.symm.trans hn), fun p hp =>
    (h.opened p (hs.pending.symm.trans hp)).same hs.lots⟩
  reads h hx := h.drifts hx.1.1 hx.2
  clocks h hx := h.drifts hx.1.1 hx.2
  passes h hx := h.drifts hx.1 hx.2
  late_clock hx := hx.1.2
  late_reads ht hx := ht.trans hx.1.1.clock
  holds what ts close h hn hx := by
    have h' := h.drifts hx.1.1 hx.2
    refine ⟨h'.closed hn, ?_, nofun⟩
    rintro p ⟨rfl⟩
    have hw := hx.1.2
    simp only [reduceCtorEq, Option.some.injEq, false_or] at hw
    rw [← hw]
  held h := h.takes
  swaps {s e x p amount atLeast a x'} h hp hto hx := by
    cases a with
    | sent =>
      obtain ⟨hd, hlast⟩ := hx
      refine ⟨fun hn => absurd hn h.held, fun q hq => ?_⟩
      obtain rfl := Option.some.inj (hp.symm.trans hq)
      have hsent : Phase T s ({ x.1 with flights := x.1.flights ++ [p] }, some (p, atLeast)) p :=
        .inl ⟨⟨x.1.flights, rfl, h.still⟩, h.wallet p hp, atLeast, rfl, hto⟩
      exact hsent.drifts hd hlast
    | notSent => exact h.takes.drifts hx.1 hx.2
    | simulated => exact h.takes.drifts hx.1 hx.2
  unsent {s e x p amount atLeast a x'} h hp hx ha := by
    have hd : Drifts (Brings x.2) x.1 x'.1 := by
      cases a with
      | sent => exact absurd rfl ha
      | notSent => exact hx.1
      | simulated => exact hx.1
    exact ⟨fun _ => (hd.still h.still).1, nofun⟩
  seen {s e x p wallet x'} h hp _ hx hs := by
    have h' := (h.opened p hp).drifts hx.1.1 hx.2
    have hw : x'.1.wallet = wallet := by simpa [eq_comm] using hx.1.2
    exact ⟨fun _ => h'.still (.inl (by rw [hw]; exact hs)), nofun⟩
  gaveUp {s e x p wallet x' t} h hp ht hlate hx hs := by
    have h' := (h.opened p hp).drifts hx.1.1 hx.2
    have hdead : ¬ x'.1.Alive p := by
      have := hx.1.1.clock
      unfold Alive
      omega
    exact ⟨fun _ => h'.still (.inr hdead), nofun⟩

theorem takes_start (r : Rule F) (T : F → Prop) (clock : ℤ) (wallet : Wallet) :
    Joined r (Takes T) (World.fresh (.start clock wallet, none) : World F (Quay F)) := by
  have hfirst : Takes T (.default : State F) [] (.start clock wallet, none) := ⟨fun _ => nofun, nofun⟩
  exact ⟨⟨⟨fits_default _, hfirst⟩, ⟨fits_default _, hfirst⟩, nofun⟩, rfl⟩

/-- A sale that is accounted for makes a trade of its lot; nothing else makes one. -/
theorem settle_trades (s : State F) (live : Live F) (p : Pending F) (wallet : Wallet) (lastLook : Bool) :
    (s.settle live p wallet lastLook).1.account.trades = s.account.trades ∨
    ∃ i lot, p.what = .sell i ∧ s.account.lots[i]? = some lot ∧ p.usdc < wallet.2 ∧
      (s.settle live p wallet lastLook).1.account.trades = s.account.trades ++
        [⟨lot.opened, p.ts, lot.usd, lit ((wallet.2 : ℤ) - p.usdc : ℤ) / lit (10 ^ 6) - lot.usd⟩] := by
  unfold State.settle
  cases hw : p.what with
  | sell i =>
    simp only
    split
    · rename_i h
      have hlot := List.getElem?_eq_getElem h.2
      have hlt : p.usdc < wallet.2 := by omega
      refine .inr ⟨i, _, rfl, hlot, hlt, ?_⟩
      simp only [Account.sold, hlot]
    · exact .inl rfl
  | _ =>
    left
    simp only
    split <;> rfl

theorem Sets.trades {d : Desk F} (h : Sets d s s') : s'.account.trades = s.account.trades := by
  cases h with
  | ordered account hsame => exact hsame.trades
  | _ => rfl

end Phases

/-! ### Every run -/

/-- The runs of a take-profit: the setting is `t` throughout, and a grid takes
up an order when no swap is open. -/
def Taking (d : Desk Binary64) (t : Binary64) (w : World Binary64 (Quay Binary64)) (o : Op Binary64) : Prop :=
  TakenUp d.rule w o ∧ (actsOf w.mem d.live).takeProfit = some t

/-- Something was paid for every lot. -/
def Paid (s : State Binary64) : Prop := ∀ lot ∈ s.account.lots, Reaches lot.usd (1 / 2 ^ 20)

section Paying

variable {X : Type} {d : Desk Binary64} {ch : Chain Binary64 X} {K : World Binary64 X → Op Binary64 → Prop}
  {w w' : World Binary64 X} {s s' : State Binary64}

theorem Paid.same (h : Paid s) (hl : s'.account.lots = s.account.lots) : Paid s' := by
  unfold Paid
  rw [hl]
  exact h

/-- A lot is bought for what the wallet shows was spent. -/
theorem Paid.settle (h : Paid s) (live : Live Binary64) (p : Pending Binary64) (wallet : Wallet) (lastLook : Bool) :
    Paid (s.settle live p wallet lastLook).1 := by
  unfold State.settle
  cases hw : p.what with
  | buy =>
    simp only
    split
    · rename_i hspent
      intro lot hlot
      rcases List.mem_append.mp hlot with hlot | hlot
      · exact h lot hlot
      · rw [List.mem_singleton.mp hlot]
        have hatoms : (1 : ℤ) ≤ -((wallet.2 : ℤ) - p.usdc) := by omega
        exact reaches_atoms (by exact_mod_cast hatoms)
    · exact h
  | sell i =>
    simp only
    split
    · rename_i hheld
      intro lot hlot
      simp only [Account.sold, List.getElem?_eq_getElem hheld.2] at hlot
      exact h lot (List.mem_of_mem_eraseIdx hlot)
    · exact h
  | _ =>
    simp only
    split <;> exact h

theorem Sets.lots (h : Sets d s s') : s'.account.lots = s.account.lots := by
  cases h with
  | ordered account hsame => exact hsame.lots
  | _ => rfl

/-- What is written down stays, or is the state in memory. -/
theorem move_disk {r r' : Shell.Status (Op.Ans (F := Binary64)) (World Binary64 X)} (hm : (desk d ch K).Moves r r') :
    r'.world.disk = r.world.disk ∨ r'.world.disk = r.world.mem := by
  cases hm with
  | call c hc => exact .inl rfl
  | done => exact .inl rfl
  | stop => exact .inl rfl
  | pass hp =>
    obtain ⟨x, -, rfl⟩ := hp
    exact .inl rfl
  | @answer v v' o k a ha =>
    obtain ⟨ha, -⟩ := ha
    show v'.disk = v.disk ∨ v'.disk = v.mem
    cases o with
    | write =>
      subst ha
      exact .inr rfl
    | state =>
      obtain ⟨-, rfl⟩ := ha
      exact .inl rfl
    | settle p wallet lastLook =>
      obtain ⟨-, rfl⟩ := ha
      exact .inl rfl
    | balances =>
      obtain ⟨x, -, rfl⟩ := ha
      exact .inl rfl
    | swap b n m =>
      obtain ⟨x, -, rfl⟩ := ha
      exact .inl rfl
    | now =>
      obtain ⟨x, -, rfl⟩ := ha
      exact .inl rfl
    | _ =>
      subst ha
      exact .inl rfl

/-- **In every run something was paid for every lot**, in memory and in what is written down. -/
theorem reach_paid (x : X) {r : Shell.Status (Op.Ans (F := Binary64)) (World Binary64 X)}
    (hr : (desk d ch K).Reach (.fresh x) r) : Paid r.world.mem ∧ Paid r.world.disk := by
  induction hr with
  | refl => exact ⟨fun _ hlot => (nomatch hlot), fun _ hlot => (nomatch hlot)⟩
  | @tail r r' hrun hm ih =>
    have hdisk : Paid r'.world.disk := by
      rcases move_disk hm with h | h
      · rw [h]
        exact ih.2
      · rw [h]
        exact ih.1
    refine ⟨?_, hdisk⟩
    cases move_cases ⟨.closed rfl, .closed rfl⟩ hrun hm with
    | same hmem => exact hmem ▸ ih.1
    | swap q hmem => exact hmem ▸ ih.1.same rfl
    | sets hsets => exact ih.1.same hsets.lots
    | settled hp _ _ hmem => exact hmem ▸ ih.1.settle d.live _ _ _
    | stopped hstop => exact hstop ▸ ih.2

/-- The open sale is of a lot, held to the floor of its gain. -/
structure GainHeld (t : Binary64) (w : World Binary64 X) (p : Pending Binary64) (amount atLeast : ℕ) : Prop where
  pending : w.mem.pending = some p
  sale : ∃ i lot, p.what = .sell i ∧ w.mem.account.lots[i]? = some lot ∧ amount = saleAmount lot.sol ∧
    atLeast = floorAtoms lot t

/-- A swap that is asked for is that of the gain. -/
def AsksGain (t : Binary64) (w : World Binary64 X) (o : Op Binary64) : Prop :=
  ∀ sellSol amount atLeast, o = .swap sellSol amount atLeast → sellSol = true ∧ ∃ p, GainHeld t w p amount atLeast

theorem lookFor_gain {t : Binary64} {p : Pending Binary64} : ∀ (n : ℕ) (w : World Binary64 X),
    (lookFor p n).Sound (desk d ch K).answers (AsksGain t) (fun _ _ => True) w
  | 0, _ => True.intro
  | n + 1, w => by
    unfold lookFor
    simp only [Prog.bind_eq]
    refine sound_balances nofun fun a x _ => ?_
    cases a with
    | none => exact lookFor_gain n _
    | some wallet =>
      refine sound_settle nofun (fun _ => ?_) fun _ => lookFor_gain n _
      exact sound_release nofun True.intro

/-- The sale of a lot that is held, for its floor. -/
theorem actFor_gain {t : Binary64} {i amount atLeast : ℕ} {lot : Lot Binary64}
    (hlot : w.mem.account.lots[i]? = some lot) (hamount : amount = saleAmount lot.sol)
    (hfloor : atLeast = floorAtoms lot t) (ts : ℤ) (close : Binary64) :
    (actFor (.sell i) amount atLeast ts close).Sound (desk d ch K).answers (AsksGain t) (fun _ _ => True) w := by
  unfold actFor
  simp only [Prog.bind_eq]
  refine sound_balances nofun fun a x _ => ?_
  cases a with
  | none => exact True.intro
  | some wallet =>
    refine .ite (fun _ => True.intro) fun _ => sound_hold nofun (sound_write nofun ?_)
    refine Prog.Sound.seq (Q := fun _ _ => True) ?_ fun _ _ _ => sound_write nofun True.intro
    refine sound_swap ?_ fun a x' _ => ?_
    · rintro _ _ _ ⟨⟩
      exact ⟨rfl, _, rfl, i, lot, rfl, hlot, hamount, hfloor⟩
    · cases a with
      | sent => exact lookFor_gain 6 _
      | _ => exact sound_release nofun True.intro

/-- **Every swap `takeGains` asks for is the sale of a lot, held to the floor of its gain.** -/
theorem takeGains_gain (t bid : Binary64) (ts : ℤ) (close : Binary64) : ∀ (n : ℕ) (w : World Binary64 X),
    (takeGains d t bid ts close n).Sound (desk d ch K).answers (AsksGain t) (fun _ _ => True) w
  | 0, _ => True.intro
  | i + 1, w => by
    unfold takeGains
    simp only [Prog.bind_eq]
    refine sound_state nofun (.ite (fun _ => True.intro) fun _ => ?_)
    split
    · exact True.intro
    · rename_i lot hlot
      refine .ite (fun _ => ?_) fun _ => takeGains_gain t bid ts close i w
      exact Prog.Sound.seq (actFor_gain hlot rfl rfl ts close) fun _ v _ => takeGains_gain t bid ts close i v

end Paying

/-- The trade of the open sale: it is of the lot the sale was sent for. The sale is the last swap that was sent, held
to nothing, or to the floor of the lot, and then the trade has the gain. -/
inductive Made (t : Binary64) (w : World Binary64 (Quay Binary64)) (trade : Trade Binary64) : Prop
  | sold {p : Pending Binary64} {i atLeast : ℕ} {lot : Lot Binary64} : w.mem.pending = some p → p.what = .sell i →
    w.mem.account.lots[i]? = some lot → trade.usd = lot.usd → w.chain.2 = some (p, atLeast) →
    (atLeast = 0 ∨ atLeast = floorAtoms lot t ∧ Gain t trade) → Made t w trade

theorem settle_made {d : Desk Binary64} {t : Binary64} {w : World Binary64 (Quay Binary64)} {p : Pending Binary64}
    {wallet : Wallet} {lastLook : Bool} (h : AsksNow (quay Binary64) d.rule (Takes (· = t)) w (.settle p wallet lastLook)) :
    (w.mem.settle d.live p wallet lastLook).1.account.trades = w.mem.account.trades ∨
    ∃ trade, (w.mem.settle d.live p wallet lastLook).1.account.trades = w.mem.account.trades ++ [trade] ∧
      Made t w trade := by
  obtain ⟨hp, x, hside, hread⟩ := h.now p wallet lastLook rfl
  rcases settle_trades w.mem d.live p wallet lastLook with hsame | ⟨i, lot, hw, hlot, hlt, htrades⟩
  · exact .inl hsame
  have hphase := (hside.2.opened p hp).drifts hread.1.1 hread.2
  have hwallet : w.chain.1.wallet = wallet := by simpa [eq_comm] using hread.1.2
  unfold Phase at hphase
  rw [hwallet] at hphase
  rcases hphase with ⟨-, hsame, -⟩ | ⟨-, hsame⟩ | ⟨-, n, hn, hto, hbrings⟩
  · exact absurd hsame hlt.ne'
  · exact absurd hsame hlt.ne'
  -- it has landed: it brought the floor of the lot, which is still there
  refine .inr ⟨_, htrades, .sold hp hw hlot rfl hn ?_⟩
  obtain ⟨hfloor, hfew⟩ := hbrings n hn (by rw [hw]; rfl)
  simp only at hfloor
  rcases hto with h0 | ⟨j, lot', take, hj, hlot', rfl, rfl⟩
  · exact .inl h0
  obtain rfl : i = j := by
    rw [hw] at hj
    exact What.sell.inj hj
  obtain rfl := Option.some.inj (hlot.symm.trans hlot')
  by_cases hne : floorAtoms lot take = 0
  · exact .inl hne
  · exact .inr ⟨rfl, gain_of_floor hne (by omega) (by omega)⟩

/-- A move that is no stop makes no trade, or the trade of the open sale. -/
theorem move_made {d : Desk Binary64} {t : Binary64} {clock : ℤ} {wallet : Wallet}
    {s s' : Shell.Status (Op.Ans (F := Binary64)) (World Binary64 (Quay Binary64))}
    (hs : (desk d (quay Binary64) (Taking d t)).Reach (.fresh (.start clock wallet, none)) s)
    (hm : (desk d (quay Binary64) (Taking d t)).Moves s s') :
    s'.world = s.world.restart ∨ s'.world.mem.account.trades = s.world.mem.account.trades ∨
      ∃ trade, s'.world.mem.account.trades = s.world.mem.account.trades ++ [trade] ∧ Made t s.world trade := by
  have hheld := desk_held (keeps_takes (· = t)) (fun _ _ h => h.1)
    (fun w hw take htake => Option.some.inj (htake.symm.trans hw.2)) (takes_start d.rule _ clock wallet) hs
  have htold : (desk d (quay Binary64) (Taking d t)).Safe AllOpen (Informed d) s :=
    desk_told ⟨.closed rfl, .closed rfl⟩ hs
  cases hm with
  | call c hc => exact .inr (.inl rfl)
  | done => exact .inr (.inl rfl)
  | stop => exact .inl rfl
  | pass hp =>
    obtain ⟨x, -, rfl⟩ := hp
    exact .inr (.inl rfl)
  | @answer w w' o k a ha =>
    have hasks := hheld.at_ask
    have hknown : Known d w o := htold.at_ask.known
    obtain ⟨ha, -⟩ := ha
    right
    show w'.mem.account.trades = w.mem.account.trades ∨ _
    cases o with
    | settle p wallet lastLook =>
      obtain ⟨-, rfl⟩ := ha
      exact settle_made hasks
    | set s =>
      subst ha
      exact .inl (Sets.trades hknown)
    | state =>
      obtain ⟨-, rfl⟩ := ha
      exact .inl rfl
    | balances =>
      obtain ⟨x, -, rfl⟩ := ha
      exact .inl rfl
    | swap b n m =>
      obtain ⟨x, -, rfl⟩ := ha
      exact .inl rfl
    | now =>
      obtain ⟨x, -, rfl⟩ := ha
      exact .inl rfl
    | _ =>
      subst ha
      exact .inl rfl

/-- **A taken gain is a gain.** In every run with take-profit `t`, whatever the wallet, the slippage and when a swap
lands, as long as the last swap sent brings at least what it is held to: a swap that `takeGains` asks for is the sale
of a lot that is held, for the floor of its gain, which is not nothing; and a move that is no stop makes no trade, or
the trade of the open sale. That sale was the last swap sent, and if it was sent held to something, as those of
`takeGains` are, what it made is at least `t` times what was paid for the lot, but for rounding. -/
theorem gain_taken (d : Desk Binary64) {t : Binary64} (hfin : t.IsFinite) (hpos : 0 < t.val) (clock : ℤ) (wallet : Wallet) :
    (∀ {w w' : World Binary64 (Quay Binary64)} {bid close : Binary64} {ts : ℤ} {n amount atLeast : ℕ} {sellSol : Bool}
      {rest : Unit → Act Binary64 Unit} {k : Sent → Act Binary64 Unit},
      (desk d (quay Binary64) (Taking d t)).Reach (.fresh (.start clock wallet, none))
        (.busy w ((takeGains d t bid ts close n).bind rest)) →
      (desk d (quay Binary64) (Taking d t)).Within (.busy w (takeGains d t bid ts close n))
        (.busy w' (.ask (.swap sellSol amount atLeast) k)) →
      sellSol = true ∧ 0 < atLeast ∧ ∃ p, GainHeld t w' p amount atLeast) ∧
    ∀ {s s' : Shell.Status (Op.Ans (F := Binary64)) (World Binary64 (Quay Binary64))},
      (desk d (quay Binary64) (Taking d t)).Reach (.fresh (.start clock wallet, none)) s →
      (desk d (quay Binary64) (Taking d t)).Moves s s' →
      s'.world = s.world.restart ∨ s'.world.mem.account.trades = s.world.mem.account.trades ∨
        ∃ trade, s'.world.mem.account.trades = s.world.mem.account.trades ++ [trade] ∧ Made t s.world trade := by
  refine ⟨fun hw hask => ?_, move_made⟩
  obtain ⟨hsell, p, hp⟩ := hask.at_ask (takeGains_gain t _ _ _ _ _) _ _ _ rfl
  refine ⟨hsell, ?_, p, hp⟩
  obtain ⟨i, lot, -, hlot, -, hfloor⟩ := hp.sale
  -- the lot was paid for, as the run comes to this question too
  have hpaid : Reaches lot.usd (1 / 2 ^ 20) := (reach_paid _ ((hask.bind _).reach hw)).1 lot (List.mem_of_getElem? hlot)
  rw [hfloor]
  exact Nat.pos_of_ne_zero (floorAtoms_ne_zero hpaid (by norm_num) hfin hpos)

/-! ### A gain of a hundredth -/

namespace Hundredth

/-- Buys when the price falls, sells when it rises, and takes a gain of a hundredth. -/
def trader : Desk Binary64 :=
  ⟨⟨lit 10, lit (1 / 2), 50, .close, some (lit (1 / 100))⟩, 1000000, .signReversal, ⟨none, none⟩, 60000, true⟩

def start : World Binary64 (Quay Binary64) := .fresh (.start 0 (10000000000, 10000000), none)

/-- A swap lands at once: a purchase for a SOL, a sale for exactly what it is held to. -/
def landed (x : Quay Binary64) (p : Pending Binary64) (amount atLeast : ℕ) : Quay Binary64 :=
  let sent := { x.1 with flights := x.1.flights ++ [p] }
  if x.1.clock < p.ts + settledAfterMs ∧ x.1.wallet.2 + atLeast < 2 ^ 64 - 1 then
    if p.what.sellsSol then
      (sent.landAs p (x.1.flights ++ []) (x.1.wallet.1 - amount, x.1.wallet.2 + atLeast), some (p, atLeast))
    else (sent.landAs p (x.1.flights ++ []) (x.1.wallet.1 + 1000000000, x.1.wallet.2 - amount), some (p, atLeast))
  else (sent, some (p, atLeast))

def send (w : World Binary64 (Quay Binary64)) (amount atLeast : ℕ) : Sent × World Binary64 (Quay Binary64) :=
  match w.mem.pending with
  | none => (.notSent, w)
  | some p => (.sent, { w with chain := landed w.chain p amount atLeast })

def replies (w : World Binary64 (Quay Binary64)) : (o : Op Binary64) → o.Ans × World Binary64 (Quay Binary64)
  | .state => (w.mem, w)
  | .set s => ((), { w with mem := s })
  | .hold p => ((), { w with mem := { w.mem with pending := some p } })
  | .release => ((), { w with mem := { w.mem with pending := none } })
  | .settle p now lastLook =>
    ((w.mem.settle trader.live p now lastLook).2, { w with
      mem := (w.mem.settle trader.live p now lastLook).1
      applied := if (w.mem.settle trader.live p now false).2 then w.applied ++ [(p, now)] else w.applied })
  | .balances => (some w.chain.1.wallet, w)
  | .swap _ amount atLeast => send w amount atLeast
  | .write => ((), { w with disk := w.mem, kept := w.applied })
  | .now => (w.chain.1.clock, w)
  | .order _ => ((), w)

/-- The runs of the trader. -/
abbrev run : Shell (Op.Ans (F := Binary64)) (World Binary64 (Quay Binary64)) (Call Binary64) :=
  desk trader (quay Binary64) (Taking trader (lit (1 / 100)))

/-- The setting is that of the file. -/
def taking (w : World Binary64 (Quay Binary64)) (_ : Op Binary64) : Bool :=
  decide ((actsOf w.mem trader.live).takeProfit = some (lit (1 / 100)))

theorem landed_drifts (x : Quay Binary64) (p : Pending Binary64) (amount atLeast : ℕ) :
    Drifts (Brings (some (p, atLeast))) { x.1 with flights := x.1.flights ++ [p] } (landed x p amount atLeast).1 ∧
      (landed x p amount atLeast).2 = some (p, atLeast) := by
  unfold landed
  simp only
  split
  swap
  · exact ⟨.refl, rfl⟩
  rename_i h
  split
  · refine ⟨.single (Drift.land rfl h.1 ?_), rfl⟩
    rintro n ⟨⟩ -
    exact ⟨le_rfl, h.2⟩
  · rename_i hsell
    refine ⟨.single (Drift.land rfl h.1 ?_), rfl⟩
    intro n _ hs
    exact absurd hs hsell

theorem replies_answer (w : World Binary64 (Quay Binary64)) (o : Op Binary64) (h : taking w o = true) :
    run.answers w o (replies w o).1 (replies w o).2 := by
  refine ⟨?_, ?_, of_decide_eq_true h⟩
  · cases o with
    | state => exact ⟨rfl, rfl⟩
    | settle => exact ⟨rfl, rfl⟩
    | balances => exact ⟨w.chain, ⟨⟨.refl, .inr rfl⟩, rfl⟩, rfl⟩
    | now => exact ⟨w.chain, ⟨⟨.refl, le_rfl⟩, rfl⟩, rfl⟩
    | swap sellSol amount atLeast =>
      simp only [replies, send, World.answers]
      cases w.mem.pending with
      | none => exact ⟨w.chain, ⟨.refl, rfl⟩, rfl⟩
      | some p => exact ⟨_, landed_drifts w.chain p amount atLeast, rfl⟩
    | _ => rfl
  · cases o <;> first | trivial | exact fun hn => absurd hn Bool.false_ne_true

/-- A look at bars that closed at these prices. -/
def lookAt (before close : ℚ) : Call Binary64 :=
  .look [⟨0, lit before, lit before, lit before, lit before, lit 0⟩, ⟨1, lit close, lit close, lit close, lit close, lit 0⟩]
    ⟨none, [], 1⟩ (lit close) (lit close) true

/-- The price fell: the budget is set aside, and spent. -/
def bought : World Binary64 (Quay Binary64) := (Shell.steps replies 60 (start, (lookAt 20 10).prog trader)).1

/-- The price rose: the lot is sold. -/
def asked (n : ℕ) : World Binary64 (Quay Binary64) × Act Binary64 Unit :=
  Shell.steps replies n (bought, (lookAt 10 20).prog trader)

theorem reach_asked (n : ℕ) (h : Shell.allowed replies taking n (bought, (lookAt 10 20).prog trader) = true) :
    run.Reach start (.busy (asked n).1 (asked n).2) := by
  have hfirst : run.Reach start (.busy start ((lookAt 20 10).prog trader)) :=
    .single (@Shell.Moves.call _ _ _ _ run start (lookAt 20 10) rfl)
  have hbought : run.Reach start (.idle bought) :=
    Shell.reach_idle (Shell.reach_allowed replies_answer 60 hfirst (by decide +kernel)) (by decide +kernel)
  have hready : bought.mem.ended = none := Option.isNone_iff_eq_none.mp (by decide +kernel)
  exact Shell.reach_allowed replies_answer n (hbought.tail (.call (lookAt 10 20) hready)) h

end Hundredth

open Hundredth in
/-- A lot of 10 USD is sold for exactly its floor, 10.1 USD: what that made is less than a hundredth of 10. -/
theorem gain_rounded_down : run.Reach start (.busy (asked 60).1 (asked 60).2) ∧
    (asked 60).1.chain.2.any (fun sent => decide (sent.2 ≠ 0)) = true ∧
    (asked 60).1.mem.account.trades.map (fun trade =>
      decide (trade.net.val < (lit (1 / 100) : Binary64).val * trade.usd.val)) = [true] :=
  ⟨reach_asked 60 (by decide +kernel), by decide +kernel, by decide +kernel⟩

open Hundredth in
/-- Its sale is accounted for at the fifteenth question, and has the gain. -/
theorem gain_taken_hundredth : (asked 15).1.mem.account.trades.length = 1 ∧
    ∃ trade, (asked 15).1.mem.account.trades = (asked 14).1.mem.account.trades ++ [trade] ∧
      Made (lit (1 / 100)) (asked 14).1 trade := by
  have hallowed : Shell.allowed replies taking 14 (bought, (lookAt 10 20).prog trader) = true := by decide +kernel
  have htaking : taking (asked 14).1 .state = true := by decide +kernel
  have hone : (asked 15).1.mem.account.trades.length = 1 := by decide +kernel
  have hnone : (asked 14).1.mem.account.trades.length = 0 := by decide +kernel
  have hmove : run.Moves (.busy (asked 14).1 (asked 14).2) (.busy (asked 15).1 (asked 15).2) :=
    Shell.move_steps (fun o => replies_answer _ o htaking) (by decide +kernel)
  refine ⟨hone, ?_⟩
  have hvalue : (lit (1 / 100) : Binary64).IsFinite := by
    have hsome : (lit (1 / 100) : Binary64).value = some (lit (1 / 100) : Binary64).val := by decide +kernel
    exact hsome
  have hpos : 0 < (lit (1 / 100) : Binary64).val := by decide +kernel
  rcases (gain_taken trader hvalue hpos 0 (10000000000, 10000000)).2 (reach_asked 14 hallowed) hmove with h | h | h
  · -- no stop: what is written down has no trade
    have hlen : (asked 14).1.disk.account.trades.length = 0 := by decide +kernel
    have hsame : (asked 15).1.mem.account.trades = (asked 14).1.disk.account.trades := congrArg (fun w => w.mem.account.trades) h
    rw [hsame, hlen] at hone
    exact nomatch hone
  · have hsame : (asked 15).1.mem.account.trades = (asked 14).1.mem.account.trades := h
    rw [hsame, hnone] at hone
    exact nomatch hone
  · exact h

end Lab
end MobiusSearcher
