/-
# Days as text

`ymd` and `date` of `apps/mobius-searcher/src/lab/stats.rs`, the UTC day of a
time in ms and how it is written, and what `Model::unseen_from` of
`lab/model.rs` reads of the day its training data ends. The day is the civil
date of the time, so that a day later is the next day of the calendar; and
reading the text of a day gives the start of that day.

A time is an `i64`. From one that is not negative no step of either function
leaves its type: a count of days and a year are far smaller.

Key definitions: `ymd`, `date`, `readDay`.
Key theorems: `civilDay_spec`, `civilDay_next`, `readDay_date`, `dates_round_trip`.
-/
import MobiusSearcher.Lab.Model
import MobiusSearcher.Core.Decimal
import MobiusSearcher.Lib.Civil

namespace MobiusSearcher
namespace Lab

open Text Civil

/-! ### Writing -/

/-- Year, month, day (UTC) of a time in ms. -/
def ymd (ms : ℤ) : ℤ × ℕ × ℕ :=
  -- days since 1970-01-01 to a civil date; from here on nothing that is divided is negative
  let z := ms / 86400000 + 719468
  let era := z / 146097
  let doe := z % 146097
  let yoe := (doe - doe / 1460 + doe / 36524 - doe / 146096) / 365
  let doy := doe - (365 * yoe + yoe / 4 - yoe / 100)
  let mp := (5 * doy + 2) / 153
  let d := (doy - (153 * mp + 2) / 5 + 1).toNat
  let m := (if mp < 10 then mp + 3 else mp - 9).toNat
  (yoe + era * 400 + (if m ≤ 2 then 1 else 0), m, d)

/-- `{}` of a signed integer. -/
def displayInt (i : ℤ) : List Char :=
  if i < 0 then '-' :: Nat.toDigits 10 i.natAbs else Nat.toDigits 10 i.natAbs

def date (ms : ℤ) : List Char :=
  displayInt (ymd ms).1 ++ '-' :: (padded 2 (ymd ms).2.1 ++ '-' :: padded 2 (ymd ms).2.2)

/-! ### Reading -/

/-- The year, the month and the day of a text, as `unseen_from` reads them. -/
def readDay (trainedTo : List Char) : ℤ × ℤ × ℤ :=
  let p := (trainedTo.splitOn '-').map fun x => (parseI64 x).getD 0
  (p.getD 0 0, p.getD 1 1, p.getD 2 1)

/-! ### The day is the calendar's -/

/-- The day of a time, as a date of the calendar. -/
def civilDay (ms : ℤ) : Civil.Date := ⟨(ymd ms).1, (ymd ms).2.1, (ymd ms).2.2⟩

/-- The days of an era before one of its years. -/
theorem yearStart_yoe {yoe : ℤ} (h0 : 0 ≤ yoe) (h400 : yoe < 400) :
    365 * yoe + yoe / 4 - yoe / 100 = yearStart yoe := by
  unfold yearStart
  omega

/-- The casts to unsigned numbers lose nothing: the day is made from a year, a month and a day in it. -/
theorem civilDay_eq (ms : ℤ) :
    ∃ y doy : ℤ, civilDay ms = ofMarch y ((5 * doy + 2) / 153) (doy - monthStart ((5 * doy + 2) / 153) + 1) ∧
      0 ≤ doy ∧ yearStart y + doy < yearStart (y + 1) ∧ yearStart y + doy = ms / 86400000 + 719468 := by
  have hera := Int.emod_add_mul_ediv (ms / 86400000 + 719468) 146097
  obtain ⟨⟨h0, h400⟩, hle, hlt⟩ := @yearOfEra_spec ((ms / 86400000 + 719468) % 146097) (by omega) (by omega)
  set z := ms / 86400000 + 719468 with hz
  set era := z / 146097
  set doe := z % 146097
  set yoe := yearOfEra doe with hyoe
  have hstart := yearStart_era yoe era
  have hnext := yearStart_era (yoe + 1) era
  rw [add_right_comm] at hnext
  refine ⟨yoe + era * 400, doe - yearStart yoe, ?_, by omega, by omega, by omega⟩
  have hymd : ymd ms = (yoe + era * 400 + (if (monthOf ((5 * (doe - yearStart yoe) + 2) / 153)).toNat ≤ 2 then 1 else 0),
      (monthOf ((5 * (doe - yearStart yoe) + 2) / 153)).toNat,
      (doe - yearStart yoe - monthStart ((5 * (doe - yearStart yoe) + 2) / 153) + 1).toNat) := by
    rw [← yearStart_yoe h0 h400]
    rfl
  have hlen := yearStart_succ yoe
  obtain ⟨⟨hm0, hm11⟩, hfirst, -⟩ := @month_spec (doe - yearStart yoe) (by omega) (by split at hlen <;> omega)
  generalize (5 * (doe - yearStart yoe) + 2) / 153 = mp at *
  obtain ⟨hpos, h12⟩ := monthOf_bounds hm0 hm11
  have hmonth : ((monthOf mp).toNat : ℤ) = monthOf mp := Int.toNat_of_nonneg (by omega)
  have hday : ((doe - yearStart yoe - monthStart mp + 1).toNat : ℤ) = doe - yearStart yoe - monthStart mp + 1 :=
    Int.toNat_of_nonneg (by omega)
  have hturn : (monthOf mp).toNat ≤ 2 ↔ monthOf mp ≤ 2 := by omega
  unfold civilDay ofMarch
  rw [hymd]
  dsimp only
  rw [hmonth, hday]
  simp only [hturn]

/-- **A day is a date of the calendar**, and the one with its count. -/
theorem civilDay_spec (ms : ℤ) : (civilDay ms).Valid ∧ dayNumber (civilDay ms) = ms / 86400000 + 719468 := by
  obtain ⟨y, doy, heq, h0, hlt, hcount⟩ := civilDay_eq ms
  rw [heq, ← hcount]
  exact ofMarch_spec h0 hlt

/-- **A day later is the next day of the calendar**. -/
theorem civilDay_next (ms : ℤ) : civilDay (ms + 86400000) = (civilDay ms).next := by
  obtain ⟨hv, hcount⟩ := civilDay_spec ms
  obtain ⟨hv', hcount'⟩ := civilDay_spec (ms + 86400000)
  refine dayNumber_injective hv' hv.next ?_
  rw [dayNumber_next hv, hcount, hcount', Int.add_ediv_of_dvd_right (dvd_refl _)]
  ring

example : civilDay 0 = ⟨1970, 1, 1⟩ := by decide

/-- From 1970 on the year is not negative, and it is no larger than its type allows. -/
theorem year_bounds {ms : ℤ} (h0 : 0 ≤ ms) (h : ms < 2 ^ 63) : 0 ≤ (ymd ms).1 ∧ (ymd ms).1 < 2 ^ 63 := by
  obtain ⟨hv, hcount⟩ := civilDay_spec ms
  obtain ⟨hfirst, hlast⟩ := hv.day_lt
  have hturn : marchYear (civilDay ms) ≤ (ymd ms).1 ∧ (ymd ms).1 ≤ marchYear (civilDay ms) + 1 := by
    have hyear : (civilDay ms).year = (ymd ms).1 := rfl
    unfold marchYear
    split <;> omega
  unfold dayNumber at hcount
  unfold yearStart at hcount hlast
  omega

/-! ### What is written is read -/

/-- The digits of a number that fits are read as the number. -/
theorem parseI64_digits {w : List Char} (hne : w ≠ []) (hdigit : ∀ c ∈ w, c.isDigit = true) (hfit : number w < 2 ^ 63) :
    parseI64 w = some (number w : ℤ) := by
  have hread : parseDigits 1 w = some (number w : ℤ) := by
    unfold parseDigits
    have hbad : ¬(w.isEmpty || !w.all Char.isDigit) = true := by simp [hne, List.all_eq_true.mpr hdigit]
    rw [if_neg hbad, one_mul, if_pos (by omega)]
  cases w with
  | nil => exact absurd rfl hne
  | cons c w =>
    have hc := hdigit c (.head _)
    unfold parseI64
    split
    · simp_all [Char.isDigit]
    · simp_all [Char.isDigit]
    · exact hread

theorem minus_not_digit {w : List Char} (h : ∀ c ∈ w, c.isDigit = true) : '-' ∉ w := fun hm =>
  absurd (h _ hm) (by decide)

/-- **The day written for a time is read back**, year, month and day. -/
theorem readDay_date {ms : ℤ} (h0 : 0 ≤ ms) (h : ms < 2 ^ 63) :
    readDay (date ms) = ((civilDay ms).year, (civilDay ms).month, (civilDay ms).day) := by
  obtain ⟨hy0, hy⟩ := year_bounds h0 h
  obtain ⟨hv, -⟩ := civilDay_spec ms
  have hyear : ((ymd ms).1.natAbs : ℤ) = (ymd ms).1 := Int.natAbs_of_nonneg hy0
  have hmonth : ((ymd ms).2.1 : ℤ) ≤ 12 := hv.month_le
  have hday : ((ymd ms).2.2 : ℤ) ≤ 31 := hv.day_le.trans (daysIn_le _ _)
  have hy10 : ∀ c ∈ Nat.toDigits 10 (ymd ms).1.natAbs, c.isDigit = true := fun c hc =>
    Nat.isDigit_of_mem_toDigits (by decide) (by decide) hc
  have hsplit : (date ms).splitOn '-' =
      [Nat.toDigits 10 (ymd ms).1.natAbs, padded 2 (ymd ms).2.1, padded 2 (ymd ms).2.2] := by
    rw [date, displayInt, if_neg (not_lt.mpr hy0), List.splitOn_append_cons_self_of_not_mem (minus_not_digit hy10),
      List.splitOn_append_cons_self_of_not_mem (minus_not_digit (padded_digit _ _)),
      List.splitOn_eq_singleton (minus_not_digit (padded_digit _ _))]
  have hreadYear : parseI64 (Nat.toDigits 10 (ymd ms).1.natAbs) = some (ymd ms).1 := by
    rw [parseI64_digits Nat.toDigits_ne_nil hy10 (by rw [number_toDigits]; omega), number_toDigits, hyear]
  have hread : ∀ n : ℕ, n ≤ 31 → parseI64 (padded 2 n) = some (n : ℤ) := fun n hn => by
    rw [parseI64_digits (padded_ne_nil 2 n) (padded_digit 2 n) (by rw [number_padded]; omega), number_padded]
  rw [readDay, hsplit]
  simp only [List.map_cons, List.map_nil, hreadYear, hread _ (show (ymd ms).2.1 ≤ 31 by omega),
    hread _ (show (ymd ms).2.2 ≤ 31 by omega)]
  rfl

/-! ### From a date to the start of its day -/

/-- The day a model's data ends is counted as the calendar counts it. -/
theorem unseenFrom_eq {F : Type} (m : Trained F) {t : Civil.Date} (ht : t.Valid)
    (hday : m.trainedTo = (t.year, t.month, t.day)) (hbar : m.unseenFromMs = none) :
    m.unseenFrom = (dayNumber t - 719468) * 86400000 := by
  have hpos := ht.month_pos
  have hera := yearStart_era (marchYear t % 400) (marchYear t / 400)
  rw [mul_comm (marchYear t / 400), Int.emod_add_mul_ediv] at hera
  have hyoe := @yearStart_yoe (marchYear t % 400) (by omega) (by omega)
  have hmonth : (153 * (if 2 < t.month then t.month - 3 else t.month + 9) + 2).tdiv 5 = monthStart (marchMonth t) := by
    refine Int.tdiv_eq_ediv_of_nonneg ?_
    split <;> omega
  unfold Trained.unseenFrom
  rw [hbar, hday]
  dsimp only
  rw [hmonth, Int.tdiv_eq_ediv_of_nonneg (by omega), Int.tdiv_eq_ediv_of_nonneg (by omega)]
  change (marchYear t / 400 * 146097 + (marchYear t % 400 * 365 + marchYear t % 400 / 4 - marchYear t % 400 / 100 +
    (monthStart (marchMonth t) + t.day - 1)) - 719468) * 86400000 = _
  rw [dayNumber, hera, ← hyoe]
  ring

/-- **Civil dates round-trip**: a model whose data ends on the day written for a time
has seen nothing from the start of that day on. -/
theorem dates_round_trip {F : Type} (m : Trained F) {ms : ℤ} (h0 : 0 ≤ ms) (h : ms < 2 ^ 63)
    (hday : m.trainedTo = readDay (date ms)) (hbar : m.unseenFromMs = none) :
    m.unseenFrom = ms / 86400000 * 86400000 := by
  obtain ⟨hv, hcount⟩ := civilDay_spec ms
  rw [unseenFrom_eq m hv (hday.trans (readDay_date h0 h)) hbar, hcount]
  ring

/-- A leap day of a century, some hours in. -/
theorem dates_round_trip_leap :
    (⟨readDay (date 951826440000), none, 16, 1 / 2, .logit [] [] []⟩ : Trained ℚ).unseenFrom = 951782400000 :=
  @dates_round_trip ℚ _ 951826440000 (by decide) (by decide) rfl rfl

example : date 951826440000 = "2000-02-29".toList := by decide

end Lab
end MobiusSearcher
