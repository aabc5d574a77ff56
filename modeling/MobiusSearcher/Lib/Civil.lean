/-
# Civil dates

The Gregorian calendar, carried back before its time: leap years, the lengths
of the months, the day after a date, and the days counted from the first of
March of the year 0. In years that begin in March the leap day comes last, so
the days before a month do not depend on the year; that is how dates are
counted and how a count is turned back into a date. A date is determined by
its count, and the day after it is counted one more.

Key definitions: `Civil.Date`, `Civil.Date.Valid`, `Civil.Date.next`,
`Civil.dayNumber`, `Civil.yearStart`, `Civil.ofMarch`.
Key theorems: `Civil.dayNumber_next`, `Civil.dayNumber_injective`,
`Civil.yearOfEra_spec`, `Civil.ofMarch_spec`.
-/
import Mathlib.Tactic

namespace Civil

@[ext]
structure Date where
  year : ℤ
  month : ℤ
  day : ℤ
deriving DecidableEq, Repr

/-! ### The calendar -/

def IsLeap (y : ℤ) : Prop := y % 4 = 0 ∧ (y % 100 ≠ 0 ∨ y % 400 = 0)

instance (y : ℤ) : Decidable (IsLeap y) := inferInstanceAs (Decidable (_ ∧ _))

/-- The days of a month of a year. -/
def daysIn (y m : ℤ) : ℤ :=
  if m = 2 then (if IsLeap y then 29 else 28) else if m = 4 ∨ m = 6 ∨ m = 9 ∨ m = 11 then 30 else 31

theorem daysIn_le (y m : ℤ) : daysIn y m ≤ 31 := by
  unfold daysIn
  split
  · split <;> decide
  · split <;> decide

namespace Date

/-- The date is one of the calendar's. -/
structure Valid (t : Date) : Prop where
  month_pos : 1 ≤ t.month
  month_le : t.month ≤ 12
  day_pos : 1 ≤ t.day
  day_le : t.day ≤ daysIn t.year t.month

/-- The day after. -/
def next (t : Date) : Date :=
  if t.day < daysIn t.year t.month then { t with day := t.day + 1 }
  else if t.month < 12 then { t with month := t.month + 1, day := 1 }
  else ⟨t.year + 1, 1, 1⟩

end Date

/-! ### Counting from March -/

/-- The days before the first of March of a year. -/
def yearStart (y : ℤ) : ℤ := 365 * y + y / 4 - y / 100 + y / 400

/-- The days before a month, counted from March, in its year. -/
def monthStart (m : ℤ) : ℤ := (153 * m + 2) / 5

/-- The year a date is in, when years begin in March. -/
def marchYear (t : Date) : ℤ := if t.month ≤ 2 then t.year - 1 else t.year

/-- The month of a date, counted from March. -/
def marchMonth (t : Date) : ℤ := if 2 < t.month then t.month - 3 else t.month + 9

/-- The days between the first of March of the year 0 and a date. -/
def dayNumber (t : Date) : ℤ := yearStart (marchYear t) + monthStart (marchMonth t) + t.day - 1

/-- A year that begins in March has the leap day of the next. -/
theorem yearStart_succ (y : ℤ) : yearStart (y + 1) = yearStart y + if IsLeap (y + 1) then 366 else 365 := by
  unfold yearStart
  by_cases h : IsLeap (y + 1)
  · rw [if_pos h]
    unfold IsLeap at h
    omega
  · rw [if_neg h]
    unfold IsLeap at h
    omega

theorem yearStart_le {y y' : ℤ} (h : y < y') : yearStart (y + 1) ≤ yearStart y' := by
  unfold yearStart
  omega

/-- The days of a month other than February: those before the next less those before it. -/
theorem monthStart_succ {y m : ℤ} (h1 : 1 ≤ m) (h12 : m ≤ 12) (h2 : m ≠ 2) :
    daysIn y m = monthStart ((if 2 < m then m - 3 else m + 9) + 1) - monthStart (if 2 < m then m - 3 else m + 9) := by
  interval_cases m <;> first | exact absurd rfl h2 | rfl

/-- The days of a date's month lie before the next month, or are the last of the year. -/
theorem Date.Valid.day_le_month {t : Date} (h : t.Valid) (h2 : t.month ≠ 2) :
    monthStart (marchMonth t) + t.day ≤ monthStart (marchMonth t + 1) ∧ marchMonth t ≤ 10 := by
  have hd := h.day_le
  rw [monthStart_succ h.month_pos h.month_le h2] at hd
  have := h.month_pos
  have := h.month_le
  refine ⟨by rw [marchMonth]; omega, ?_⟩
  unfold marchMonth
  split <;> omega

/-- The day of a date in its year from March is one of that year. -/
theorem Date.Valid.day_lt {t : Date} (h : t.Valid) :
    0 ≤ monthStart (marchMonth t) + t.day - 1 ∧
      yearStart (marchYear t) + (monthStart (marchMonth t) + t.day - 1) < yearStart (marchYear t + 1) := by
  have hday := h.day_pos
  have hmonth := h.month_pos
  rw [yearStart_succ]
  by_cases h2 : t.month = 2
  · have hd := h.day_le
    rw [daysIn, if_pos h2] at hd
    have hyear : marchYear t + 1 = t.year := by rw [marchYear, if_pos (by omega)]; ring
    have hstart : monthStart (marchMonth t) = 337 := by rw [marchMonth, if_neg (by omega), h2]; rfl
    rw [hyear, hstart]
    split at hd <;> simp_all <;> omega
  · obtain ⟨hle, hlast⟩ := h.day_le_month h2
    have hstart : 0 ≤ monthStart (marchMonth t) ∧ monthStart (marchMonth t + 1) ≤ 337 := by
      have : 0 ≤ marchMonth t := by
        unfold marchMonth
        split <;> omega
      unfold monthStart
      omega
    split <;> omega

/-- The day after the last of a month other than February is the first of the next in the same year from March. -/
theorem Date.Valid.next_month {t : Date} (h : t.Valid) (h2 : t.month ≠ 2) (hlast : ¬ t.day < daysIn t.year t.month) :
    marchYear t.next = marchYear t ∧ marchMonth t.next = marchMonth t + 1 ∧ t.next.day = 1 := by
  have := h.month_pos
  have := h.month_le
  rw [Date.next, if_neg hlast]
  split
  · refine ⟨?_, ?_, rfl⟩
    · unfold marchYear
      dsimp only
      split <;> split <;> omega
    · unfold marchMonth
      dsimp only
      split <;> split <;> omega
  · refine ⟨?_, ?_, rfl⟩
    · unfold marchYear
      dsimp only
      split <;> split <;> omega
    · unfold marchMonth
      dsimp only
      split <;> split <;> omega

/-- The day after a date is a date. -/
theorem Date.Valid.next {t : Date} (h : t.Valid) : t.next.Valid := by
  have hone : ∀ y m : ℤ, 1 ≤ daysIn y m := fun y m => by
    unfold daysIn
    split
    · split <;> decide
    · split <;> decide
  unfold Date.next
  split
  · exact ⟨h.month_pos, h.month_le, le_add_of_le_of_nonneg h.day_pos one_pos.le, by assumption⟩
  · split
    · exact ⟨le_add_of_le_of_nonneg h.month_pos one_pos.le, by assumption, le_rfl, hone _ _⟩
    · exact ⟨le_rfl, show (1 : ℤ) ≤ 12 by decide, le_rfl, hone _ _⟩

/-- **The day after is counted one more.** -/
theorem dayNumber_next {t : Date} (h : t.Valid) : dayNumber t.next = dayNumber t + 1 := by
  by_cases hlast : t.day < daysIn t.year t.month
  · rw [Date.next, if_pos hlast]
    unfold dayNumber marchYear marchMonth
    dsimp only
    omega
  · have hday : t.day = daysIn t.year t.month := le_antisymm h.day_le (not_lt.mp hlast)
    by_cases h2 : t.month = 2
    · -- the year from March ends with February
      have hyear : marchYear t + 1 = t.year := by rw [marchYear, if_pos (by omega)]; ring
      have hstart : monthStart (marchMonth t) = 337 := by rw [marchMonth, if_neg (by omega), h2]; rfl
      have hnext : t.next = ⟨t.year, 3, 1⟩ := by rw [Date.next, if_neg hlast, if_pos (by omega), h2]; rfl
      have hmarch : dayNumber ⟨t.year, 3, 1⟩ = yearStart (marchYear t + 1) := by
        rw [hyear]
        simp [dayNumber, marchYear, marchMonth, monthStart]
      rw [hnext, hmarch, yearStart_succ, dayNumber, hstart, hday, daysIn, if_pos h2, hyear]
      split <;> omega
    · obtain ⟨hyear, hmonth, hone⟩ := h.next_month h2 hlast
      have hlen := monthStart_succ (y := t.year) h.month_pos h.month_le h2
      rw [dayNumber, dayNumber, hyear, hmonth, hone, hday, hlen]
      unfold marchMonth
      omega

/-- **A date is determined by its count.** -/
theorem dayNumber_injective {s t : Date} (hs : s.Valid) (ht : t.Valid) (h : dayNumber s = dayNumber t) : s = t := by
  obtain ⟨hs0, hs1⟩ := hs.day_lt
  obtain ⟨ht0, ht1⟩ := ht.day_lt
  unfold dayNumber at h
  have hyear : marchYear s = marchYear t := by
    rcases lt_trichotomy (marchYear s) (marchYear t) with hlt | heq | hlt
    · have := yearStart_le hlt
      omega
    · exact heq
    · have := yearStart_le hlt
      omega
  rw [hyear] at h
  have hafter : ∀ {s t : Date}, s.Valid → t.Valid → marchMonth s < marchMonth t →
      monthStart (marchMonth s) + s.day < monthStart (marchMonth t) + t.day := fun {s t} hs ht hlt => by
    have hday := ht.day_pos
    have h2 : s.month ≠ 2 := fun h2 => by
      have := ht.month_pos
      have := ht.month_le
      unfold marchMonth at hlt
      rw [h2] at hlt
      split at hlt <;> split at hlt <;> omega
    have hle := (hs.day_le_month h2).1
    have hmono : monthStart (marchMonth s + 1) ≤ monthStart (marchMonth t) := by
      unfold monthStart
      omega
    omega
  have hmonth : marchMonth s = marchMonth t := by
    rcases lt_trichotomy (marchMonth s) (marchMonth t) with hlt | heq | hlt
    · have := hafter hs ht hlt
      omega
    · exact heq
    · have := hafter ht hs hlt
      omega
  have hday : s.day = t.day := by
    rw [hmonth] at h
    omega
  have := hs.month_pos
  have := hs.month_le
  have := ht.month_pos
  have := ht.month_le
  have hm : s.month = t.month := by
    unfold marchMonth at hmonth
    split at hmonth <;> split at hmonth <;> omega
  refine Date.ext ?_ hm hday
  unfold marchYear at hyear
  rw [hm] at hyear
  split at hyear <;> omega

/-! ### From a count to a date -/

/-- The year from March of a day of an era, the 400 years after which the calendar repeats. -/
def yearOfEra (doe : ℤ) : ℤ := (doe - doe / 1460 + doe / 36524 - doe / 146096) / 365

theorem yearStart_era (y era : ℤ) : yearStart (y + era * 400) = yearStart y + era * 146097 := by
  unfold yearStart
  omega

theorem yearOfEra_mono {x y : ℕ} (h : x ≤ y) : yearOfEra x ≤ yearOfEra y := by
  refine monotone_nat_of_le_succ (f := fun n : ℕ => yearOfEra n) (fun n => ?_) h
  unfold yearOfEra
  push_cast
  omega

/-- The first and the last day of each year of an era are days of that year. -/
theorem yearOfEra_bounds :
    ∀ y < 400, yearOfEra (yearStart (y : ℕ)) = y ∧ yearOfEra (yearStart ((y : ℕ) + 1) - 1) = y := by
  decide +kernel

/-- Every day is one of some year. -/
theorem exists_year (n : ℕ) {doe : ℤ} (h0 : 0 ≤ doe) (h : doe < yearStart n) :
    ∃ y < n, yearStart (y : ℕ) ≤ doe ∧ doe < yearStart ((y : ℕ) + 1) := by
  induction n with
  | zero =>
    unfold yearStart at h
    omega
  | succ n ih =>
    by_cases hn : doe < yearStart n
    · obtain ⟨y, hy, hle, hlt⟩ := ih hn
      exact ⟨y, by omega, hle, hlt⟩
    · exact ⟨n, by omega, not_lt.mp hn, by exact_mod_cast h⟩

/-- **The year of a day is the one it lies in.** -/
theorem yearOfEra_spec {doe : ℤ} (h0 : 0 ≤ doe) (h : doe < 146097) :
    (0 ≤ yearOfEra doe ∧ yearOfEra doe < 400) ∧
      yearStart (yearOfEra doe) ≤ doe ∧ doe < yearStart (yearOfEra doe + 1) := by
  obtain ⟨y, hy, hle, hlt⟩ := exists_year 400 h0 (by simpa [yearStart] using h)
  obtain ⟨hfirst, hlast⟩ := yearOfEra_bounds y hy
  have hpos : 0 ≤ yearStart y := by
    unfold yearStart
    omega
  have hlow := yearOfEra_mono (x := (yearStart y).toNat) (y := doe.toNat) (by omega)
  have hhigh := yearOfEra_mono (x := doe.toNat) (y := (yearStart ((y : ℕ) + 1) - 1).toNat) (by omega)
  rw [Int.toNat_of_nonneg hpos, Int.toNat_of_nonneg h0, hfirst] at hlow
  rw [Int.toNat_of_nonneg h0, Int.toNat_of_nonneg (by omega), hlast] at hhigh
  have heq : yearOfEra doe = y := le_antisymm hhigh hlow
  rw [heq]
  exact ⟨by omega, hle, hlt⟩

/-- The month of a day of a year from March. -/
theorem month_spec {doy : ℤ} (h0 : 0 ≤ doy) (h : doy < 366) :
    (0 ≤ (5 * doy + 2) / 153 ∧ (5 * doy + 2) / 153 ≤ 11) ∧
      monthStart ((5 * doy + 2) / 153) ≤ doy ∧ doy < monthStart ((5 * doy + 2) / 153 + 1) := by
  unfold monthStart
  omega

/-- The month that has so many months before it since March. -/
def monthOf (mp : ℤ) : ℤ := if mp < 10 then mp + 3 else mp - 9

/-- The date of a month and a day, in a year from March. -/
def ofMarch (y mp day : ℤ) : Date := ⟨y + (if monthOf mp ≤ 2 then 1 else 0), monthOf mp, day⟩

theorem monthOf_bounds {mp : ℤ} (h0 : 0 ≤ mp) (h11 : mp ≤ 11) : 1 ≤ monthOf mp ∧ monthOf mp ≤ 12 := by
  unfold monthOf
  split <;> omega

theorem marchMonth_ofMarch (y day : ℤ) {mp : ℤ} (h0 : 0 ≤ mp) (h11 : mp ≤ 11) : marchMonth (ofMarch y mp day) = mp := by
  unfold marchMonth ofMarch monthOf
  dsimp only
  split <;> split <;> omega

theorem marchYear_ofMarch (y mp day : ℤ) : marchYear (ofMarch y mp day) = y := by
  unfold marchYear ofMarch
  dsimp only
  split <;> omega

/-- February is the last month of the year from March, and lies in the next year. -/
theorem ofMarch_february (y day : ℤ) {mp : ℤ} (h11 : mp ≤ 11) (h0 : 0 ≤ mp) (hfeb : monthOf mp = 2) :
    mp = 11 ∧ (ofMarch y mp day).year = y + 1 := by
  refine ⟨?_, by rw [ofMarch, hfeb]; rfl⟩
  unfold monthOf at hfeb
  split at hfeb <;> omega

/-- **A day of a year from March has a date**, and the date has its count. -/
theorem ofMarch_spec {y doy : ℤ} (h0 : 0 ≤ doy) (h : yearStart y + doy < yearStart (y + 1)) :
    (ofMarch y ((5 * doy + 2) / 153) (doy - monthStart ((5 * doy + 2) / 153) + 1)).Valid ∧
      dayNumber (ofMarch y ((5 * doy + 2) / 153) (doy - monthStart ((5 * doy + 2) / 153) + 1)) = yearStart y + doy := by
  have hlen := yearStart_succ y
  have hlt : doy < 366 := by split at hlen <;> omega
  obtain ⟨⟨hm0, hm11⟩, hle, hgt⟩ := month_spec h0 hlt
  generalize (5 * doy + 2) / 153 = mp at *
  have hmonth := marchMonth_ofMarch y (doy - monthStart mp + 1) hm0 hm11
  obtain ⟨hpos, h12⟩ := monthOf_bounds hm0 hm11
  constructor
  · refine ⟨hpos, h12, show 1 ≤ doy - monthStart mp + 1 by omega, ?_⟩
    show doy - monthStart mp + 1 ≤ daysIn (ofMarch y mp (doy - monthStart mp + 1)).year (monthOf mp)
    by_cases hfeb : monthOf mp = 2
    · -- the last month of the year from March is as long as the year leaves it
      obtain ⟨rfl, hyear⟩ := ofMarch_february y (doy - monthStart mp + 1) hm11 hm0 hfeb
      have hstart : monthStart 11 = 337 := rfl
      rw [daysIn, if_pos hfeb, hyear]
      by_cases hleap : IsLeap (y + 1)
      · rw [if_pos hleap] at hlen ⊢
        omega
      · rw [if_neg hleap] at hlen ⊢
        omega
    · have hdays := monthStart_succ (y := (ofMarch y mp (doy - monthStart mp + 1)).year) hpos h12 hfeb
      have hback : (if 2 < monthOf mp then monthOf mp - 3 else monthOf mp + 9) = mp := hmonth
      rw [hback] at hdays
      omega
  · rw [dayNumber, marchYear_ofMarch, hmonth]
    show _ + _ + (doy - monthStart mp + 1) - 1 = _
    ring

end Civil
