/-
The proleptic Gregorian calendar.

A year has 365 days, and a 29th of February when 4 divides it, but not
when 100 does and 400 does not. Years are integers, the year 0 is the one
before the year 1, and the rule holds for all of them. Days are numbered
from 1 January 1970, months of all years from January of the year 0, and
the months of one year from 0.

`yearStart` is the number of the first day of a year; its successor law
(`yearStart_succ`) and `yearStart_epoch` are all that there is to it. A
`Date` is a day of a month of a year; its day is one that the month has.
Every day has exactly one date (`Date.ext_dayNumber`, `exists_date`).
-/
import Compass.Lib.Grid
import Mathlib.Tactic.IntervalCases

namespace Gregorian

open List Int

-- ======== years

/-- The year has a 29th of February. -/
def IsLeap (y : ℤ) : Prop := y % 4 = 0 ∧ (y % 100 ≠ 0 ∨ y % 400 = 0)

instance (y : ℤ) : Decidable (IsLeap y) := inferInstanceAs (Decidable (_ ∧ _))

def leapDay (y : ℤ) : ℤ := if IsLeap y then 1 else 0

def yearLength (y : ℤ) : ℤ := 365 + leapDay y

/-- The number of 1 January. -/
def yearStart (y : ℤ) : ℤ :=
  365 * (y - 1970) + ((y - 1) / 4 - (y - 1) / 100 + (y - 1) / 400 - 477)

theorem leapDay_bounds (y : ℤ) : 0 ≤ leapDay y ∧ leapDay y ≤ 1 := by
  unfold leapDay
  split <;> omega

theorem leapDay_of_leap {y : ℤ} (h : IsLeap y) : leapDay y = 1 := if_pos h

theorem leapDay_of_not_leap {y : ℤ} (h : ¬ IsLeap y) : leapDay y = 0 := if_neg h

theorem yearStart_epoch : yearStart 1970 = 0 := by decide

theorem yearStart_succ (y : ℤ) : yearStart (y + 1) = yearStart y + yearLength y := by
  unfold yearStart yearLength
  by_cases h : IsLeap y
  · rw [leapDay_of_leap h]
    unfold IsLeap at h
    omega
  · rw [leapDay_of_not_leap h]
    unfold IsLeap at h
    omega

theorem yearStart_strictMono : StrictMono yearStart := by
  refine strictMono_int_of_lt_succ fun y => ?_
  have hleap := leapDay_bounds y
  rw [yearStart_succ]
  unfold yearLength
  omega

-- ======== months

/-- The days of a month, January being 0. -/
def monthLength (y m : ℤ) : ℤ :=
  if m = 1 then 28 + leapDay y
  else if m = 3 ∨ m = 5 ∨ m = 8 ∨ m = 10 then 30
  else 31

/-- The days of the year before a month. -/
def monthOffset (y m : ℤ) : ℤ :=
  ((List.range m.toNat).map fun i : ℕ => monthLength y i).sum

theorem monthLength_bounds (y m : ℤ) : 28 ≤ monthLength y m ∧ monthLength y m ≤ 31 := by
  have hleap := leapDay_bounds y
  unfold monthLength
  split
  · omega
  · split <;> omega

theorem monthOffset_zero (y : ℤ) : monthOffset y 0 = 0 := rfl

theorem monthOffset_succ {y m : ℤ} (hm : 0 ≤ m) :
    monthOffset y (m + 1) = monthOffset y m + monthLength y m := by
  obtain ⟨n, rfl⟩ := eq_ofNat_of_zero_le hm
  unfold monthOffset
  have hsucc : ((n : ℤ) + 1).toNat = n + 1 := by omega
  rw [hsucc, toNat_natCast, range_succ, map_append, sum_append]
  simp

/-- The days before a month, as a table. -/
theorem monthOffset_eq {y m : ℤ} (hm : 0 ≤ m) (hlt : m < 12) :
    monthOffset y m = (if 2 ≤ m then leapDay y else 0)
      + if m = 0 then 0 else if m = 1 then 31 else if m = 2 then 59 else if m = 3 then 90
        else if m = 4 then 120 else if m = 5 then 151 else if m = 6 then 181
        else if m = 7 then 212 else if m = 8 then 243 else if m = 9 then 273
        else if m = 10 then 304 else 334 := by
  interval_cases m <;> simp [monthOffset, range_succ, monthLength] <;> omega

theorem monthOffset_twelve (y : ℤ) : monthOffset y 12 = yearLength y := by
  have hsucc := monthOffset_succ (y := y) (m := 11) (by omega)
  have hoffset := monthOffset_eq (y := y) (m := 11) (by omega) (by omega)
  simp only [monthLength] at hsucc
  unfold yearLength
  norm_num at hsucc hoffset
  omega

/-- The number of the first day of a month of all years. -/
def monthStart (k : ℤ) : ℤ := yearStart (k / 12) + monthOffset (k / 12) (k % 12)

theorem monthStart_month {y m : ℤ} (hm : 0 ≤ m) (hlt : m < 12) :
    monthStart (12 * y + m) = yearStart y + monthOffset y m := by
  have hdiv : (12 * y + m) / 12 = y := by omega
  have hmod : (12 * y + m) % 12 = m := by omega
  unfold monthStart
  rw [hdiv, hmod]

theorem monthStart_year (y : ℤ) : monthStart (12 * y) = yearStart y := by
  have h := monthStart_month (y := y) (m := 0) (by omega) (by omega)
  rwa [add_zero, monthOffset_zero, add_zero] at h

theorem monthStart_succ (k : ℤ) :
    monthStart (k + 1) = monthStart k + monthLength (k / 12) (k % 12) := by
  obtain ⟨y, m, rfl, hm, hlt⟩ : ∃ y m, k = 12 * y + m ∧ 0 ≤ m ∧ m < 12 :=
    ⟨k / 12, k % 12, by omega, by omega, by omega⟩
  have hdiv : (12 * y + m) / 12 = y := by omega
  have hmod : (12 * y + m) % 12 = m := by omega
  have hsucc := monthOffset_succ (y := y) hm
  rw [monthStart_month hm hlt, hdiv, hmod]
  by_cases hlast : m = 11
  · subst hlast
    have hnext : 12 * y + 11 + 1 = 12 * (y + 1) := by omega
    have hyear : monthOffset y (11 + 1) = yearLength y := monthOffset_twelve y
    rw [hnext, monthStart_year, yearStart_succ]
    omega
  · rw [add_assoc, monthStart_month (by omega) (by omega)]
    omega

theorem monthStart_strictMono : StrictMono monthStart := by
  refine strictMono_int_of_lt_succ fun k => ?_
  have hlen := monthLength_bounds (k / 12) (k % 12)
  rw [monthStart_succ]
  omega

-- ======== days

/-- The day of the week, Sunday being 0: 1 January 1970 was a Thursday. -/
def weekday (n : ℤ) : ℤ := (n + 4) % 7

-- ======== dates

/-- A day of the calendar, its month counted from 0 and its day from 1. -/
structure Date where
  year : ℤ
  month : ℤ
  day : ℤ
  month_nonneg : 0 ≤ month
  month_lt : month < 12
  day_pos : 1 ≤ day
  day_le : day ≤ monthLength year month
deriving DecidableEq

namespace Date

/-- The month, counted over all years. -/
def monthNumber (d : Date) : ℤ := 12 * d.year + d.month

/-- The days of the year before the date. -/
def dayOfYear (d : Date) : ℤ := monthOffset d.year d.month + d.day - 1

def dayNumber (d : Date) : ℤ := yearStart d.year + d.dayOfYear

section

variable (d : Date)

theorem monthNumber_div : d.monthNumber / 12 = d.year := by
  have h := d.month_nonneg
  have h' := d.month_lt
  unfold monthNumber
  omega

theorem monthNumber_mod : d.monthNumber % 12 = d.month := by
  have h := d.month_nonneg
  have h' := d.month_lt
  unfold monthNumber
  omega

theorem dayNumber_eq : d.dayNumber = monthStart d.monthNumber + (d.day - 1) := by
  unfold dayNumber dayOfYear monthNumber
  rw [monthStart_month d.month_nonneg d.month_lt]
  omega

/-- The day is in its month. -/
theorem dayNumber_mem_month :
    monthStart d.monthNumber ≤ d.dayNumber ∧ d.dayNumber < monthStart (d.monthNumber + 1) := by
  have hpos := d.day_pos
  have hle := d.day_le
  rw [monthStart_succ, monthNumber_div, monthNumber_mod, dayNumber_eq]
  omega

theorem dayOfYear_range : 0 ≤ d.dayOfYear ∧ d.dayOfYear < yearLength d.year := by
  have hpos := d.day_pos
  have hle := d.day_le
  have hlt := d.month_lt
  have hoffset := monthOffset_eq (y := d.year) d.month_nonneg d.month_lt
  have hleap := leapDay_bounds d.year
  have hm := d.month_nonneg
  unfold monthLength at hle
  unfold dayOfYear yearLength
  rw [hoffset]
  generalize d.month = m at *
  interval_cases m <;> norm_num at hle ⊢ <;> omega

end

/-- The year is known from its first day and the next one's. -/
theorem year_eq {d : Date} {y : ℤ} (hle : yearStart y ≤ d.dayNumber)
    (hlt : d.dayNumber < yearStart (y + 1)) : d.year = y := by
  obtain ⟨hnonneg, hlength⟩ := d.dayOfYear_range
  have hsucc := yearStart_succ d.year
  unfold dayNumber at hle hlt
  have h1 : d.year < y + 1 := yearStart_strictMono.lt_iff_lt.mp (by omega)
  have h2 : y < d.year + 1 := yearStart_strictMono.lt_iff_lt.mp (by omega)
  omega

/-- The month is known from its first day and the next one's. -/
theorem monthNumber_eq {d : Date} {k : ℤ} (hle : monthStart k ≤ d.dayNumber)
    (hlt : d.dayNumber < monthStart (k + 1)) : d.monthNumber = k := by
  obtain ⟨hd, hd'⟩ := d.dayNumber_mem_month
  have h1 : d.monthNumber < k + 1 := monthStart_strictMono.lt_iff_lt.mp (by omega)
  have h2 : k < d.monthNumber + 1 := monthStart_strictMono.lt_iff_lt.mp (by omega)
  omega

/-- A day has no more than one date. -/
theorem ext_dayNumber {d e : Date} (h : d.dayNumber = e.dayNumber) : d = e := by
  obtain ⟨he, he'⟩ := e.dayNumber_mem_month
  have hmonths : d.monthNumber = e.monthNumber := monthNumber_eq (h ▸ he) (h ▸ he')
  have hyear : d.year = e.year := by rw [← d.monthNumber_div, hmonths, e.monthNumber_div]
  have hmonth : d.month = e.month := by rw [← d.monthNumber_mod, hmonths, e.monthNumber_mod]
  have hday : d.day = e.day := by
    have hd := d.dayNumber_eq
    have he := e.dayNumber_eq
    rw [hmonths] at hd
    omega
  cases d
  cases e
  subst hyear hmonth hday
  rfl

end Date

/-- Every day has a date. -/
theorem exists_date (n : ℤ) : ∃ d : Date, d.dayNumber = n := by
  obtain ⟨k, hle, hlt⟩ := Grid.exists_cell monthStart_strictMono n
  rw [monthStart_succ] at hlt
  refine ⟨⟨k / 12, k % 12, n - monthStart k + 1, by omega, by omega, by omega, by omega⟩, ?_⟩
  rw [Date.dayNumber_eq]
  show monthStart (12 * (k / 12) + k % 12) + (n - monthStart k + 1 - 1) = n
  rw [mul_ediv_add_emod]
  omega

-- ======== later months

/-- The same day of a later month, or its last one. -/
def Date.addMonths (d : Date) (n : ℤ) : Date where
  year := (d.monthNumber + n) / 12
  month := (d.monthNumber + n) % 12
  day := min d.day (monthLength ((d.monthNumber + n) / 12) ((d.monthNumber + n) % 12))
  month_nonneg := Int.emod_nonneg _ (by omega)
  month_lt := Int.emod_lt_of_pos _ (by omega)
  day_pos := le_min d.day_pos (by
    have hlength := monthLength_bounds ((d.monthNumber + n) / 12) ((d.monthNumber + n) % 12)
    omega)
  day_le := min_le_right _ _

theorem Date.monthNumber_addMonths (d : Date) (n : ℤ) :
    (d.addMonths n).monthNumber = d.monthNumber + n := mul_ediv_add_emod _ _

theorem Date.dayNumber_addMonths (d : Date) (n : ℤ) :
    (d.addMonths n).dayNumber = monthStart (d.monthNumber + n) - 1
      + min d.day (monthLength ((d.monthNumber + n) / 12) ((d.monthNumber + n) % 12)) := by
  rw [dayNumber_eq, monthNumber_addMonths]
  show _ + (min d.day _ - 1) = _
  omega

/-- The centuries up to a year whose February has 28 days. -/
def commonCenturies (y : ℤ) : ℤ := y / 100 - y / 400

theorem commonCenturies_mono : Monotone commonCenturies := by
  intro y z h
  unfold commonCenturies
  omega

/-- The start of a month by the Februaries before it. -/
theorem monthStart_eq (k : ℤ) :
    monthStart k = 365 * (k / 12) + monthOffset 1 (k % 12)
      + ((k - 2) / 12 / 4 - commonCenturies ((k - 2) / 12)) - 719527 := by
  obtain ⟨y, m, rfl, hm, hlt⟩ : ∃ y m, k = 12 * y + m ∧ 0 ≤ m ∧ m < 12 :=
    ⟨k / 12, k % 12, by omega, by omega, by omega⟩
  have hdiv : (12 * y + m) / 12 = y := by omega
  have hmod : (12 * y + m) % 12 = m := by omega
  have hleap : leapDay y = y / 4 - y / 100 + y / 400
      - ((y - 1) / 4 - (y - 1) / 100 + (y - 1) / 400) := by
    have hsucc := yearStart_succ y
    unfold yearStart yearLength at hsucc
    rw [Int.add_sub_cancel] at hsucc
    omega
  have hcommon : leapDay 1 = 0 := by decide
  rw [monthStart_month hm hlt, hdiv, hmod, monthOffset_eq hm hlt, monthOffset_eq hm hlt, hcommon]
  unfold yearStart commonCenturies
  by_cases hmarch : 2 ≤ m
  · have hyear : (12 * y + m - 2) / 12 = y := by omega
    rw [if_pos hmarch, if_pos hmarch, hyear]
    omega
  · have hyear : (12 * y + m - 2) / 12 = y - 1 := by omega
    rw [if_neg hmarch, if_neg hmarch, hyear]
    omega

/-- Four years have 1461 days, but for the common centuries among them. -/
theorem monthStart_add_four_years (k q : ℤ) :
    monthStart (k + 48 * q) = monthStart k + 1461 * q
      - (commonCenturies ((k + 48 * q - 2) / 12) - commonCenturies ((k - 2) / 12)) := by
  have hdiv : (k + 48 * q) / 12 = k / 12 + 4 * q := by omega
  have hmod : (k + 48 * q) % 12 = k % 12 := by omega
  have hfour : (k + 48 * q - 2) / 12 / 4 = (k - 2) / 12 / 4 + q := by omega
  rw [monthStart_eq, monthStart_eq k, hdiv, hmod, hfour]
  omega

-- ======== grids

/-- The months, as a grid of days. -/
noncomputable def months : Grid ℤ := Grid.ofStrictMono monthStart monthStart_strictMono

theorem months_point (k : ℤ) : months.point k = monthStart k := rfl

theorem Date.index_months (d : Date) : months.index d.dayNumber = d.monthNumber :=
  months.index_eq d.dayNumber_mem_month.1 d.dayNumber_mem_month.2

end Gregorian
