/-
`gmtime_r_newlib` computes the Gregorian date.

The days are split by a 400-year period, and that by centuries, by four
years and by years, all from 1 March. `splitCycle_spec` bounds the parts,
and `marchStart_eq` says that the year they make up starts there. The
months from March on are found by a loop, whose invariant
(`findMonth_spec`) is that the days before the month and the days left
make up the day of the year. The date so found has the right number
(`marchDate`), and no other date has.
-/
import Compass.Calendar.ExtractFromTime

namespace Compass.Calendar

open Gregorian Int

-- ======== divisions

theorem tdiv_eq {t b : Int} : t.tdiv b = if 0 ≤ t then t / b else -(-t / b) := by
  split
  · next h => exact Int.tdiv_eq_ediv_of_nonneg h
  · next h =>
      rw [← Int.tdiv_eq_ediv_of_nonneg (by omega), Int.neg_tdiv, Int.neg_neg]

theorem tmod_eq {t b : Int} : t.tmod b = if 0 ≤ t then t % b else -(-t % b) := by
  split
  · next h => exact tmod_eq_emod_of_nonneg h
  · next h =>
      rw [← tmod_eq_emod_of_nonneg (by omega), neg_tmod, neg_neg]

theorem int32_of_fits {x : Int} (h : -2 ^ 31 ≤ x) (h' : x < 2 ^ 31) : int32 x = x := by
  unfold int32
  omega

/-- Wrapping once is as good as wrapping at every step. -/
theorem int32_add (x y : Int) : int32 (int32 x + y) = int32 (x + y) := by
  unfold int32
  omega

theorem splitDays_eq (timeval : Int) :
    splitDays timeval = (timeval / 86400 - 11017, timeval % 86400) := by
  unfold splitDays secsPerDay epochAdjustmentDays
  simp only [tdiv_eq, tmod_eq]
  split <;> split <;> simp only [Prod.mk.injEq] <;> omega

/-- The day of the week is that of the day number, Sunday being 0. -/
theorem extractDow_eq (timeval : Int) : extractDow timeval = (timeval / 86400 + 4) % 7 := by
  unfold extractDow weekdayOf adjustedEpochWday daysPerWeek
  rw [splitDays_eq]
  simp only [tmod_eq]
  split <;> split <;> omega

-- ======== 400-year period

theorem split400_eq (days : Int) : split400 days = (days / 146097, days % 146097) := by
  unfold split400 daysPer400Years
  dsimp only
  generalize hq : days.tdiv 146097 = q
  rw [tdiv_eq] at hq
  split at hq <;> split <;> simp only [Prod.mk.injEq] <;> omega

variable {c : CycleYear} {days : Int}

/-- The parts of a 400-year period that starts on 1 March. -/
structure CycleYear.Splits (c : CycleYear) (days : Int) : Prop where
  sum : days = 36524 * c.years100 + 1461 * c.years4 + 365 * c.remainingyears + c.days
  years100 : 0 ≤ c.years100 ∧ c.years100 ≤ 3
  years4 : 0 ≤ c.years4 ∧ c.years4 ≤ 24
  remainingyears : 0 ≤ c.remainingyears ∧ c.remainingyears ≤ 3
  days_nonneg : 0 ≤ c.days
  days_le : c.days ≤ 365
  -- a day 365 is a 29th of February, at the end of the year from March
  leap : c.days = 365 → c.remainingyears = 3 ∧ (c.years4 < 24 ∨ c.years100 = 3)

theorem splitCycle_spec (hnonneg : 0 ≤ days) (hlt : days < 146097) :
    (splitCycle days).Splits days := by
  unfold splitCycle daysPer100Years daysPer4Years daysPerYear
  dsimp only
  generalize hc : (if days.tdiv 36524 = 4 then days.tdiv 36524 - 1 else days.tdiv 36524) = c
  have hc' : 0 ≤ c ∧ c ≤ 3 ∧ 0 ≤ days - c * 36524 ∧ days - c * 36524 ≤ 36524
      ∧ (days - c * 36524 = 36524 → c = 3) := by
    rw [tdiv_eq_ediv_of_nonneg hnonneg] at hc
    split at hc <;> omega
  obtain ⟨hc0, hc3, hrest, hrest', hcentury⟩ := hc'
  generalize hq : (days - c * 36524).tdiv 1461 = q
  rw [tdiv_eq_ediv_of_nonneg hrest] at hq
  have hyear : 0 ≤ days - c * 36524 - q * 1461 := by omega
  generalize hr : (if (days - c * 36524 - q * 1461).tdiv 365 = 4
    then (days - c * 36524 - q * 1461).tdiv 365 - 1
    else (days - c * 36524 - q * 1461).tdiv 365) = r
  rw [tdiv_eq_ediv_of_nonneg hyear] at hr
  have hr' : 0 ≤ r ∧ r ≤ 3 ∧ 0 ≤ days - c * 36524 - q * 1461 - r * 365
      ∧ days - c * 36524 - q * 1461 - r * 365 ≤ 365
      ∧ (days - c * 36524 - q * 1461 - r * 365 = 365 → r = 3) := by
    split at hr <;> omega
  obtain ⟨hr0, hr3, hday, hday', hleap⟩ := hr'
  exact
    { sum := by dsimp only; omega
      years100 := ⟨hc0, hc3⟩
      years4 := by dsimp only; omega
      remainingyears := ⟨hr0, hr3⟩
      days_nonneg := hday
      days_le := hday'
      leap := by
        intro h
        dsimp only at h ⊢
        exact ⟨hleap h, by omega⟩ }

/-- The year that the parts make up, from March. -/
def CycleYear.year (c : CycleYear) (years400 : Int) : Int :=
  2000 + years400 * 400 + c.years100 * 100 + c.years4 * 4 + c.remainingyears

/-- It is a leap year, in its part from January on, as the code says. -/
theorem leapDay_of_splits (h : c.Splits days) (years400 : Int) :
    leapDay (c.year years400)
      = if c.remainingyears = 0 ∧ (c.years4 ≠ 0 ∨ c.years100 = 0) then 1 else 0 := by
  obtain ⟨-, h100, h4, h1, -, -, -⟩ := h
  refine if_congr ?_ rfl rfl
  unfold IsLeap CycleYear.year
  omega

/-- The number of the 1 March of the year. -/
theorem marchStart_eq (h : c.Splits days) (years400 : Int) :
    yearStart (c.year years400) + 59 + leapDay (c.year years400)
      = 11017 + 146097 * years400 + 36524 * c.years100 + 1461 * c.years4
        + 365 * c.remainingyears := by
  rw [leapDay_of_splits h]
  obtain ⟨-, h100, h4, h1, -, -, -⟩ := h
  unfold yearStart CycleYear.year
  split <;> omega

/-- The year after it has a 29th of February if there is a day for it. -/
theorem leapDay_succ_of_splits (h : c.Splits days) (years400 : Int) (hday : c.days = 365) :
    leapDay (c.year years400 + 1) = 1 := by
  obtain ⟨h1, h4⟩ := h.leap hday
  obtain ⟨-, h100, h4', -, -, -, -⟩ := h
  refine leapDay_of_leap ?_
  unfold IsLeap CycleYear.year
  omega

-- ======== months

/-- The days from 1 March on, before a month. -/
def marchOffset (m : Int) : Int :=
  if m = 2 then 0 else if m = 3 then 31 else if m = 4 then 61 else if m = 5 then 92
  else if m = 6 then 122 else if m = 7 then 153 else if m = 8 then 184 else if m = 9 then 214
  else if m = 10 then 245 else if m = 11 then 275 else if m = 0 then 306 else 337

variable {m : Int}

theorem entry_monthLengths_leap {leapYear : Bool} (hm : 0 ≤ m) (hlt : m < 12) :
    entry (monthLengths leapYear) m
      = if m = 1 then (if leapYear then 29 else 28)
        else if m = 3 ∨ m = 5 ∨ m = 8 ∨ m = 10 then 30 else 31 := by
  interval_cases m <;> rfl

/-- The month lengths that the loop takes off. -/
theorem entry_monthLengths (hm : 0 ≤ m) (hlt : m < 12) : entry (monthLengths true) m
      = if m = 1 then 29 else if m = 3 ∨ m = 5 ∨ m = 8 ∨ m = 10 then 30 else 31 :=
  entry_monthLengths_leap hm hlt

/-- The next month, but for the end of February, starts where its month ends. -/
theorem marchOffset_next (hm : 0 ≤ m) (hlt : m < 12) (hfeb : m ≠ 1) :
    marchOffset (if monsPerYear ≤ m + 1 then 0 else m + 1)
      = marchOffset m + entry (monthLengths true) m := by
  interval_cases m
  all_goals first
    | exact absurd rfl hfeb
    | rfl

/-- The month found, and the days left. -/
structure MonthFound (days : Int) (found : Int × Int) : Prop where
  month_nonneg : 0 ≤ found.1
  month_lt : found.1 < 12
  days_nonneg : 0 ≤ found.2
  days_lt : found.2 < entry (monthLengths true) found.1
  sum : marchOffset found.1 + found.2 = days

/-- The days before the month and the days left are those of the year. -/
theorem findMonth_spec {rounds : Nat} {left : Int} (hdays : days ≤ 365) (hm : 0 ≤ m) (hlt : m < 12)
    (hleft : 0 ≤ left) (hrounds : left ≤ rounds) (hsum : marchOffset m + left = days) :
    MonthFound days (findMonth rounds m left) := by
  induction rounds generalizing m left with
  | zero =>
    rw [findMonth]
    refine ⟨hm, hlt, hleft, ?_, hsum⟩
    rw [entry_monthLengths hm hlt]
    split
    · omega
    · split <;> omega
  | succ rounds ih =>
    have hentry := entry_monthLengths hm hlt
    rw [findMonth]
    split
    · next hle =>
        -- There is no month after February.
        have hfeb : m ≠ 1 := by
          rintro rfl
          simp [marchOffset] at hsum hle
          omega
        have hnext := marchOffset_next hm hlt hfeb
        refine ih ?_ ?_ ?_ ?_ ?_
        · split <;> omega
        · unfold monsPerYear
          split <;> omega
        · omega
        · rw [hentry] at hle ⊢
          split at hle <;> omega
        · omega
    · next hgt => exact ⟨hm, hlt, hleft, not_le.mp hgt, hsum⟩

-- ======== the date

/-- A month from March on is in the year that the parts make up; January
and February are in the next one. -/
def yearOfMonth (year m : Int) : Int := if m < 2 then year + 1 else year

/-- The day of the year of the first of a month. -/
theorem monthOffset_march (year : Int) (hm : 0 ≤ m) (hlt : m < 12) :
    yearStart (yearOfMonth year m) + monthOffset (yearOfMonth year m) m
      = yearStart year + 59 + leapDay year + marchOffset m := by
  have hsucc := yearStart_succ year
  rw [monthOffset_eq hm hlt]
  unfold yearLength at hsucc
  unfold yearOfMonth
  interval_cases m <;> norm_num [marchOffset] <;> omega

/-- The loop's months have the lengths of the calendar's. -/
theorem entry_eq_monthLength (hm : 0 ≤ m) (hlt : m < 12) (hfeb : m ≠ 1) (y : Int) :
    entry (monthLengths true) m = monthLength y m := by
  rw [entry_monthLengths hm hlt, if_neg hfeb]
  unfold monthLength
  rw [if_neg hfeb]

variable {found : Int × Int}

/-- The day found is one of its month. -/
theorem day_le_of_found (h : c.Splits days) (years400 : Int) (hf : MonthFound c.days found) :
    found.2 + 1 ≤ monthLength (yearOfMonth (c.year years400) found.1) found.1 := by
  have hlt := hf.days_lt
  by_cases hfeb : found.1 = 1
  · have hsum := hf.sum
    rw [hfeb] at hsum ⊢
    have hlong := leapDay_bounds (c.year years400 + 1)
    -- The 29th is day 365, and then the year is a leap year.
    have hleap := leapDay_succ_of_splits h years400
    have hlength : monthLength (yearOfMonth (c.year years400) 1) 1
        = 28 + leapDay (c.year years400 + 1) := rfl
    have hoffset : marchOffset 1 = 337 := rfl
    rw [hlength]
    by_cases hday : c.days = 365
    · rw [hleap hday]
      omega
    · have hle := h.days_le
      omega
  · rw [← entry_eq_monthLength hf.month_nonneg hf.month_lt hfeb]
    omega

/-- The date of the parts. -/
def marchDate (h : c.Splits days) (years400 : Int) {found : Int × Int}
    (hf : MonthFound c.days found) : Date where
  year := yearOfMonth (c.year years400) found.1
  month := found.1
  day := found.2 + 1
  month_nonneg := hf.month_nonneg
  month_lt := hf.month_lt
  day_pos := by
    have hnonneg := hf.days_nonneg
    omega
  day_le := day_le_of_found h years400 hf

/-- Its number is the day that was split. -/
theorem marchDate_dayNumber (h : c.Splits days) (years400 : Int) (hf : MonthFound c.days found) :
    (marchDate h years400 hf).dayNumber = 11017 + 146097 * years400 + days := by
  have hstart := marchStart_eq h years400
  have hmonth := monthOffset_march (c.year years400) hf.month_nonneg hf.month_lt
  have hsum := hf.sum
  have hparts := h.sum
  unfold Date.dayNumber Date.dayOfYear marchDate
  dsimp only
  omega

/-- January is reached after 306 days. -/
theorem january_iff (hf : MonthFound days found) :
    306 ≤ days ↔ found.1 < 2 := by
  have hsum := hf.sum
  have hlt := hf.days_lt
  have hnonneg := hf.days_nonneg
  have hm := hf.month_nonneg
  have hm' := hf.month_lt
  rw [entry_monthLengths hm hm'] at hlt
  generalize found.1 = m at *
  interval_cases m <;> norm_num [marchOffset] at hsum hlt ⊢ <;> omega

/-- The year of the date, as the code adjusts it. -/
theorem marchDate_year (h : c.Splits days) (years400 : Int) (hf : MonthFound c.days found) :
    (marchDate h years400 hf).year
      = if 306 ≤ c.days then c.year years400 + 1 else c.year years400 := by
  exact if_congr (january_iff hf).symm rfl rfl

/-- The day of the year, as the code adjusts it. -/
theorem marchDate_dayOfYear (h : c.Splits days) (years400 : Int) (hf : MonthFound c.days found) :
    (marchDate h years400 hf).dayOfYear
      = if 306 ≤ c.days then c.days - 306
        else c.days + 59 + leapDay (c.year years400) := by
  have hnumber := marchDate_dayNumber h years400 hf
  have hstart := marchStart_eq h years400
  have hsucc := yearStart_succ (c.year years400)
  have hparts := h.sum
  unfold yearLength at hsucc
  unfold Date.dayNumber at hnumber
  rw [marchDate_year] at hnumber
  split at hnumber <;> omega

/-- `gmtime_r_newlib` gives the parts of the date and of the second. -/
theorem gmtimeRNewlib_eq {timeval : Int} {d : Date} (hd : d.dayNumber = timeval / 86400) :
    gmtimeRNewlib timeval =
      { tmSec := timeval % 60
        tmMin := timeval % 3600 / 60
        tmHour := timeval % 86400 / 3600
        tmMday := d.day
        tmMon := d.month
        tmYear := int32 (d.year - 1900)
        tmWday := (timeval / 86400 + 4) % 7
        tmYday := d.dayOfYear
        tmIsdst := 0 } := by
  have hnonneg : 0 ≤ (timeval / 86400 - 11017) % 146097 := by omega
  have hlt : (timeval / 86400 - 11017) % 146097 < 146097 := by omega
  have hs := splitCycle_spec hnonneg hlt
  have hwday := extractDow_eq timeval
  unfold extractDow at hwday
  unfold gmtimeRNewlib
  rw [splitDays_eq] at hwday ⊢
  dsimp only at hwday ⊢
  rw [split400_eq, hwday]
  generalize splitCycle ((timeval / 86400 - 11017) % 146097) = c at hs
  have hf : MonthFound c.days (findMonth c.days.toNat 2 c.days) :=
    findMonth_spec hs.days_le (by omega) (by omega) hs.days_nonneg (self_le_toNat _)
      (zero_add _)
  -- The date that was found is the date of the day.
  have hdate : d = marchDate hs ((timeval / 86400 - 11017) / 146097) hf := by
    refine Date.ext_dayNumber ?_
    rw [hd, marchDate_dayNumber]
    omega
  have hyday := marchDate_dayOfYear hs ((timeval / 86400 - 11017) / 146097) hf
  have hyear := marchDate_year hs ((timeval / 86400 - 11017) / 146097) hf
  have hmonth : d.month = (findMonth c.days.toNat 2 c.days).1 := congrArg Date.month hdate
  have hday : d.day = (findMonth c.days.toNat 2 c.days).2 + 1 := congrArg Date.day hdate
  have hmarch : adjustedEpochYear + (timeval / 86400 - 11017) / 146097 * 400 + c.years100 * 100
      + c.years4 * 4 + c.remainingyears = c.year ((timeval / 86400 - 11017) / 146097) := rfl
  rw [← hdate] at hyday hyear
  rw [hmonth, hday, hmarch, ← leapDay_of_splits hs ((timeval / 86400 - 11017) / 146097)]
  generalize c.year ((timeval / 86400 - 11017) / 146097) = year at hyday hyear
  have hrem : 0 ≤ timeval % 86400 := by omega
  have hrem' : 0 ≤ timeval % 86400 % 3600 := by omega
  unfold daysInJanuary daysInFebruary daysPerYear yearBase secsPerHour secsPerMin
  rw [tdiv_eq_ediv_of_nonneg hrem, tmod_eq_emod_of_nonneg hrem,
    tmod_eq_emod_of_nonneg hrem', tdiv_eq_ediv_of_nonneg hrem']
  by_cases hlate : 306 ≤ c.days
  · rw [if_pos hlate] at hyday hyear
    rw [if_pos (by omega), hyday, hyear]
    simp only [Tm.mk.injEq, true_and, and_true]
    refine ⟨by omega, by omega, ?_, by omega⟩
    rw [int32_add, sub_eq_add_neg, int32_add, sub_eq_add_neg]
  · rw [if_neg hlate] at hyday hyear
    rw [if_neg (by omega), hyday, hyear]
    simp only [Tm.mk.injEq, true_and, and_true]
    refine ⟨by omega, by omega, ?_, by omega⟩
    rw [sub_eq_add_neg, int32_add, sub_eq_add_neg]

/-- What a `struct tm` has to say of a timestamp on a date. -/
structure Tm.Describes (tm : Tm) (d : Date) (timeval : Int) : Prop where
  year : tm.tmYear + 1900 = d.year
  month : tm.tmMon = d.month
  day : tm.tmMday = d.day
  yday : tm.tmYday = d.dayOfYear
  wday : tm.tmWday = weekday d.dayNumber
  time : 86400 * d.dayNumber + 3600 * tm.tmHour + 60 * tm.tmMin + tm.tmSec = timeval
  month_range : 0 ≤ tm.tmMon ∧ tm.tmMon < 12
  day_range : 1 ≤ tm.tmMday ∧ tm.tmMday ≤ 31
  yday_range : 0 ≤ tm.tmYday ∧ tm.tmYday < 366
  wday_range : 0 ≤ tm.tmWday ∧ tm.tmWday < 7
  hour_range : 0 ≤ tm.tmHour ∧ tm.tmHour < 24
  min_range : 0 ≤ tm.tmMin ∧ tm.tmMin < 60
  sec_range : 0 ≤ tm.tmSec ∧ tm.tmSec < 60

/-- The parts are those of the one date that the day has, for years that
`tm_year` can hold. -/
theorem gmtimeRNewlib_describes (timeval : Int) (d : Date)
    (hd : d.dayNumber = timeval / 86400) (hyear : -2 ^ 31 ≤ d.year - 1900)
    (hyear' : d.year - 1900 < 2 ^ 31) :
    (gmtimeRNewlib timeval).Describes d timeval
      ∧ ∀ e : Date, e.dayNumber = timeval / 86400 → e = d := by
  have hlength := monthLength_bounds d.year d.month
  have hpos := d.day_pos
  have hle := d.day_le
  have hyday := d.dayOfYear_range
  have hmonth := d.month_nonneg
  have hmonth' := d.month_lt
  refine ⟨?_, fun e he => Date.ext_dayNumber (he.trans hd.symm)⟩
  have hleap := leapDay_bounds d.year
  unfold yearLength at hyday
  rw [gmtimeRNewlib_eq hd, int32_of_fits hyear hyear', ← hd]
  exact
    { year := by dsimp only; omega
      month := rfl
      day := rfl
      yday := rfl
      wday := rfl
      time := by dsimp only; omega
      month_range := ⟨hmonth, hmonth'⟩
      day_range := by dsimp only; omega
      yday_range := by dsimp only; omega
      wday_range := by dsimp only; omega
      hour_range := by dsimp only; omega
      min_range := by dsimp only; omega
      sec_range := by dsimp only; omega }

/-- The last second before 1970. -/
theorem gmtimeRNewlib_describes_eve :
    (gmtimeRNewlib (-1)).Describes ⟨1969, 11, 31, by decide, by decide, by decide, by decide⟩ (-1)
      ∧ ∀ e : Date, e.dayNumber = -1 / 86400 →
        e = ⟨1969, 11, 31, by decide, by decide, by decide, by decide⟩ :=
  gmtimeRNewlib_describes (-1) ⟨1969, 11, 31, by decide, by decide, by decide, by decide⟩
    (by decide) (by decide) (by decide)

end Compass.Calendar
