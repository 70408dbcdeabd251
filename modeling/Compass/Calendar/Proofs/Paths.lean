/-
The slow paths, by the date that `gmtime_r_newlib` finds.

The division truncates towards zero, and the push down takes off one more
unit whenever the quotient is negative. Between the last boundary before
1970 and 1970 the quotient is zero, and on a boundary before 1970 there
is nothing to push: `slip` is the number of units by which the result is
off (`pushDown_eq`). The month, the quarter and the year go back from the
day found so, and their results are off by as much.

The fast paths agree with the slow ones.

From March 1900 to February 2100 every fourth year is a leap year. A
timestamp of the fast path is split by 4-year periods from March, and
what is found there are the parts of a 400-year period too
(`period_splits`), so that the month found belongs to the date that
`gmtime_r_newlib` finds. The year from 1900 is known from its bounds
(`yearFrom1900_eq`), and the quarter from the day of the year.
-/
import Compass.Calendar.DateTruncate
import Compass.Calendar.Proofs.Gmtime

namespace Compass.Calendar

open Gregorian Int
open Compass.Analyzer (ExtractField DateField)

theorem int64_of_fits {x : Int} (h : -2 ^ 63 ≤ x) (h' : x < 2 ^ 63) : int64 x = x := by
  unfold int64
  omega

-- ======== dates

section

variable {timeval : Int} {d : Date}

/-- The month of a timestamp is that of its date. -/
theorem monthGrid_index (hd : d.dayNumber = timeval / 86400) :
    monthGrid.index timeval = d.monthNumber := by
  obtain ⟨hle, hlt⟩ := d.dayNumber_mem_month
  refine monthGrid.index_eq ?_ ?_
  · show 86400 * monthStart d.monthNumber ≤ timeval
    omega
  · show timeval < 86400 * monthStart (d.monthNumber + 1)
    omega

theorem Supported.year_bounds (h : Supported timeval) (hd : d.dayNumber = timeval / 86400) :
    -2 ^ 31 + 2400 ≤ d.year ∧ d.year < 2 ^ 31 := by
  obtain ⟨hlow, hhigh⟩ := h
  have hsucc := yearStart_succ d.year
  obtain ⟨hnonneg, hlength⟩ := d.dayOfYear_range
  have hnumber : d.dayNumber = yearStart d.year + d.dayOfYear := rfl
  constructor
  · have hlt : (-2 ^ 31 + 2400 : Int) < d.year + 1 :=
      yearStart_strictMono.lt_iff_lt.mp (by omega)
    omega
  · exact yearStart_strictMono.lt_iff_lt.mp (by omega)

/-- Far from the ends of the 64-bit integers. -/
theorem Supported.bounds (h : Supported timeval) : -2 ^ 62 ≤ timeval ∧ timeval < 2 ^ 62 := by
  obtain ⟨hlow, hhigh⟩ := h
  unfold yearStart at hlow hhigh
  omega

end

-- ======== push down

/-- The units by which the push down misses the boundary below. -/
def slip (unit timeval : Int) : Int :=
  if 0 ≤ timeval then 0
  else if -unit < timeval then 1
  else if timeval % unit = 0 then -1
  else 0

theorem slip_bounds (unit timeval : Int) : -1 ≤ slip unit timeval ∧ slip unit timeval ≤ 1 := by
  unfold slip
  split
  · omega
  · split
    · omega
    · split <;> omega

/-- The truncated quotient of a negative number is the upper one. -/
theorem tdiv_mul_of_neg {unit timeval : Int} (hunit : 0 < unit) (hneg : timeval < 0) :
    timeval.tdiv unit * unit
      = unit * (timeval / unit) + if timeval % unit = 0 then 0 else unit := by
  rw [tdiv_eq_ediv, sign_eq_one_of_pos hunit, add_mul, mul_comm (timeval / unit)]
  by_cases hdvd : timeval % unit = 0
  · rw [if_pos (Or.inr (dvd_of_emod_eq_zero hdvd)), if_pos hdvd, zero_mul]
  · have hno : ¬ (0 ≤ timeval ∨ unit ∣ timeval) := by
      rintro (hnonneg | h)
      · omega
      · exact hdvd (emod_eq_zero_of_dvd h)
    rw [if_neg hno, if_neg hdvd, one_mul]

theorem pushDown_eq {unit timeval : Int} (hunit : 0 < unit) (hsmall : unit ≤ 2 ^ 32)
    (hlow : -2 ^ 62 ≤ timeval) :
    pushDown unit timeval = unit * (timeval / unit) + unit * slip unit timeval := by
  have hsplit := Int.mul_ediv_add_emod timeval unit
  have hnonneg := Int.emod_nonneg timeval hunit.ne'
  have hlt := Int.emod_lt_of_pos timeval hunit
  unfold pushDown slip
  by_cases hpos : 0 ≤ timeval
  · have hmul : 0 ≤ timeval / unit * unit :=
      Int.mul_nonneg (Int.ediv_nonneg hpos hunit.le) hunit.le
    rw [if_pos hpos, Int.tdiv_eq_ediv_of_nonneg hpos, if_neg (not_lt.mpr hmul), Int.mul_comm,
      Int.mul_zero, Int.add_zero]
  · rw [if_neg hpos, tdiv_mul_of_neg hunit (not_le.mp hpos)]
    by_cases hlast : -unit < timeval
    · -- The last unit before 1970.
      have hquot : timeval / unit = -1 := by
        rw [Int.ediv_eq_iff_of_pos hunit]
        omega
      have hrem : timeval % unit ≠ 0 := by
        rw [hquot] at hsplit
        omega
      rw [if_pos hlast, if_neg hrem, hquot, if_neg (by omega)]
      omega
    · rw [if_neg hlast]
      by_cases hdvd : timeval % unit = 0
      · have hneg : unit * (timeval / unit) + 0 < 0 := by omega
        rw [if_pos hdvd, if_pos hdvd, if_pos hneg, int64_of_fits (by omega) (by omega)]
        omega
      · have hneg : unit * (timeval / unit) + unit < 0 := by
          rcases (not_lt.mp hlast).lt_or_eq with hlt' | heq
          · have hquot : timeval / unit ≤ -2 := by
              have := Int.ediv_lt_of_lt_mul hunit (show timeval < -1 * unit by omega)
              omega
            omega
          · exfalso
            apply hdvd
            rw [heq]
            simp
        rw [if_neg hdvd, if_neg hdvd, if_pos hneg, int64_of_fits (by omega) (by omega)]
        omega

-- ======== truncations

variable {timeval : Int} {d : Date}

section

variable (hs : Supported timeval)
include hs

section

variable (hd : d.dayNumber = timeval / 86400)
include hd

/-- What the calendar truncations go back from. -/
theorem pushDown_day :
    pushDown secsPerDay timeval = 86400 * (d.dayNumber + slip 86400 timeval) := by
  unfold secsPerDay
  rw [pushDown_eq (by omega) (by omega) hs.bounds.1, hd, mul_add]

/-- The first day of the month. -/
theorem truncateMonthSlow_eq : truncateMonthSlow timeval
      = 86400 * (d.dayNumber - (d.day - 1) + slip 86400 timeval) := by
  have hbounds := hs.bounds
  have hslip := slip_bounds 86400 timeval
  have hpos := d.day_pos
  have hle := d.day_le
  have hlength := monthLength_bounds d.year d.month
  unfold truncateMonthSlow
  rw [pushDown_day hs hd, gmtimeRNewlib_eq hd]
  unfold secsPerDay
  dsimp only
  rw [int64_of_fits (by omega) (by omega)]
  omega

/-- The first day of the year. -/
theorem truncateYearSlow_eq :
    truncateYearSlow timeval = 86400 * (yearStart d.year + slip 86400 timeval) := by
  have hbounds := hs.bounds
  have hslip := slip_bounds 86400 timeval
  have hnumber : d.dayNumber = yearStart d.year + d.dayOfYear := rfl
  have hrange := d.dayOfYear_range
  have hleap := leapDay_bounds d.year
  unfold yearLength at hrange
  unfold truncateYearSlow
  rw [pushDown_day hs hd, gmtimeRNewlib_eq hd]
  unfold secsPerDay
  dsimp only
  rw [int64_of_fits (by omega) (by omega)]
  omega

end

omit hs in
/-- The walk takes off the months it passes. -/
theorem walkBack_eq {leapYear : Bool} {y start day : Int} {mon : Nat} (hstart : 0 ≤ start)
    (hle : start ≤ mon) (hlengths : ∀ i : Nat, start ≤ i → i < mon →
      entry (monthLengths leapYear) i = monthLength y i)
    (hlow : -2 ^ 63 + 86400 * 31 * mon ≤ day) (hhigh : day < 2 ^ 63) :
    walkBack leapYear start mon day
      = day - 86400 * (monthOffset y mon - monthOffset y start) := by
  induction mon generalizing day with
  | zero =>
    have hzero : start = 0 := by omega
    rw [walkBack, hzero]
    simp
  | succ mon ih =>
    rw [walkBack]
    by_cases hlt : start < mon + 1
    · have hlen := monthLength_bounds y mon
      have hsucc := monthOffset_succ (y := y) (m := mon) (by omega)
      unfold secsPerDay
      rw [if_pos hlt, hlengths mon (by omega) (by omega), int64_of_fits (by omega) (by omega),
        ih (by omega) (fun i hi hi' => hlengths i hi (by omega)) (by omega) (by omega)]
      push_cast
      omega
    · have heq : start = (mon + 1 : Nat) := by omega
      rw [if_neg hlt, heq]
      simp

omit hs in
/-- The years that the test on `year` takes for leap years are those. -/
theorem tmod_isLeap (y : Int) :
    y.tmod 400 = 0 ∨ (y.tmod 4 = 0 ∧ y.tmod 100 ≠ 0) ↔ IsLeap y := by
  have hmod : ∀ k : Int, y.tmod k = 0 ↔ y % k = 0 := fun k => by
    rw [← dvd_iff_tmod_eq_zero, ← dvd_iff_emod_eq_zero]
  simp only [ne_eq, hmod]
  unfold IsLeap
  omega

/-- The first day of the quarter. February counts only in March. -/
theorem truncateQuarterSlow_eq (hd : d.dayNumber = timeval / 86400) : truncateQuarterSlow timeval
      = 86400 * (yearStart d.year + monthOffset d.year (3 * (d.month / 3))
          + slip 86400 timeval) := by
  have hbounds := hs.bounds
  have hyear := hs.year_bounds hd
  have hslip := slip_bounds 86400 timeval
  have hnumber : d.dayNumber = yearStart d.year + (monthOffset d.year d.month + d.day - 1) := rfl
  have hm := d.month_nonneg
  have hm' := d.month_lt
  have hpos := d.day_pos
  have hle := d.day_le
  have hlength := monthLength_bounds d.year d.month
  have hcast : (d.month.toNat : Int) = d.month := toNat_of_nonneg hm
  unfold truncateQuarterSlow
  rw [truncateMonthSlow_eq hs hd, gmtimeRNewlib_eq hd]
  unfold yearBase
  dsimp only
  rw [int32_add, sub_add_cancel, int32_of_fits (by omega) hyear.2, tdiv_eq_ediv_of_nonneg hm]
  simp only [tmod_isLeap]
  refine (walkBack_eq (y := d.year) (by omega) (by omega) ?_ (by omega) (by omega)).trans ?_
  · intro i hi hi'
    rw [entry_monthLengths_leap (by omega) (by omega)]
    unfold monthLength leapDay
    by_cases hfeb : (i : Int) = 1
    · have hmarch : d.month = 2 := by omega
      simp only [hfeb, hmarch, if_true, true_and, decide_eq_true_eq]
      split <;> rfl
    · simp [hfeb]
  · rw [hcast, mul_comm (d.month / 3)]
    omega

end

-- ======== extractions

variable (hd : d.dayNumber = timeval / 86400)
include hd

theorem extractSlow_month : extractSlow .kMONTH timeval = d.month + 1 := by
  unfold extractSlow
  rw [gmtimeRNewlib_eq hd]

theorem extractSlow_quarter : extractSlow .kQUARTER timeval = d.month / 3 + 1 := by
  unfold extractSlow
  rw [gmtimeRNewlib_eq hd]
  dsimp only
  rw [tdiv_eq_ediv_of_nonneg d.month_nonneg]

/-- The year, as far as an `int` can hold it. -/
theorem extractSlow_year : extractSlow .kYEAR timeval = int32 d.year := by
  unfold extractSlow
  rw [gmtimeRNewlib_eq hd]
  dsimp only
  rw [add_comm, int32_add, sub_add_cancel]

end Compass.Calendar

namespace Compass.Calendar

open Gregorian
open Compass.Analyzer (ExtractField DateField)

theorem uint32_of_fits {x : Int} (h : 0 ≤ x) (h' : x < 2 ^ 32) : uint32 x = x := by
  unfold uint32
  omega

-- ======== months

variable {m : Int}

/-- The table of the months from March on, in days. -/
theorem entry_cumulativeMonthEpochStarts (hm : 0 ≤ m) (hlt : m < 12) :
    entry cumulativeMonthEpochStarts m = 86400 * marchOffset ((m + 2) % 12) := by
  interval_cases m <;> rfl

/-- A month from March on starts not before its 30-day guess, and the one
before it not after. -/
theorem marchOffset_bounds (hm : 0 ≤ m) (hlt : m < 12) : 30 * m ≤ marchOffset ((m + 2) % 12)
      ∧ (0 < m → marchOffset ((m - 1 + 2) % 12) ≤ 30 * m) := by
  interval_cases m <;> decide

/-- The months from March on, one after another. -/
theorem marchOffset_succ (hm : 0 ≤ m) (hlt : m < 11) : marchOffset ((m + 1 + 2) % 12)
      = marchOffset ((m + 2) % 12) + entry (monthLengths true) ((m + 2) % 12) := by
  interval_cases m <;> rfl

/-- The month whose days hold a day. -/
theorem monthFound_of_bounds {x : Int} (hm : 0 ≤ m) (hlt : m < 12) (hle : marchOffset m ≤ x)
    (hx : x < marchOffset m + entry (monthLengths true) m) :
    MonthFound x (m, x - marchOffset m) where
  month_nonneg := hm
  month_lt := hlt
  days_nonneg := by dsimp only; omega
  days_lt := by dsimp only; omega
  sum := by dsimp only; omega

/-- The division by 30 days finds the month or the one after it, and the
table says which. -/
theorem guessed_month {s g : Int} (hs : 0 ≤ s) (hlt : s < 366 * 86400)
    (hg : g = if s / 2592000 ≤ 11 then s / 2592000 else 11) :
    ∃ m, (if s < entry cumulativeMonthEpochStarts g then uint32 (g - 1) else g) = m
      ∧ 0 ≤ m ∧ m < 12
      ∧ MonthFound (s / 86400) ((m + 2) % 12, s / 86400 - marchOffset ((m + 2) % 12)) := by
  have hg0 : 0 ≤ g := by split at hg <;> omega
  have hg11 : g < 12 := by split at hg <;> omega
  have hguess' : s < 2592000 * (g + 1) ∨ g = 11 := by split at hg <;> omega
  obtain ⟨hlower, hbefore⟩ := marchOffset_bounds hg0 hg11
  rw [entry_cumulativeMonthEpochStarts hg0 hg11]
  by_cases hearly : s < 86400 * marchOffset ((g + 2) % 12)
  · have hpos : 0 < g := by
      rcases hg0.lt_or_eq with hpos | rfl
      · exact hpos
      · have hzero : marchOffset ((0 + 2) % 12) = 0 := rfl
        omega
    have hsucc := marchOffset_succ (m := g - 1) (by omega) (by omega)
    rw [sub_add_cancel] at hsucc
    refine ⟨g - 1, ?_, by omega, by omega, monthFound_of_bounds (by omega) (by omega) ?_ (by omega)⟩
    · rw [if_pos hearly, uint32_of_fits (by omega) (by omega)]
    · have hle := hbefore hpos
      omega
  · refine ⟨g, if_neg hearly, hg0, hg11, monthFound_of_bounds (by omega) (by omega) (by omega) ?_⟩
    rcases (show g < 11 ∨ g = 11 by omega) with hmore | rfl
    · have hsucc := marchOffset_succ hg0 hmore
      have hnext := (marchOffset_bounds (m := g + 1) (by omega) (by omega)).1
      omega
    · have hfeb : marchOffset ((11 + 2) % 12) + entry (monthLengths true) ((11 + 2) % 12) = 366 :=
        rfl
      omega

/-- The year of a 4-year period from March. -/
def yearOfPeriod (p : Int) : Int := if 1460 * 86400 ≤ p then 3 else p / 31536000

theorem monthOfPeriod_spec {p : Int} (hp : 0 ≤ p) (hlt : p < 126230400) :
    ∃ m, monthOfPeriod p = (31536000 * yearOfPeriod p, m) ∧ 0 ≤ m ∧ m < 12
      ∧ MonthFound (p / 86400 - 365 * yearOfPeriod p)
          ((m + 2) % 12, p / 86400 - 365 * yearOfPeriod p - marchOffset ((m + 2) % 12)) := by
  have hyear : 0 ≤ p - 31536000 * yearOfPeriod p
      ∧ p - 31536000 * yearOfPeriod p < 366 * 86400 := by
    unfold yearOfPeriod
    split <;> omega
  have hdays : (p - 31536000 * yearOfPeriod p) / 86400 = p / 86400 - 365 * yearOfPeriod p := by
    omega
  obtain ⟨m, hm, hm0, hm12, hfound⟩ := guessed_month hyear.1 hyear.2 rfl
  rw [hdays] at hfound
  refine ⟨m, ?_, hm0, hm12, hfound⟩
  -- The year's start is what the code keeps in `yearSeconds`.
  have hstart : (if secondsPer4YearCycle - secondsPerDay ≤ p
      then uint32 (uint32 (p / secondsPerNonLeapYear * secondsPerNonLeapYear)
        - secondsPerNonLeapYear)
      else uint32 (p / secondsPerNonLeapYear * secondsPerNonLeapYear))
      = 31536000 * yearOfPeriod p := by
    unfold secondsPer4YearCycle secondsPerDay secondsPerNonLeapYear yearOfPeriod
    by_cases hlast : 1460 * 86400 ≤ p
    · have hfour : p / 31536000 = 4 := by omega
      have hfeb : (126230400 : Int) - 86400 ≤ p := by omega
      rw [if_pos hfeb, if_pos hlast, hfour]
      rfl
    · have hfeb : ¬ (126230400 : Int) - 86400 ≤ p := by omega
      rw [if_neg hfeb, if_neg hlast, uint32_of_fits (by omega) (by omega), mul_comm]
  have hthirty : 30 * secondsPerDay = 2592000 := rfl
  unfold monthOfPeriod
  dsimp only
  rw [hstart, uint32_of_fits hyear.1 (by omega), hthirty, hm]

-- ======== dates

/-- The 4-year periods from March 1900, in parts of 400-year periods. -/
def periodParts (periods p : Int) : CycleYear :=
  ⟨if periods < 25 then 3 else 0, if periods < 25 then periods else periods - 25, yearOfPeriod p,
    p / 86400 - 365 * yearOfPeriod p⟩

def periodOf400 (periods : Int) : Int := if periods < 25 then -1 else 0

/-- They split the days from March 2000 as `gmtime_r_newlib` does. -/
theorem period_splits (periods : Int) {p : Int} (hperiods : 0 ≤ periods) (hlt : periods < 49)
    (hp : 0 ≤ p) (hp' : p < 126230400) :
    (periodParts periods p).Splits
      (1461 * periods + p / 86400 - 36525 - 146097 * periodOf400 periods) := by
  have hyear : 0 ≤ yearOfPeriod p ∧ yearOfPeriod p ≤ 3 ∧ 0 ≤ p / 86400 - 365 * yearOfPeriod p
      ∧ p / 86400 - 365 * yearOfPeriod p ≤ 365
      ∧ (p / 86400 - 365 * yearOfPeriod p = 365 → yearOfPeriod p = 3) := by
    unfold yearOfPeriod
    split <;> omega
  obtain ⟨hr0, hr3, hd0, hd, hleap⟩ := hyear
  unfold periodParts periodOf400
  exact
    { sum := by dsimp only; split <;> omega
      years100 := by dsimp only; split <;> omega
      years4 := by dsimp only; split <;> omega
      remainingyears := ⟨hr0, hr3⟩
      days_nonneg := hd0
      days_le := hd
      leap := by
        intro h
        dsimp only at h ⊢
        exact ⟨hleap h, by split <;> omega⟩ }

theorem secondsMarch1900_eq {timeval : Int} (hfast : FastPath timeval) :
    secondsMarch1900 timeval = timeval + 2203891200 := by
  obtain ⟨hnonneg, hle⟩ := hfast
  unfold epochOffsetYear1900 at hle
  unfold secondsMarch1900 epochOffsetYear1900 secondsFromJan1900ToMarch1900
  rw [uint32_of_fits (by omega) (by omega)]
  omega

/-- The date of a timestamp on the fast path. -/
theorem fastPath_date {timeval : Int} (hfast : FastPath timeval) {d : Date}
    (hd : d.dayNumber = timeval / 86400) :
    ∃ m, monthOfPeriod (secondsMarch1900 timeval % secondsPer4YearCycle)
        = (31536000 * yearOfPeriod (secondsMarch1900 timeval % secondsPer4YearCycle), m)
      ∧ 0 ≤ m ∧ m < 12 ∧ d.month = (m + 2) % 12
      ∧ d.day = (timeval + 2203891200) % 126230400 / 86400
          - 365 * yearOfPeriod ((timeval + 2203891200) % 126230400)
          - marchOffset ((m + 2) % 12) + 1 := by
  have hseconds := secondsMarch1900_eq hfast
  obtain ⟨hnonneg, hle⟩ := hfast
  unfold epochOffsetYear1900 at hle
  rw [hseconds]
  obtain ⟨m, hm, hm0, hm12, hfound⟩ :=
    monthOfPeriod_spec (p := (timeval + 2203891200) % 126230400) (by omega) (by omega)
  have hs := period_splits ((timeval + 2203891200) / 126230400)
    (p := (timeval + 2203891200) % 126230400) (by omega) (by omega) (by omega) (by omega)
  have hfound' : MonthFound (periodParts ((timeval + 2203891200) / 126230400)
      ((timeval + 2203891200) % 126230400)).days _ := hfound
  have hdate : d = marchDate hs (periodOf400 ((timeval + 2203891200) / 126230400)) hfound' := by
    refine Date.ext_dayNumber ?_
    rw [hd, marchDate_dayNumber]
    omega
  refine ⟨m, hm, hm0, hm12, congrArg Date.month hdate, ?_⟩
  exact congrArg Date.day hdate

variable {timeval : Int} {d : Date}

section

variable (hfast : FastPath timeval)
include hfast

theorem extractMonthFast_eq (hd : d.dayNumber = timeval / 86400) :
    extractMonthFast timeval = d.month + 1 := by
  obtain ⟨m, hm, hm0, hm12, hmonth, -⟩ := fastPath_date hfast hd
  unfold extractMonthFast
  rw [hm, hmonth]
  dsimp only
  rw [uint32_of_fits (by omega) (by omega)]

/-- The fast path goes to the first day of the month. -/
theorem truncateMonthFast_eq (hd : d.dayNumber = timeval / 86400) :
    truncateMonthFast timeval = 86400 * (d.dayNumber - (d.day - 1)) := by
  obtain ⟨m, hm, hm0, hm12, -, hday⟩ := fastPath_date hfast hd
  have hpos := d.day_pos
  have hmarch := marchOffset_bounds hm0 hm12
  have hseconds := secondsMarch1900_eq hfast
  obtain ⟨hnonneg, hle⟩ := hfast
  unfold epochOffsetYear1900 at hle
  unfold truncateMonthFast
  dsimp only
  rw [hm]
  rw [entry_cumulativeMonthEpochStarts hm0 hm12, hd, hseconds]
  unfold secondsPer4YearCycle epochOffsetYear1900 secondsFromJan1900ToMarch1900
  have hyear : 0 ≤ yearOfPeriod ((timeval + 2203891200) % 126230400) := by
    unfold yearOfPeriod
    split <;> omega
  rw [uint32_of_fits (by omega) (by omega)]
  omega

-- ======== years

theorem seconds1900_eq : seconds1900 timeval = timeval + 2208988800 := by
  obtain ⟨hnonneg, hle⟩ := hfast
  unfold epochOffsetYear1900 at hle
  unfold seconds1900 epochOffsetYear1900
  rw [uint32_of_fits (by omega) (by omega)]

/-- The year on the fast path, by the days since 1900. -/
theorem yearFrom1900_days : yearFrom1900 timeval
      = (timeval / 86400 + 25567 - (timeval / 86400 + 25508) / 1461) / 365 := by
  have hseconds := seconds1900_eq hfast
  obtain ⟨hnonneg, hle⟩ := hfast
  unfold epochOffsetYear1900 at hle
  unfold yearFrom1900 secondsFromJan1900ToMarch1900 secondsPer4YearCycle secondsPerDay
    secondsPerNonLeapYear
  rw [hseconds]
  dsimp only
  rw [uint32_of_fits (x := timeval + 2208988800 - 5097600) (by omega) (by omega),
    uint32_of_fits (by omega) (by omega)]
  omega

end

variable {y : Int}

/-- The first day of a year from 1900 to 2100, where every fourth year is a
leap year but for 1900. -/
theorem yearStart_1900 (hy : 1 ≤ y) (hy' : y ≤ 200) :
    yearStart (1900 + y) = 365 * y + (y - 1) / 4 - 25567 := by
  unfold yearStart
  omega

theorem yearFrom1900_eq (hfast : FastPath timeval) (hd : d.dayNumber = timeval / 86400) :
    yearFrom1900 timeval = d.year - 1900 := by
  have hdays := yearFrom1900_days hfast
  obtain ⟨hnonneg, hle⟩ := hfast
  unfold epochOffsetYear1900 at hle
  generalize yearFrom1900 timeval = y at hdays
  have hy : 70 ≤ y ∧ y ≤ 150 := by omega
  have hyear : d.year = 1900 + y := by
    refine Date.year_eq ?_ ?_
    · rw [hd, yearStart_1900 (by omega) (by omega)]
      omega
    · rw [hd, add_assoc, yearStart_1900 (by omega) (by omega)]
      omega
  omega

theorem extractYearFast_eq (hfast : FastPath timeval) (hd : d.dayNumber = timeval / 86400) :
    extractYearFast timeval = d.year := by
  have hyear := yearFrom1900_eq hfast hd
  have hdays := yearFrom1900_days hfast
  obtain ⟨hnonneg, hle⟩ := hfast
  unfold epochOffsetYear1900 at hle
  unfold extractYearFast
  rw [uint32_of_fits (by omega) (by omega)]
  omega

-- ======== quarters

theorem baseYearLeapYears_eq (hy : 1 ≤ y) (hy' : y ≤ 150) : baseYearLeapYears y = (y - 1) / 4 := by
  unfold baseYearLeapYears
  rw [uint32_of_fits (by omega) (by omega)]

theorem baseYearSeconds_eq (hy : 1 ≤ y) (hy' : y ≤ 136) :
    baseYearSeconds y = 86400 * yearStart (1900 + y) + 2208988800 := by
  unfold baseYearSeconds secondsPerNonLeapYear secondsPerDay
  rw [baseYearLeapYears_eq hy (by omega), yearStart_1900 hy (by omega),
    uint32_of_fits (by omega) (by omega)]
  omega

theorem entry_quarterOffsets {q : Int} (hy : 1 ≤ y) (hy' : y ≤ 150) (hq : 0 ≤ q) (hq' : q ≤ 3) :
    entry (quarterOffsets y) q = 86400 * monthOffset (1900 + y) (3 * q) := by
  have hleap : y % 4 = 0 ∧ y ≠ 0 ↔ IsLeap (1900 + y) := by
    unfold IsLeap
    omega
  rw [monthOffset_eq (by omega) (by omega)]
  unfold quarterOffsets leapDay
  simp only [hleap]
  by_cases h : IsLeap (1900 + y)
  · simp only [if_pos h]
    interval_cases q <;> rfl
  · simp only [if_neg h]
    interval_cases q <;> rfl

/-- A quarter starts not before its 90-day guess, and the one before it not
after. -/
theorem monthOffset_quarter_bounds {q : Int} (hq : 0 ≤ q) (hq' : q ≤ 3) :
    90 * q ≤ monthOffset y (3 * q) ∧ (0 < q → monthOffset y (3 * (q - 1)) ≤ 90 * q) := by
  have hleap := leapDay_bounds y
  constructor
  · rw [monthOffset_eq (by omega) (by omega)]
    interval_cases q <;> norm_num <;> omega
  · intro hpos
    rw [monthOffset_eq (by omega) (by omega)]
    interval_cases q <;> norm_num <;> omega

/-- A quarter is known from its first day and the next one's. -/
theorem month_div_eq {q : Int} (hq : 0 ≤ q) (hq' : q ≤ 3)
    (hle : monthOffset d.year (3 * q) ≤ d.dayOfYear)
    (hlt : q = 3 ∨ d.dayOfYear < monthOffset d.year (3 * (q + 1))) : d.month / 3 = q := by
  have hmonth' := d.month_lt
  have hnumber : d.dayNumber = yearStart d.year + d.dayOfYear := rfl
  have hfirst : 12 * d.year + 3 * q ≤ d.monthNumber := by
    rw [← d.index_months, Grid.le_index_iff, months_point, monthStart_month (by omega) (by omega)]
    omega
  have hlast : q = 3 ∨ d.monthNumber < 12 * d.year + 3 * (q + 1) := by
    rcases (show q = 3 ∨ q < 3 by omega) with hq3 | hq3
    · exact Or.inl hq3
    · refine Or.inr ?_
      rw [← d.index_months, Grid.index_lt_iff, months_point, monthStart_month (by omega) (by omega)]
      omega
  unfold Date.monthNumber at hfirst hlast
  omega

section

variable (hfast : FastPath timeval)
include hfast

section

variable (hd : d.dayNumber = timeval / 86400)
include hd

theorem quarterFrom0_eq : quarterFrom0 timeval = d.month / 3 := by
  have hyear := yearFrom1900_eq hfast hd
  have hdays := yearFrom1900_days hfast
  have hseconds := seconds1900_eq hfast
  obtain ⟨hnonneg, hle⟩ := hfast
  unfold epochOffsetYear1900 at hle
  have hy : 70 ≤ d.year - 1900 ∧ d.year - 1900 ≤ 136 := by omega
  have hbase := baseYearSeconds_eq (y := d.year - 1900) (by omega) (by omega)
  have hentry := fun q => entry_quarterOffsets (y := d.year - 1900) (q := q) (by omega) (by omega)
  have hcancel : 1900 + (d.year - 1900) = d.year := by omega
  rw [hcancel] at hbase
  simp only [hcancel] at hentry
  have hday : timeval / 86400 = yearStart d.year + d.dayOfYear := hd.symm
  have hrange := d.dayOfYear_range
  have hleap := leapDay_bounds d.year
  unfold yearLength at hrange
  have hstart : 0 ≤ yearStart d.year := by
    rw [← yearStart_epoch]
    exact yearStart_strictMono.monotone (by omega)
  -- The seconds of the year.
  have hpartial : seconds1900 timeval % baseYearSeconds (d.year - 1900)
      = 86400 * d.dayOfYear + timeval % 86400 := by
    rw [hseconds, hbase]
    have hsplit : timeval + 2208988800
        = 86400 * d.dayOfYear + timeval % 86400 + (86400 * yearStart d.year + 2208988800) := by
      omega
    rw [hsplit, Int.add_emod_right]
    exact Int.emod_eq_of_lt (by omega) (by omega)
  unfold quarterFrom0 secondsPerDay
  dsimp only
  rw [hyear, hpartial]
  have hninety : (90 : Int) * 86400 = 7776000 := rfl
  rw [hninety]
  generalize hg : (if (86400 * d.dayOfYear + timeval % 86400) / 7776000 ≤ 3
    then (86400 * d.dayOfYear + timeval % 86400) / 7776000 else 3) = g
  have hg0 : 0 ≤ g := by split at hg <;> omega
  have hg3 : g ≤ 3 := by split at hg <;> omega
  have hguess : 90 * g ≤ d.dayOfYear := by split at hg <;> omega
  have hguess' : g = 3 ∨ d.dayOfYear < 90 * (g + 1) := by split at hg <;> omega
  obtain ⟨-, hbefore⟩ := monthOffset_quarter_bounds (y := d.year) hg0 hg3
  rw [hentry g hg0 hg3]
  by_cases hearly : d.dayOfYear < monthOffset d.year (3 * g)
  · have hpos : 0 < g := by
      rcases hg0.lt_or_eq with hpos | rfl
      · exact hpos
      · have hzero : monthOffset d.year (3 * 0) = 0 := rfl
        omega
    rw [if_pos (by omega), uint32_of_fits (by omega) (by omega)]
    refine (month_div_eq (by omega) (by omega) ((hbefore hpos).trans hguess) (Or.inr ?_)).symm
    rw [Int.sub_add_cancel]
    exact hearly
  · rw [if_neg (by omega)]
    refine (month_div_eq hg0 hg3 (by omega) ?_).symm
    rcases (show g = 3 ∨ g < 3 by omega) with h3 | h3
    · exact Or.inl h3
    · have hnext := (monthOffset_quarter_bounds (y := d.year) (q := g + 1) (by omega) (by omega)).1
      exact Or.inr (by omega)

theorem extractQuarterFast_eq : extractQuarterFast timeval = d.month / 3 + 1 := by
  have hm := d.month_nonneg
  have hm' := d.month_lt
  unfold extractQuarterFast
  rw [quarterFrom0_eq hfast hd, uint32_of_fits (by omega) (by omega)]

/-- The years of the fast path. -/
theorem FastPath.year_bounds : 70 ≤ d.year - 1900 ∧ d.year - 1900 ≤ 136 := by
  have hyear := yearFrom1900_eq hfast hd
  have hdays := yearFrom1900_days hfast
  obtain ⟨hnonneg, hle⟩ := hfast
  unfold epochOffsetYear1900 at hle
  omega

/-- The first day of the quarter. -/
theorem truncateQuarterFast_eq : truncateQuarterFast timeval
      = 86400 * (yearStart d.year + monthOffset d.year (3 * (d.month / 3))) := by
  have hm := d.month_nonneg
  have hm' := d.month_lt
  have hy := hfast.year_bounds hd
  have hcancel : 1900 + (d.year - 1900) = d.year := by omega
  unfold truncateQuarterFast epochOffsetYear1900
  dsimp only
  rw [yearFrom1900_eq hfast hd, quarterFrom0_eq hfast hd, baseYearSeconds_eq (by omega) (by omega),
    entry_quarterOffsets (by omega) (by omega) (by omega) (by omega), hcancel]
  omega

/-- The first day of the year. -/
theorem truncateYearFast_eq : truncateYearFast timeval = 86400 * yearStart d.year := by
  have hy := hfast.year_bounds hd
  have hstart := yearStart_1900 (y := d.year - 1900) (by omega) (by omega)
  have hcancel : 1900 + (d.year - 1900) = d.year := by omega
  rw [hcancel] at hstart
  unfold truncateYearFast secondsPerNonLeapYear secondsPerDay epochOffsetYear1900
  dsimp only
  rw [yearFrom1900_eq hfast hd, baseYearLeapYears_eq (by omega) (by omega),
    uint32_of_fits (by omega) (by omega)]
  omega

end

-- ======== agreement

theorem FastPath.supported : Supported timeval := by
  obtain ⟨hnonneg, hle⟩ := hfast
  unfold epochOffsetYear1900 at hle
  unfold Supported yearStart
  omega

theorem FastPath.slip_eq (unit : Int) : slip unit timeval = 0 :=
  if_pos hfast.1

end

/-- Where the guard selects a fast path, it gives what the slow path gives. -/
theorem fast_eq_slow (timeval : Int) (hfast : FastPath timeval) :
    extractMonthFast timeval = extractSlow .kMONTH timeval
      ∧ extractQuarterFast timeval = extractSlow .kQUARTER timeval
      ∧ extractYearFast timeval = extractSlow .kYEAR timeval
      ∧ truncateMonthFast timeval = truncateMonthSlow timeval
      ∧ truncateQuarterFast timeval = truncateQuarterSlow timeval
      ∧ truncateYearFast timeval = truncateYearSlow timeval := by
  obtain ⟨d, hd⟩ := exists_date (timeval / 86400)
  have hsupported := hfast.supported
  have hyear := hfast.year_bounds hd
  refine ⟨?_, ?_, ?_, ?_, ?_, ?_⟩
  · rw [extractMonthFast_eq hfast hd, extractSlow_month hd]
  · rw [extractQuarterFast_eq hfast hd, extractSlow_quarter hd]
  · rw [extractYearFast_eq hfast hd, extractSlow_year hd, int32_of_fits (by omega) (by omega)]
  · rw [truncateMonthFast_eq hfast hd, truncateMonthSlow_eq hsupported hd, hfast.slip_eq,
      Int.add_zero]
  · rw [truncateQuarterFast_eq hfast hd, truncateQuarterSlow_eq hsupported hd, hfast.slip_eq,
      Int.add_zero]
  · rw [truncateYearFast_eq hfast hd, truncateYearSlow_eq hsupported hd, hfast.slip_eq,
      Int.add_zero]

/-- The 29 February 2000. -/
theorem fast_eq_slow_leapDay :
    extractMonthFast 951782400 = extractSlow .kMONTH 951782400
      ∧ extractQuarterFast 951782400 = extractSlow .kQUARTER 951782400
      ∧ extractYearFast 951782400 = extractSlow .kYEAR 951782400
      ∧ truncateMonthFast 951782400 = truncateMonthSlow 951782400
      ∧ truncateQuarterFast 951782400 = truncateQuarterSlow 951782400
      ∧ truncateYearFast 951782400 = truncateYearSlow 951782400 :=
  fast_eq_slow 951782400 (by decide)

end Compass.Calendar
