/-
The fields of a timestamp, and the ranges that are assumed of them.

Hours, minutes and days of the week are made positive, and months, days
and quarters come from a date, so they keep to their ranges before 1970
as well. The second and the quarter of a day are plain remainders, which
are negative before 1970 (`second_inside_iff`, `quarterday_inside_iff`).
A leap year that ends with a Sunday has a 54th week (`week_inside_iff`).
The year is an `int`, and its range has the right order for as long as
the years fit.
-/
import Compass.Calendar.ExtractRange
import Compass.Calendar.Proofs.Paths

namespace Compass.Calendar

open Gregorian
open Compass.Analyzer (ExtractField)
open Compass.Range (ExpressionRange IntRange)

variable {t : Int} {d : Date}

-- ======== by division

theorem extractHour_eq (t : Int) : extractHour t = t % 86400 / 3600 := by
  unfold extractHour secsPerHour
  rw [splitDays_eq, Int.tdiv_eq_ediv_of_nonneg (by omega)]

theorem extractMinute_eq (t : Int) : extractMinute t = t % 3600 / 60 := by
  unfold extractMinute secsPerHour secsPerMin
  rw [splitDays_eq, Int.tmod_eq_emod_of_nonneg (by omega), Int.tdiv_eq_ediv_of_nonneg (by omega)]
  omega

/-- A remainder by 60 is not negative, or a multiple is meant. -/
theorem second_inside_iff (t : Int) :
    (0 ≤ extractSecond t ∧ extractSecond t ≤ 60) ↔ 0 ≤ t ∨ t % 60 = 0 := by
  unfold extractSecond secsPerMin
  rw [tmod_eq]
  split <;> omega

/-- Before 1970, only the last quarter of each day keeps its number. -/
theorem quarterday_inside_iff (t : Int) :
    (1 ≤ extractQuarterday t ∧ extractQuarterday t ≤ 4) ↔ 0 ≤ t ∨ -t % 86400 < 21600 := by
  unfold extractQuarterday secsPerQuarterday
  rw [tmod_eq, tdiv_eq]
  split <;> split <;> omega

-- ======== by date

section

variable (hd : d.dayNumber = t / 86400)
include hd

theorem extractSlow_day : extractSlow .kDAY t = d.day := by
  unfold extractSlow
  rw [gmtimeRNewlib_eq hd]

theorem extractSlow_doy : extractSlow .kDOY t = d.dayOfYear + 1 := by
  unfold extractSlow
  rw [gmtimeRNewlib_eq hd]

/-- The weeks start on Sunday, the first one with the year. -/
theorem extractSlow_week : extractSlow .kWEEK t
      = d.dayOfYear / 7 + 1 + if d.dayOfYear % 7 < weekday d.dayNumber + 1 then 0 else 1 := by
  have hnonneg := d.dayOfYear_range.1
  unfold extractSlow weekday
  rw [gmtimeRNewlib_eq hd, extractDow_eq, hd]
  dsimp only
  rw [Int.tdiv_eq_ediv_of_nonneg hnonneg, Int.tmod_eq_emod_of_nonneg hnonneg]
  split <;> omega

/-- There is a 54th week on a Sunday that is the 366th day. -/
theorem week_inside_iff : (1 ≤ extractSlow .kWEEK t ∧ extractSlow .kWEEK t ≤ 53)
      ↔ ¬ (d.dayOfYear = 365 ∧ weekday d.dayNumber = 0) := by
  have hrange := d.dayOfYear_range
  have hleap := leapDay_bounds d.year
  unfold yearLength at hrange
  rw [extractSlow_week hd]
  unfold weekday
  split <;> omega

theorem extractMonth_eq : extractFromTime .kMONTH t = d.month + 1 := by
  unfold extractFromTime
  dsimp only
  split
  · next hfast => exact extractMonthFast_eq hfast hd
  · exact extractSlow_month hd

theorem extractQuarter_eq : extractFromTime .kQUARTER t = d.month / 3 + 1 := by
  unfold extractFromTime
  dsimp only
  split
  · next hfast => exact extractQuarterFast_eq hfast hd
  · exact extractSlow_quarter hd

theorem extractYear_date : extractFromTime .kYEAR t = int32 d.year := by
  unfold extractFromTime
  dsimp only
  split
  · next hfast =>
      have hyear := hfast.year_bounds hd
      rw [extractYearFast_eq hfast hd, int32_of_fits (by omega) (by omega)]
  · exact extractSlow_year hd

end

-- ======== ranges

/-- A fixed range. -/
theorem inside_some {lo hi : Int64} {hasNulls : Bool} {x : Int} :
    Inside (some ⟨lo, hi, hasNulls⟩) x ↔ lo.toInt ≤ x ∧ x ≤ hi.toInt := by
  constructor
  · intro h
    exact h _ rfl
  · rintro h r ⟨⟩
    exact h

theorem int64_ofInt_int32 (y : Int) : (Int64.ofInt (int32 y)).toInt = int32 y := by
  unfold int32
  exact Int64.toInt_ofInt_of_le (by omega) (by omega)

/-- The range of the years. -/
theorem inside_year_iff (argRange : ExpressionRange) (hd : d.dayNumber = t / 86400) :
    Inside (getExtractRange .kYEAR argRange) (extractFromTime .kYEAR t)
      ↔ KeepsRange .kYEAR argRange t d := by
  unfold getExtractRange KeepsRange
  rw [extractYear_date hd]
  cases argRange with
  | none =>
    constructor
    · rintro - r first last ⟨⟩
    · rintro - r ⟨⟩
  | some r =>
    obtain ⟨first, hfirst⟩ := exists_date (r.intMin.toInt / 86400)
    obtain ⟨last, hlast⟩ := exists_date (r.intMax.toInt / 86400)
    rw [Option.map_some, inside_some, extractYear_date hfirst, extractYear_date hlast,
      int64_ofInt_int32, int64_ofInt_int32]
    constructor
    · rintro h r' first' last' ⟨⟩ hfirst' hlast'
      rwa [Date.ext_dayNumber (hfirst'.trans hfirst.symm),
        Date.ext_dayNumber (hlast'.trans hlast.symm)]
    · intro h
      exact h r first last rfl hfirst hlast

/-- Exactly where a field is inside its range. -/
theorem inside_extractRange_iff (field : ExtractField) (argRange : ExpressionRange) (t : Int64)
    (d : Date) (hd : d.dayNumber = t.toInt / 86400) (ht : Inside argRange t.toInt) :
    Inside (getExtractRange field argRange) (extractFromTime field t.toInt)
      ↔ KeepsRange field argRange t.toInt d := by
  have hm := d.month_nonneg
  have hm' := d.month_lt
  have hpos := d.day_pos
  have hle := d.day_le
  have hlength := monthLength_bounds d.year d.month
  have hdoy := d.dayOfYear_range
  have hleap := leapDay_bounds d.year
  unfold yearLength at hdoy
  cases field with
  | kYEAR => exact inside_year_iff argRange hd
  | kEPOCH => exact iff_of_true ht trivial
  | kSECOND => exact inside_some.trans (second_inside_iff t.toInt)
  | kQUARTERDAY => exact inside_some.trans (quarterday_inside_iff t.toInt)
  | kWEEK => exact inside_some.trans (week_inside_iff hd)
  | kQUARTER =>
    refine iff_of_true (inside_some.mpr ?_) trivial
    rw [extractQuarter_eq hd]
    exact ⟨show (1 : Int) ≤ _ by omega, show _ ≤ (4 : Int) by omega⟩
  | kMONTH =>
    refine iff_of_true (inside_some.mpr ?_) trivial
    rw [extractMonth_eq hd]
    exact ⟨show (1 : Int) ≤ _ by omega, show _ ≤ (12 : Int) by omega⟩
  | kDAY =>
    refine iff_of_true (inside_some.mpr ?_) trivial
    show (1 : Int) ≤ extractSlow .kDAY t.toInt ∧ extractSlow .kDAY t.toInt ≤ (31 : Int)
    rw [extractSlow_day hd]
    omega
  | kDOY =>
    refine iff_of_true (inside_some.mpr ?_) trivial
    show (1 : Int) ≤ extractSlow .kDOY t.toInt ∧ extractSlow .kDOY t.toInt ≤ (366 : Int)
    rw [extractSlow_doy hd]
    omega
  | kHOUR =>
    refine iff_of_true (inside_some.mpr ?_) trivial
    show (0 : Int) ≤ extractHour t.toInt ∧ extractHour t.toInt ≤ (23 : Int)
    rw [extractHour_eq]
    omega
  | kMINUTE =>
    refine iff_of_true (inside_some.mpr ?_) trivial
    show (0 : Int) ≤ extractMinute t.toInt ∧ extractMinute t.toInt ≤ (59 : Int)
    rw [extractMinute_eq]
    omega
  | kDOW =>
    refine iff_of_true (inside_some.mpr ?_) trivial
    show (0 : Int) ≤ extractDow t.toInt ∧ extractDow t.toInt ≤ (6 : Int)
    rw [extractDow_eq]
    omega
  | kISODOW =>
    refine iff_of_true (inside_some.mpr ?_) trivial
    unfold extractFromTime
    dsimp only
    rw [extractDow_eq]
    show (1 : Int) ≤ _ ∧ _ ≤ (7 : Int)
    split <;> omega

/-- The last second before 1970 is in a week that the range has. -/
theorem inside_extractRange_1969 :
    Inside (getExtractRange .kWEEK (some ⟨-100, 100, false⟩))
      (extractFromTime .kWEEK (Int64.toInt (-1))) :=
  (inside_extractRange_iff .kWEEK (some ⟨-100, 100, false⟩) (-1)
    ⟨1969, 11, 31, by decide, by decide, by decide, by decide⟩ (by decide)
    (inside_some.mpr (by decide))).mpr (show ¬ (_ ∧ _) by decide)

/-- The last second before 1970 has the number -1. -/
theorem extractFromTime_outside :
    ¬ ∀ (field : ExtractField) (argRange : ExpressionRange) (t : Int64), Inside argRange t.toInt →
        Inside (getExtractRange field argRange) (extractFromTime field t.toInt) := by
  intro h
  have hinside := inside_some.mp (h .kSECOND none (-1) (fun _ hnone => nomatch hnone))
  exact absurd hinside (by decide)

end Compass.Calendar
