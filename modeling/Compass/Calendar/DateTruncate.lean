/-
`DateTruncate` and `DateDiff` (DateTruncate.cpp), and the bucket that the
range analysis gives the values of DATE_TRUNC.

Month, quarter and year have the fast path of `ExtractFromTime`; for
other timestamps they go back from the day, by what `gmtime_r_newlib`
finds. Decades, centuries and millennia start in the years 1, 11, 21 and
so on, and `create_epoch` gives the time of their first day.

`DateDiff` of a unit that is a number of seconds is a division. For the
others a loop goes from the later timestamp to the start of its unit and
on from the second before it. `dateDiffLoop` has a bound on its rounds,
`none` is a loop that needs more.

A `time_t` has 64 bits, an `int` has 32; sums that do not fit wrap.

`DateAdd` (DateAdd.cpp).

Units that are a number of seconds are added as such. For the others
`skip_months` starts at the last day of the month before and goes on month
by month, back with the lengths of the months before. Whole blocks of 48
months are skipped at once, with the days of four years. The day of the
month is added in the end; if it was one too many for the month, the last
day of the month before is taken.

The loop has a bound on its rounds; `none` is a loop that needs more, or
`abort()`. A `time_t` has 64 bits; sums that do not fit wrap.
-/
import Compass.Calendar.ExtractFromTime

namespace Compass.Calendar

open Compass.Analyzer (DateField)

/-- A value of type `int64_t`. -/
def int64 (x : Int) : Int := (x + 2 ^ 63) % 2 ^ 64 - 2 ^ 63

-- ======== create_epoch

/-- `create_epoch`: the start of a year that is no leap year. -/
def createEpoch (year : Int) : Int :=
  let newTime := epochAdjustmentDays * secsPerDay
  let yearsOffset := int32 (year - adjustedEpochYear)
  let forward : Bool := decide (0 ≤ yearsOffset)
  let yearsOffset := if forward then yearsOffset else int32 (-yearsOffset)
  let year400 := yearsOffset.tdiv 400
  let yearsRemaining := yearsOffset - year400 * 400
  let year100 := yearsRemaining.tdiv 100
  let yearsRemaining := yearsRemaining - year100 * 100
  let year4 := yearsRemaining.tdiv 4
  let yearsRemaining := yearsRemaining - year4 * 4
  let days := year400 * daysPer400Years + year100 * daysPer100Years + year4 * daysPer4Years
    + yearsRemaining * daysPerYear
  if forward then newTime + (days - daysInJanuary - daysInFebruary) * secsPerDay
  else
    -- one more day for leap year of 2000 when going backward
    newTime - (days + 1 + daysInJanuary + daysInFebruary) * secsPerDay

/-- The start of a decade, century or millennium. -/
def startOfYears (years timeval : Int) : Int :=
  let year := int32 ((gmtimeRNewlib timeval).tmYear + yearBase)
  createEpoch (int32 ((int32 (year - 1)).tdiv years * years + 1))

-- ======== DateTruncate

/-- The truncation to a number of seconds. -/
def pushDown (unit timeval : Int) : Int :=
  let ret := timeval.tdiv unit * unit
  -- in the case of a negative time we still want to push down so need to push one more
  if ret < 0 then int64 (ret - unit) else ret

/-- The truncation to a week. -/
def truncateWeek (timeval : Int) : Int :=
  let day := pushDown secsPerDay timeval
  int64 (day - extractDow day * secsPerDay)

/-- The fast path of `dtMONTH`. -/
def truncateMonthFast (timeval : Int) : Int :=
  let seconds := secondsMarch1900 timeval
  let fourYearPeriodSeconds := seconds / secondsPer4YearCycle * secondsPer4YearCycle
  let (yearSeconds, month) := monthOfPeriod (seconds % secondsPer4YearCycle)
  uint32 (fourYearPeriodSeconds + yearSeconds + entry cumulativeMonthEpochStarts month)
    - epochOffsetYear1900 + secondsFromJan1900ToMarch1900

/-- The fast path of `dtQUARTER`. -/
def truncateQuarterFast (timeval : Int) : Int :=
  let year := yearFrom1900 timeval
  baseYearSeconds year + entry (quarterOffsets year) (quarterFrom0 timeval) - epochOffsetYear1900

/-- The fast path of `dtYEAR`. -/
def truncateYearFast (timeval : Int) : Int :=
  let year := yearFrom1900 timeval
  year * secondsPerNonLeapYear + uint32 (baseYearLeapYears year * secondsPerDay)
    - epochOffsetYear1900

/-- The slow path of `dtMONTH`. -/
def truncateMonthSlow (timeval : Int) : Int :=
  int64 (pushDown secsPerDay timeval - ((gmtimeRNewlib timeval).tmMday - 1) * secsPerDay)

/-- The walk back to the start of the quarter. -/
def walkBack (leapYear : Bool) (startOfQuarter : Int) : (mon : Nat) → (day : Int) → Int
  | 0, day => day
  | mon + 1, day =>
    if startOfQuarter < mon + 1 then
      walkBack leapYear startOfQuarter mon
        (int64 (day - entry (monthLengths leapYear) mon * secsPerDay))
    else day

/-- The slow path of `dtQUARTER`. -/
def truncateQuarterSlow (timeval : Int) : Int :=
  let tm := gmtimeRNewlib timeval
  let startOfQuarter := tm.tmMon.tdiv 3 * 3
  let year := int32 (tm.tmYear + yearBase)
  -- only matters if month is March
  let leapYear : Bool := decide (tm.tmMon = 2
    ∧ (year.tmod 400 = 0 ∨ (year.tmod 4 = 0 ∧ year.tmod 100 ≠ 0)))
  walkBack leapYear startOfQuarter tm.tmMon.toNat (truncateMonthSlow timeval)

/-- The slow path of `dtYEAR`. -/
def truncateYearSlow (timeval : Int) : Int :=
  int64 (pushDown secsPerDay timeval - (gmtimeRNewlib timeval).tmYday * secsPerDay)

/-- `DateTruncate`. -/
def dateTruncate (field : DateField) (timeval : Int) : Int :=
  match field with
  | .microsecond | .millisecond | .second => timeval
  | .minute => pushDown secsPerMin timeval
  | .hour => pushDown secsPerHour timeval
  | .quarterday => pushDown secsPerQuarterday timeval
  | .day => pushDown secsPerDay timeval
  | .week => truncateWeek timeval
  | .month => if FastPath timeval then truncateMonthFast timeval else truncateMonthSlow timeval
  | .quarter =>
    if FastPath timeval then truncateQuarterFast timeval else truncateQuarterSlow timeval
  | .year => if FastPath timeval then truncateYearFast timeval else truncateYearSlow timeval
  | .decade => startOfYears 10 timeval
  | .century => startOfYears 100 timeval
  | .millennium => startOfYears 1000 timeval
  -- what a device returns; elsewhere abort()
  | .invalid => -1

-- ======== buckets

/-- `get_conservative_datetrunc_bucket`. -/
def getConservativeDatetruncBucket : DateField → Int
  | .year => 365 * (24 * 3600)
  -- 90 is the least number of days in any quarter
  | .quarter => 90 * (24 * 3600)
  | .month => 28 * (24 * 3600)
  | .day => 24 * 3600
  | .hour => 3600
  | .minute => 60
  | .millennium => 1000 * 365 * (24 * 3600)
  | .century => 100 * 365 * (24 * 3600)
  | .decade => 10 * 365 * (24 * 3600)
  | .week => 7 * (24 * 3600)
  | .quarterday => 4 * 60 * 50
  | .second | .millisecond | .microsecond | .invalid => 0

/-- The slot of a key in `get_group_value_fast`. -/
def groupSlot (key minKey bucket : Int) : Int :=
  let keyDiff := key - minKey
  if bucket ≠ 0 then keyDiff.tdiv bucket else keyDiff

-- ======== DateDiff

/-- The loop of `DateDiff`. -/
def dateDiffLoop (datepart : DateField) (start : Int) :
    (rounds : Nat) → (crt res : Int) → Option Int
  | 0, _, _ => none
  | rounds + 1, crt, res =>
    if start < crt then
      let dt := dateTruncate datepart crt
      if dt ≤ start then some res
      else dateDiffLoop datepart start rounds (int64 (dt - 1)) (res + 1)
    else some res

/-- `DateDiff`, with a bound on the rounds of its loop. -/
def dateDiff (rounds : Nat) (datepart : DateField) (startdate enddate : Int) : Option Int :=
  let res := int64 (enddate - startdate)
  match datepart with
  | .microsecond => some (int64 (res * 1000000))
  | .millisecond => some (int64 (res * 1000))
  | .second => some res
  | .minute => some (res.tdiv secsPerMin)
  | .hour => some (res.tdiv secsPerHour)
  | .quarterday => some (res.tdiv secsPerQuarterday)
  | .day => some (res.tdiv secsPerDay)
  | .week => some (res.tdiv (secsPerDay * daysPerWeek))
  | _ =>
    if 0 < res then dateDiffLoop datepart startdate rounds enddate 0
    else (dateDiffLoop datepart enddate rounds startdate 0).map fun n => -n

end Compass.Calendar

namespace Compass.Calendar

open Gregorian

inductive DateaddField
  | year | quarter | month | day | hour | minute | second | millennium | century | decade
  | millisecond | microsecond | week | quarterday | invalid
deriving DecidableEq, Repr

/-- `is_leap`. -/
def isLeap (year : Int) : Bool :=
  decide (year.tmod 400 = 0 ∨ (year.tmod 4 = 0 ∧ year.tmod 100 ≠ 0))

/-- The seconds of the month with number `m` in its year, where `month` is
at one of its ends. -/
def monthSeconds (month m : Int) : Int :=
  let leapYear := m = 1 ∧ isLeap (extractFromTime .kYEAR month)
  entry (monthLengths leapYear) m * secsPerDay

/-- The loop of `skip_months`. -/
def skipMonthsLoop (mon : Int) :
    (rounds : Nat) → (month monthsToGo monthsCovered : Int) → Option Int
  | 0, month, monthsToGo, _ => if monthsToGo = 0 then some month else none
  | rounds + 1, month, monthsToGo, monthsCovered =>
    if monthsToGo = 0 then some month
    else if 48 ≤ monthsToGo then
      let rest := monthsToGo.tmod 48
      skipMonthsLoop mon rounds
        (int64 (month + monthsToGo.tdiv 48 * daysPer4Years * secsPerDay)) rest
        (monthsCovered + 48 * rest.tdiv 48)
    else if 0 < monthsToGo then
      let m := (mon + monthsCovered).tmod monsPerYear
      skipMonthsLoop mon rounds (int64 (month + monthSeconds month m)) (monthsToGo - 1)
        (monthsCovered + 1)
    else if monthsToGo ≤ -48 then
      let rest := -(-monthsToGo).tmod 48
      skipMonthsLoop mon rounds
        (int64 (month - (-monthsToGo).tdiv 48 * daysPer4Years * secsPerDay)) rest
        (monthsCovered + 48 * (-rest).tdiv 48)
    else
      let m := ((mon - 1 - monthsCovered).tmod monsPerYear + monsPerYear).tmod monsPerYear
      skipMonthsLoop mon rounds (int64 (month - monthSeconds month m)) (monthsToGo + 1)
        (monthsCovered + 1)

/-- `skip_months`. -/
def skipMonths (rounds : Nat) (timeval monthsToGo : Int) : Option Int :=
  let tm := gmtimeRNewlib timeval
  let tod := timeval.tmod secsPerDay
  let day := timeval.tdiv secsPerDay * secsPerDay
  let dom := tm.tmMday
  let month := int64 (day - dom * secsPerDay)
  (skipMonthsLoop tm.tmMon rounds month monthsToGo 0).map fun month =>
    let newTimeval := int64 (month + dom * secsPerDay + tod)
    let newDom := (gmtimeRNewlib newTimeval).tmMday
    -- a month with fewer days: back to the last day of the month before
    if newDom < dom then int64 (newTimeval - newDom * secsPerDay) else newTimeval

/-- The months of a unit, in the second `switch` of `DateAdd`. -/
def monthsOf : DateaddField → Option Int
  | .month => some 1
  | .quarter => some 3
  | .year => some 12
  | .decade => some (10 * 12)
  | .century => some (100 * 12)
  | .millennium => some (1000 * 12)
  -- abort()
  | _ => none

/-- `DateAdd`. -/
def dateAdd (rounds : Nat) (field : DateaddField) (number timeval : Int) : Option Int :=
  match field with
  | .second => some (int64 (timeval + number))
  | .minute => some (int64 (timeval + number * secsPerMin))
  | .hour => some (int64 (timeval + number * secsPerHour))
  | .day => some (int64 (timeval + number * secsPerDay))
  | .week => some (int64 (timeval + number * daysPerWeek * secsPerDay))
  | field => do
      let monthsToGo ← monthsOf field
      skipMonths rounds timeval (int64 (monthsToGo * number))

-- ======== what it is for

/-- The same time of a day so many months later. -/
def monthsLater (d : Date) (timeval n : Int) : Int :=
  86400 * (d.addMonths n).dayNumber + timeval % 86400

/-- The common centuries among the years that are skipped by fours, from
month `k` on: each is taken to have a day more than it has. -/
def excessDays (k n : Int) : Int :=
  commonCenturies ((k + 48 * n.tdiv 48 - 2) / 12) - commonCenturies ((k - 2) / 12)

/-- Where the day is right: there is no excess, or the excess is cut off
again because it leads from the end of the month into the next one. -/
def LandsRight (d : Date) (n : Int) : Prop :=
  let k := d.monthNumber + n
  let beyond := d.day - monthLength (k / 12) (k % 12)
  let excess := excessDays d.monthNumber n
  excess = 0 ∨
    0 ≤ beyond ∧ 1 ≤ beyond + excess ∧ beyond + excess ≤ monthLength ((k + 1) / 12) ((k + 1) % 12)
      ∧ excess < monthLength (k / 12) (k % 12)

instance (d : Date) (n : Int) : Decidable (LandsRight d n) :=
  inferInstanceAs (Decidable (_ ∨ _))

end Compass.Calendar
