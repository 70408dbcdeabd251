/-
What the truncations are for: the units of time as grids of seconds.

A unit of so many seconds has its multiples as boundaries; weeks start on
Sunday. The boundaries of the calendar units are the starts of months,
every third or twelfth one of them, or every so many years from the year
1 on. `Supported` are the timestamps in whose years no `int` of the code
overflows.

`ExtractFromTime` (ExtractFromTime.{h,cpp}): the fields of a timestamp.

A timestamp is a number of seconds from 1970. Seven fields are computed
from it by division; month, quarter and year have a fast path for the
timestamps from 1970 to 2036, in 32-bit unsigned arithmetic from 1900
on; everything else goes through `gmtime_r_newlib`.

# Integers

The quotients and remainders of C++ truncate towards zero (`tdiv`,
`tmod`). A `long` has room for all that is computed from a 64-bit
timestamp here. The `int`s of the year do not, far from now; they wrap.
So do the `uint32_t`s of the fast paths. The conversions of `days` and
`rem` to `int` never lose anything.
-/
import Compass.Lib.Gregorian
import Compass.Analyzer.Expr

namespace Compass.Calendar

open Gregorian
open Compass.Analyzer (DateField)

/-- The years for which every `int` that the code computes has room. -/
def Supported (timeval : Int) : Prop :=
  86400 * yearStart (-2 ^ 31 + 2400) ≤ timeval ∧ timeval < 86400 * yearStart (2 ^ 31)

instance (timeval : Int) : Decidable (Supported timeval) := inferInstanceAs (Decidable (_ ∧ _))

/-- The starts of the months, in seconds. -/
noncomputable def monthGrid : Grid Int :=
  Grid.ofStrictMono (fun k => 86400 * monthStart k) fun i j hij => by
    have h := monthStart_strictMono hij
    dsimp only
    omega

/-- The starts of every so many years, from the year 1. -/
noncomputable def yearsGrid (years : Int) (hyears : 0 < years) : Grid Int :=
  monthGrid.coarsen (12 * years) 12 (by omega)

/-- The boundaries of a unit. -/
noncomputable def grid : DateField → Grid Int
  | .microsecond | .millisecond | .second | .invalid => Grid.multiples 1 0 (by decide)
  | .minute => Grid.multiples 60 0 (by decide)
  | .hour => Grid.multiples 3600 0 (by decide)
  | .quarterday => Grid.multiples 21600 0 (by decide)
  | .day => Grid.multiples 86400 0 (by decide)
  -- 4 January 1970 was a Sunday
  | .week => Grid.multiples 604800 259200 (by decide)
  | .month => monthGrid
  | .quarter => monthGrid.coarsen 3 0 (by decide)
  | .year => monthGrid.coarsen 12 0 (by decide)
  | .decade => yearsGrid 10 (by decide)
  | .century => yearsGrid 100 (by decide)
  | .millennium => yearsGrid 1000 (by decide)

open Compass.Analyzer (ExtractField)

-- ======== constants

def secsPerMin : Int := 60
def secsPerHour : Int := 3600
def secsPerDay : Int := 86400
def secsPerQuarterday : Int := 21600
def daysPerWeek : Int := 7
def monsPerYear : Int := 12
def yearBase : Int := 1900

/-- From 1 January 1970 to 1 March 2000, a Wednesday. -/
def epochAdjustmentDays : Int := 11017
def adjustedEpochYear : Int := 2000
def adjustedEpochWday : Int := 3

def daysPer400Years : Int := 146097
def daysPer100Years : Int := 36524
def daysPer4Years : Int := 1461
def daysPerYear : Int := 365
def daysInJanuary : Int := 31
def daysInFebruary : Int := 28

def secondsPerNonLeapYear : Int := 31536000
def secondsPer4YearCycle : Int := 126230400
def secondsPerDay : Int := 86400
def epochOffsetYear1900 : Int := 2208988800
def secondsFromJan1900ToMarch1900 : Int := 5097600

/-- A value of type `int`. -/
def int32 (x : Int) : Int := (x + 2 ^ 31) % 2 ^ 32 - 2 ^ 31

/-- A value of type `uint32_t`. -/
def uint32 (x : Int) : Int := x % 2 ^ 32

/-- An element of a table. -/
def entry (table : List Int) (i : Int) : Int := table.getD i.toNat 0

-- ======== by division

/-- `days` and `rem`: the days from the adjusted epoch, and the seconds
of the last one. -/
def splitDays (timeval : Int) : Int × Int :=
  let days := timeval.tdiv secsPerDay - epochAdjustmentDays
  let rem := timeval.tmod secsPerDay
  if rem < 0 then (days - 1, rem + secsPerDay) else (days, rem)

/-- `extract_hour`. -/
def extractHour (timeval : Int) : Int :=
  (splitDays timeval).2.tdiv secsPerHour

/-- `extract_minute`. -/
def extractMinute (timeval : Int) : Int :=
  ((splitDays timeval).2.tmod secsPerHour).tdiv secsPerMin

/-- `extract_second`. -/
def extractSecond (timeval : Int) : Int := timeval.tmod secsPerMin

/-- The day of the week of a day from the adjusted epoch. -/
def weekdayOf (days : Int) : Int :=
  let weekday := (adjustedEpochWday + days).tmod daysPerWeek
  if weekday < 0 then weekday + daysPerWeek else weekday

/-- `extract_dow`. -/
def extractDow (timeval : Int) : Int := weekdayOf (splitDays timeval).1

/-- `extract_quarterday`. -/
def extractQuarterday (timeval : Int) : Int :=
  (timeval.tdiv secsPerQuarterday).tmod 4 + 1

-- ======== fast paths

/-- The guard of the fast paths. -/
def FastPath (timeval : Int) : Prop :=
  0 ≤ timeval ∧ timeval ≤ 2 ^ 32 - 1 - epochOffsetYear1900

instance (timeval : Int) : Decidable (FastPath timeval) := inferInstanceAs (Decidable (_ ∧ _))

def cumulativeMonthEpochStarts : List Int :=
  [0, 2678400, 5270400, 7948800, 10540800, 13219200, 15897600, 18489600, 21168000, 23760000,
    26438400, 29116800]

def cumulativeQuarterEpochStarts : List Int := [0, 7776000, 15638400, 23587200]

def cumulativeQuarterEpochStartsLeapYear : List Int := [0, 7862400, 15724800, 23673600]

def secondsMarch1900 (timeval : Int) : Int :=
  uint32 (timeval + epochOffsetYear1900 - secondsFromJan1900ToMarch1900)

/-- What `extract_month_fast` finds in the 4-year period: where the year
from March starts, and the month from March. -/
def monthOfPeriod (secondsPast4YearPeriod : Int) : Int × Int :=
  let yearSeconds :=
    uint32 (secondsPast4YearPeriod / secondsPerNonLeapYear * secondsPerNonLeapYear)
  -- Feb 29th
  let yearSeconds :=
    if secondsPer4YearCycle - secondsPerDay ≤ secondsPast4YearPeriod
      then uint32 (yearSeconds - secondsPerNonLeapYear) else yearSeconds
  let secondsPastMarch := uint32 (secondsPast4YearPeriod - yearSeconds)
  -- the month, or the one after it
  let month := secondsPastMarch / (30 * secondsPerDay)
  let month := if month ≤ 11 then month else 11
  let month :=
    if secondsPastMarch < entry cumulativeMonthEpochStarts month
      then uint32 (month - 1) else month
  (yearSeconds, month)

/-- `extract_month_fast`. -/
def extractMonthFast (timeval : Int) : Int :=
  let month := (monthOfPeriod (secondsMarch1900 timeval % secondsPer4YearCycle)).2
  uint32 (month + 2) % 12 + 1

def seconds1900 (timeval : Int) : Int := uint32 (timeval + epochOffsetYear1900)

/-- The year, from 1900, of `extract_quarter_fast` and `extract_year_fast`. -/
def yearFrom1900 (timeval : Int) : Int :=
  let leapYears :=
    uint32 (seconds1900 timeval - secondsFromJan1900ToMarch1900) / secondsPer4YearCycle
  uint32 (seconds1900 timeval - leapYears * secondsPerDay) / secondsPerNonLeapYear

def baseYearLeapYears (year : Int) : Int := uint32 (year - 1) / 4

def baseYearSeconds (year : Int) : Int :=
  uint32 (year * secondsPerNonLeapYear + baseYearLeapYears year * secondsPerDay)

def quarterOffsets (year : Int) : List Int :=
  if year % 4 = 0 ∧ year ≠ 0 then cumulativeQuarterEpochStartsLeapYear
  else cumulativeQuarterEpochStarts

/-- The quarter of `extract_quarter_fast`, from 0. -/
def quarterFrom0 (timeval : Int) : Int :=
  let year := yearFrom1900 timeval
  let partialYearSeconds := seconds1900 timeval % baseYearSeconds year
  let quarter := partialYearSeconds / (90 * secondsPerDay)
  let quarter := if quarter ≤ 3 then quarter else 3
  if partialYearSeconds < entry (quarterOffsets year) quarter then uint32 (quarter - 1)
  else quarter

/-- `extract_quarter_fast`. -/
def extractQuarterFast (timeval : Int) : Int := uint32 (quarterFrom0 timeval + 1)

/-- `extract_year_fast`. -/
def extractYearFast (timeval : Int) : Int := uint32 (yearFrom1900 timeval + 1900)

-- ======== gmtime

/-- `struct tm`. -/
structure Tm where
  tmSec : Int
  tmMin : Int
  tmHour : Int
  tmMday : Int
  tmMon : Int
  tmYear : Int
  tmWday : Int
  tmYday : Int
  tmIsdst : Int
deriving DecidableEq, Repr

/-- `month_lengths`, for the years that are not leap years and those that are. -/
def monthLengths (leap : Bool) : List Int :=
  [31, if leap then 29 else 28, 31, 30, 31, 30, 31, 31, 30, 31, 30, 31]

/-- The loop over the months from March on. There are no more rounds than
days, since every month has some. -/
def findMonth : (rounds : Nat) → (month days : Int) → Int × Int
  | 0, month, days => (month, days)
  | rounds + 1, month, days =>
    if entry (monthLengths true) month ≤ days then
      findMonth rounds (if monsPerYear ≤ month + 1 then 0 else month + 1)
        (days - entry (monthLengths true) month)
    else (month, days)

/-- A year from March, in its 400-year period, and the days of it. -/
structure CycleYear where
  years100 : Int
  years4 : Int
  remainingyears : Int
  days : Int

/-- The splitting of the days of a 400-year period. -/
def splitCycle (days : Int) : CycleYear :=
  let years100 := days.tdiv daysPer100Years
  -- required for proper day of year calculation
  let years100 := if years100 = 4 then years100 - 1 else years100
  let days := days - years100 * daysPer100Years
  let years4 := days.tdiv daysPer4Years
  let days := days - years4 * daysPer4Years
  let remainingyears := days.tdiv daysPerYear
  -- required for proper day of year calculation
  let remainingyears := if remainingyears = 4 then remainingyears - 1 else remainingyears
  ⟨years100, years4, remainingyears, days - remainingyears * daysPerYear⟩

/-- `years400` and the days of the last period, made positive. -/
def split400 (days : Int) : Int × Int :=
  let years400 := days.tdiv daysPer400Years
  let days := days - years400 * daysPer400Years
  if days < 0 then (years400 - 1, days + daysPer400Years) else (years400, days)

/-- `gmtime_r_newlib`. -/
def gmtimeRNewlib (timeval : Int) : Tm :=
  let (days, rem) := splitDays timeval
  let (years400, daysOf400) := split400 days
  let c := splitCycle daysOf400
  let year := int32 (adjustedEpochYear + years400 * 400 + c.years100 * 100 + c.years4 * 4
    + c.remainingyears)
  let yearleap := if c.remainingyears = 0 ∧ (c.years4 ≠ 0 ∨ c.years100 = 0) then 1 else 0
  -- adjust back to 1st January
  let yearday := c.days + daysInJanuary + daysInFebruary + yearleap
  let (yearday, year) :=
    if daysPerYear + yearleap ≤ yearday then (yearday - (daysPerYear + yearleap), int32 (year + 1))
    else (yearday, year)
  let (month, mday) := findMonth c.days.toNat 2 c.days
  { tmSec := (rem.tmod secsPerHour).tmod secsPerMin
    tmMin := (rem.tmod secsPerHour).tdiv secsPerMin
    tmHour := rem.tdiv secsPerHour
    tmMday := mday + 1
    tmMon := month
    tmYear := int32 (year - yearBase)
    tmWday := weekdayOf days
    tmYday := yearday
    tmIsdst := 0 }

-- ======== ExtractFromTime

/-- The second `switch`. -/
def extractSlow (field : ExtractField) (timeval : Int) : Int :=
  let tm := gmtimeRNewlib timeval
  match field with
  | .kYEAR => int32 (1900 + tm.tmYear)
  | .kQUARTER => tm.tmMon.tdiv 3 + 1
  | .kMONTH => tm.tmMon + 1
  | .kDAY => tm.tmMday
  | .kDOY => tm.tmYday + 1
  | .kWEEK =>
    let doy := tm.tmYday
    -- Sunday 1 - Saturday 7
    let dow := extractDow timeval + 1
    let week := doy.tdiv 7 + 1
    if doy.tmod 7 < dow then week else week + 1
  -- abort(); the first switch has returned
  | _ => -1

/-- `ExtractFromTime`. -/
def extractFromTime (field : ExtractField) (timeval : Int) : Int :=
  match field with
  | .kEPOCH => timeval
  | .kQUARTERDAY => extractQuarterday timeval
  | .kHOUR => extractHour timeval
  | .kMINUTE => extractMinute timeval
  | .kSECOND => extractSecond timeval
  | .kDOW => extractDow timeval
  | .kISODOW =>
    let dow := extractDow timeval
    if dow = 0 then 7 else dow
  | .kMONTH => if FastPath timeval then extractMonthFast timeval else extractSlow field timeval
  | .kQUARTER =>
    if FastPath timeval then extractQuarterFast timeval else extractSlow field timeval
  | .kYEAR => if FastPath timeval then extractYearFast timeval else extractSlow field timeval
  | .kDAY | .kDOY | .kWEEK => extractSlow field timeval

end Compass.Calendar
