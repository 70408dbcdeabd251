/-
`DateTruncate` against the boundaries below.

Every truncation is the floor in its grid, moved by what the push down
missed: by units of seconds (`pushDown_floor`), by days for the calendar
units (`calendar_floor`), and for weeks the week of the day so found. The
years of decades and longer spans are rounded towards zero, so they are
right from the year 1 on and in the first year of a span
(`startOfYears_eq`). `Sound` says where nothing is missed.

The buckets of DATE_TRUNC's values.

Truncated values that differ should do so by a bucket, so that each has a
slot of its own. Units of seconds, weeks and spans of years keep to their
grid whatever the push down misses, and the cells of their grids are no
shorter than the bucket. Months, quarters and years miss their boundary
by whole days before 1970. That moves values of one unit apart, and may
bring those of neighbouring units closer than the bucket, where the
first is as short as units get (`Clash`).
-/
import Mathlib.Algebra.Order.Ring.Abs
import Mathlib.Tactic.Ring
import Compass.Calendar.Proofs.Paths

namespace Compass.Calendar

open Gregorian Int
open Compass.Analyzer (ExtractField DateField)

variable {timeval : Int} {d : Date}

-- ======== units of seconds

theorem pushDown_floor {unit : Int} (hunit : 0 < unit) (hsmall : unit ≤ 2 ^ 32)
    (hs : Supported timeval) :
    pushDown unit timeval
      = (Grid.multiples unit 0 hunit).floor timeval + unit * slip unit timeval := by
  rw [pushDown_eq hunit hsmall hs.bounds.1]
  show _ = unit * ((timeval - 0) / unit) + 0 + _
  rw [sub_zero, add_zero]

/-- The Sunday on or before a day. -/
def sundayOf (day : Int) : Int := day - weekday day

/-- The week found is the week of the day found. -/
theorem truncateWeek_eq (hs : Supported timeval) (hd : d.dayNumber = timeval / 86400) :
    truncateWeek timeval = 86400 * sundayOf (d.dayNumber + slip 86400 timeval) := by
  have hbounds := hs.bounds
  have hslip := slip_bounds 86400 timeval
  unfold truncateWeek
  dsimp only
  rw [pushDown_day hs hd, extractDow_eq]
  unfold secsPerDay sundayOf weekday
  rw [int64_of_fits (by omega) (by omega)]
  omega

section

variable (hd : d.dayNumber = timeval / 86400)
include hd

theorem floor_week : (grid .week).floor timeval = 86400 * sundayOf d.dayNumber := by
  show 604800 * ((timeval - 259200) / 604800) + 259200 = _
  unfold sundayOf weekday
  omega

-- ======== calendar units

theorem floor_month : (grid .month).floor timeval = 86400 * (d.dayNumber - (d.day - 1)) := by
  show 86400 * monthStart (monthGrid.index timeval) = _
  rw [monthGrid_index hd, d.dayNumber_eq]
  omega

theorem floor_quarter : (grid .quarter).floor timeval
      = 86400 * (yearStart d.year + monthOffset d.year (3 * (d.month / 3))) := by
  have hm := d.month_nonneg
  have hm' := d.month_lt
  show 86400 * monthStart (3 * ((monthGrid.index timeval - 0) / 3) + 0) = _
  rw [monthGrid_index hd, ← monthStart_month (by omega) (by omega)]
  unfold Date.monthNumber
  congr 2
  omega

theorem floor_year : (grid .year).floor timeval = 86400 * yearStart d.year := by
  show 86400 * monthStart (12 * ((monthGrid.index timeval - 0) / 12) + 0) = _
  rw [monthGrid_index hd, sub_zero, add_zero, d.monthNumber_div, monthStart_year]

end

/-- The calendar units miss the boundary by the days that the push down
misses. -/
theorem calendar_floor {field : DateField}
    (hfield : field = .month ∨ field = .quarter ∨ field = .year) (hs : Supported timeval) :
    dateTruncate field timeval = (grid field).floor timeval + 86400 * slip 86400 timeval := by
  obtain ⟨d, hd⟩ := exists_date (timeval / 86400)
  have hzero := fun hfast : FastPath timeval => hfast.slip_eq 86400
  rcases hfield with rfl | rfl | rfl
  · rw [floor_month hd]
    unfold dateTruncate
    dsimp only
    split
    · next hfast => rw [truncateMonthFast_eq hfast hd, hzero hfast, mul_zero, add_zero]
    · rw [truncateMonthSlow_eq hs hd, mul_add]
  · rw [floor_quarter hd]
    unfold dateTruncate
    dsimp only
    split
    · next hfast => rw [truncateQuarterFast_eq hfast hd, hzero hfast, mul_zero, add_zero]
    · rw [truncateQuarterSlow_eq hs hd, mul_add]
  · rw [floor_year hd]
    unfold dateTruncate
    dsimp only
    split
    · next hfast => rw [truncateYearFast_eq hfast hd, hzero hfast, mul_zero, add_zero]
    · rw [truncateYearSlow_eq hs hd, mul_add]

-- ======== spans of years

/-- `create_epoch` is right for odd years, which are never leap years. -/
theorem createEpoch_eq {y : Int} (hodd : y % 2 = 1) (hlow : -2 ^ 31 + 2400 ≤ y)
    (hhigh : y < 2 ^ 31) : createEpoch y = 86400 * yearStart y := by
  unfold createEpoch epochAdjustmentDays adjustedEpochYear secsPerDay daysPer400Years
    daysPer100Years daysPer4Years daysPerYear daysInJanuary daysInFebruary
  dsimp only
  rw [int32_of_fits (by omega) (by omega)]
  by_cases hforward : 0 ≤ y - 2000
  · simp only [decide_eq_true hforward, if_true]
    generalize ho : y - 2000 = o at hforward
    rw [tdiv_eq_ediv_of_nonneg hforward]
    generalize ha : o / 400 = a
    rw [tdiv_eq_ediv_of_nonneg (by omega)]
    generalize hb : (o - a * 400) / 100 = b
    rw [tdiv_eq_ediv_of_nonneg (by omega)]
    unfold yearStart
    omega
  · simp only [decide_eq_false hforward, if_false, Bool.false_eq_true]
    rw [int32_of_fits (by omega) (by omega)]
    rw [tdiv_eq_ediv_of_nonneg (by omega)]
    rw [tdiv_eq_ediv_of_nonneg (by omega)]
    rw [tdiv_eq_ediv_of_nonneg (by omega)]
    unfold yearStart
    omega

/-- The spans of years, and what they are rounded to. -/
theorem startOfYears_eq {years : Int} (hspan : years = 10 ∨ years = 100 ∨ years = 1000)
    (hs : Supported timeval) (hd : d.dayNumber = timeval / 86400) :
    startOfYears years timeval = 86400 * yearStart ((d.year - 1).tdiv years * years + 1) := by
  have hyear := hs.year_bounds hd
  have hround : (d.year - 1).tdiv years * years % 2 = 0
      ∧ -2 ^ 31 + 2400 ≤ (d.year - 1).tdiv years * years + 1
      ∧ (d.year - 1).tdiv years * years + 1 < 2 ^ 31 := by
    rcases hspan with rfl | rfl | rfl <;> rw [tdiv_eq] <;> split <;> omega
  obtain ⟨heven, hlow, hhigh⟩ := hround
  unfold startOfYears yearBase
  rw [gmtimeRNewlib_eq hd]
  dsimp only
  rw [int32_add, sub_add_cancel, int32_of_fits (x := d.year) (by omega) hyear.2,
    int32_of_fits (x := d.year - 1) (by omega) (by omega), int32_of_fits (by omega) hhigh]
  exact createEpoch_eq (by omega) hlow hhigh

theorem floor_years {years : Int} (hyears : 0 < years) (hd : d.dayNumber = timeval / 86400) :
    (yearsGrid years hyears).floor timeval
      = 86400 * yearStart ((d.year - 1) / years * years + 1) := by
  have hm := d.month_nonneg
  have hm' := d.month_lt
  show 86400 * monthStart (12 * years * ((monthGrid.index timeval - 12) / (12 * years)) + 12) = _
  have hindex : (monthGrid.index timeval - 12) / (12 * years) = (d.year - 1) / years := by
    rw [monthGrid_index hd, ← ediv_ediv_of_nonneg (by omega : (0 : Int) ≤ 12)]
    unfold Date.monthNumber
    congr 1
    omega
  have hpoint : 12 * years * ((d.year - 1) / years) + 12
      = 12 * ((d.year - 1) / years * years + 1) := by ring
  rw [hindex, hpoint, monthStart_year]

/-- From the year 1 on, and in the first year of a span. -/
theorem startOfYears_floor {years : Int} (hyears : 0 < years)
    (hspan : years = 10 ∨ years = 100 ∨ years = 1000) (hs : Supported timeval)
    (hd : d.dayNumber = timeval / 86400) (hround : 1 ≤ d.year ∨ (d.year - 1) % years = 0) :
    startOfYears years timeval = (yearsGrid years hyears).floor timeval := by
  have hquot : (d.year - 1).tdiv years = (d.year - 1) / years := by
    rcases hround with h | h
    · exact tdiv_eq_ediv_of_nonneg (by omega)
    · exact tdiv_eq_ediv_of_dvd (dvd_of_emod_eq_zero h)
  rw [startOfYears_eq hspan hs hd, floor_years hyears hd, hquot]

-- ======== floors

/-- The push down of a unit misses nothing. -/
def OnTarget (unit timeval : Int) : Prop :=
  0 ≤ timeval ∨ (timeval < -unit ∧ timeval % unit ≠ 0)

theorem slip_eq_zero_iff {unit : Int} : slip unit timeval = 0 ↔ OnTarget unit timeval := by
  unfold slip OnTarget
  split
  · next h => exact ⟨fun _ => Or.inl h, fun _ => rfl⟩
  · next hneg =>
      split
      · omega
      · next hlast =>
          split
          · omega
          · next hrem =>
              have hne : timeval ≠ -unit := by
                rintro rfl
                exact hrem (by simp)
              omega

/-- Where a truncation is the boundary below. -/
def Sound (field : DateField) (timeval : Int) : Prop :=
  match field with
  | .microsecond | .millisecond | .second => True
  | .minute => OnTarget 60 timeval
  | .hour => OnTarget 3600 timeval
  | .quarterday => OnTarget 21600 timeval
  | .day | .month | .quarter | .year => OnTarget 86400 timeval
  | .week => ¬ (timeval < 0 ∧ timeval % 604800 = 259200)
  | .decade => StartsOrAfter 10
  | .century => StartsOrAfter 100
  | .millennium => StartsOrAfter 1000
  | .invalid => False
where
  /-- From the year 1 on, or in the first year of a span. -/
  StartsOrAfter (years : Int) : Prop :=
    1 ≤ (grid .year).index timeval ∨ ((grid .year).index timeval - 1) % years = 0

theorem index_year (hd : d.dayNumber = timeval / 86400) :
    (grid .year).index timeval = d.year := by
  show (monthGrid.index timeval - 0) / 12 = _
  rw [monthGrid_index hd, sub_zero, d.monthNumber_div]

theorem dateTruncate_eq_floor {field : DateField} (hs : Supported timeval)
    (h : Sound field timeval) : dateTruncate field timeval = (grid field).floor timeval := by
  obtain ⟨d, hd⟩ := exists_date (timeval / 86400)
  have hunits : ∀ unit (hunit : 0 < unit), unit ≤ 2 ^ 32 → OnTarget unit timeval →
      pushDown unit timeval = (Grid.multiples unit 0 hunit).floor timeval := by
    intro unit hunit hsmall hon
    rw [pushDown_floor hunit hsmall hs, slip_eq_zero_iff.mpr hon, mul_zero, add_zero]
  have hcalendar : field = .month ∨ field = .quarter ∨ field = .year → OnTarget 86400 timeval →
      dateTruncate field timeval = (grid field).floor timeval := by
    intro hfield hon
    rw [calendar_floor hfield hs, slip_eq_zero_iff.mpr hon, mul_zero, add_zero]
  have hspans : ∀ years (hyears : 0 < years), (years = 10 ∨ years = 100 ∨ years = 1000) →
      Sound.StartsOrAfter timeval years →
      startOfYears years timeval = (yearsGrid years hyears).floor timeval := by
    intro years hyears hspan hround
    unfold Sound.StartsOrAfter at hround
    rw [index_year hd] at hround
    exact startOfYears_floor hyears hspan hs hd hround
  cases field with
  | microsecond | millisecond | second =>
    show timeval = 1 * ((timeval - 0) / 1) + 0
    omega
  | minute => exact hunits 60 (by decide) (by decide) h
  | hour => exact hunits 3600 (by decide) (by decide) h
  | quarterday => exact hunits 21600 (by decide) (by decide) h
  | day => exact hunits 86400 (by decide) (by decide) h
  | week =>
    have hslip : sundayOf (d.dayNumber + slip 86400 timeval) = sundayOf d.dayNumber := by
      have hnot : ¬ (timeval < 0 ∧ timeval % 604800 = 259200) := h
      unfold sundayOf weekday slip
      split
      · rw [add_zero]
      · split
        · omega
        · split <;> omega
    show truncateWeek timeval = _
    rw [truncateWeek_eq hs hd, hslip, floor_week hd]
  | month => exact hcalendar (Or.inl rfl) h
  | quarter => exact hcalendar (Or.inr (Or.inl rfl)) h
  | year => exact hcalendar (Or.inr (Or.inr rfl)) h
  | decade => exact hspans 10 (by decide) (Or.inl rfl) h
  | century => exact hspans 100 (by decide) (Or.inr (Or.inl rfl)) h
  | millennium => exact hspans 1000 (by decide) (Or.inr (Or.inr rfl)) h
  | invalid => exact h.elim

/-- Where nothing is missed, `DateTruncate` gives the greatest boundary that
is not after the timestamp. -/
theorem dateTruncate_floor (field : DateField) (timeval : Int) (hs : Supported timeval)
    (h : Sound field timeval) :
    IsGreatest {b | b ∈ Set.range (grid field).point ∧ b ≤ timeval} (dateTruncate field timeval)
      ∧ (Supported (dateTruncate field timeval) → Sound field (dateTruncate field timeval) →
          dateTruncate field (dateTruncate field timeval) = dateTruncate field timeval)
      ∧ ∀ later, timeval ≤ later → Supported later → Sound field later →
          dateTruncate field timeval ≤ dateTruncate field later := by
  refine ⟨?_, ?_, ?_⟩
  · rw [dateTruncate_eq_floor hs h]
    exact (grid field).isGreatest_floor timeval
  · intro hs' h'
    rw [dateTruncate_eq_floor hs' h', dateTruncate_eq_floor hs h, Grid.floor_floor]
  · intro later hle hs' h'
    rw [dateTruncate_eq_floor hs h, dateTruncate_eq_floor hs' h']
    exact (grid field).floor_mono hle

/-- A month before 1970. -/
theorem dateTruncate_floor_1969 :
    IsGreatest {b | b ∈ Set.range (grid .month).point ∧ b ≤ -5000000}
        (dateTruncate .month (-5000000))
      ∧ (Supported (dateTruncate .month (-5000000)) →
          Sound .month (dateTruncate .month (-5000000)) →
          dateTruncate .month (dateTruncate .month (-5000000)) = dateTruncate .month (-5000000))
      ∧ ∀ later, -5000000 ≤ later → Supported later → Sound .month later →
          dateTruncate .month (-5000000) ≤ dateTruncate .month later :=
  dateTruncate_floor .month (-5000000) (by decide) (Or.inr ⟨by decide, by decide⟩)

/-- A week does not start on Monday: Monday, 5 January 1970 goes to Sunday. -/
theorem dateTruncate_not_monday :
    ¬ ∀ timeval, Supported timeval →
      IsGreatest
        {b | b ∈ Set.range (Grid.multiples 604800 345600 (by decide)).point ∧ b ≤ timeval}
        (dateTruncate .week timeval) := by
  intro h
  have hmonday : 345600 ≤ dateTruncate .week 345600 :=
    (h 345600 (by decide)).2 ⟨⟨0, rfl⟩, le_rfl⟩
  have hsunday : dateTruncate .week 345600 = 259200 := by decide
  omega

end Compass.Calendar

namespace Compass.Calendar

open Gregorian
open Compass.Analyzer (DateField)

/-- Values that differ do so by a bucket, and have different slots. -/
def Apart (field : DateField) (s t : Int) : Prop :=
  dateTruncate field s ≠ dateTruncate field t →
    getConservativeDatetruncBucket field ≤ |dateTruncate field s - dateTruncate field t|
      ∧ ∀ minKey ≤ min (dateTruncate field s) (dateTruncate field t),
        groupSlot (dateTruncate field s) minKey (getConservativeDatetruncBucket field)
          ≠ groupSlot (dateTruncate field t) minKey (getConservativeDatetruncBucket field)

/-- In one unit, what the push down misses differs; or the push down takes
the second of two neighbouring units closer to a first one that is no
longer than the bucket. -/
def Clash (field : DateField) (s t : Int) : Prop :=
  (field = .month ∨ field = .quarter ∨ field = .year) ∧
    (((grid field).index s = (grid field).index t ∧ slip 86400 s ≠ slip 86400 t)
      ∨ ((grid field).index t = (grid field).index s + 1
        ∧ (grid field).floor t - (grid field).floor s = getConservativeDatetruncBucket field
        ∧ slip 86400 t < slip 86400 s))

-- ======== slots

/-- Keys a bucket apart have different slots. -/
theorem groupSlot_ne {v w minKey bucket : Int} (hne : v ≠ w) (hnonneg : 0 ≤ bucket)
    (hgap : bucket ≤ |v - w|) (hmin : minKey ≤ min v w) :
    groupSlot v minKey bucket ≠ groupSlot w minKey bucket := by
  unfold groupSlot
  by_cases hzero : bucket = 0
  · rw [if_neg (not_not.mpr hzero), if_neg (not_not.mpr hzero)]
    omega
  · rw [if_pos hzero, if_pos hzero, Int.tdiv_eq_ediv_of_nonneg (by omega),
      Int.tdiv_eq_ediv_of_nonneg (by omega)]
    intro heq
    have hpos : 0 < bucket := by omega
    have hsplit := Int.mul_ediv_add_emod (v - minKey) bucket
    have hsplit' := Int.mul_ediv_add_emod (w - minKey) bucket
    have hnonneg := Int.emod_nonneg (v - minKey) hzero
    have hnonneg' := Int.emod_nonneg (w - minKey) hzero
    have hlt := Int.emod_lt_of_pos (v - minKey) hpos
    have hlt' := Int.emod_lt_of_pos (w - minKey) hpos
    rw [heq] at hsplit
    have hclose : |v - w| < bucket := abs_lt.mpr ⟨by omega, by omega⟩
    omega

theorem bucket_nonneg (field : DateField) : 0 ≤ getConservativeDatetruncBucket field := by
  cases field <;> decide

variable {field : DateField}

/-- The slots differ where the values are a bucket apart. -/
theorem apart_of_gap {s t : Int} (h : dateTruncate field s ≠ dateTruncate field t →
      getConservativeDatetruncBucket field ≤ |dateTruncate field s - dateTruncate field t|) :
    Apart field s t :=
  fun hne => ⟨h hne, fun _ hmin => groupSlot_ne hne (bucket_nonneg field) (h hne) hmin⟩

theorem Apart.symm {s t : Int} (h : Apart field s t) : Apart field t s := by
  intro hne
  obtain ⟨hgap, hslots⟩ := h hne.symm
  rw [abs_sub_comm] at hgap
  exact ⟨hgap, fun minKey hmin => (hslots minKey (by rwa [min_comm])).symm⟩

-- ======== kept grids

/-- Different multiples of a number are at least it apart. -/
theorem le_abs_sub_of_mul {unit i j : Int} (hunit : 0 < unit) (h : unit * i ≠ unit * j) :
    unit ≤ |unit * i - unit * j| := by
  have hne : i - j ≠ 0 := by
    rintro hzero
    exact h (by rw [sub_eq_zero.mp hzero])
  rw [← Int.mul_sub, abs_mul, abs_of_pos hunit]
  exact le_mul_of_one_le_right hunit.le (Int.one_le_abs hne)

variable {s t : Int}

theorem apart_of_pushDown (unit : Int) (hunit : 0 < unit) (hsmall : unit ≤ 2 ^ 32)
    (hbucket : getConservativeDatetruncBucket field ≤ unit)
    (htrunc : ∀ x, dateTruncate field x = pushDown unit x) (hs : Supported s) (ht : Supported t) :
    Apart field s t := by
  refine apart_of_gap ?_
  rw [htrunc, htrunc, pushDown_eq hunit hsmall hs.bounds.1, pushDown_eq hunit hsmall ht.bounds.1,
    ← mul_add, ← mul_add]
  intro hne
  exact hbucket.trans (le_abs_sub_of_mul hunit hne)

theorem apart_week (hs : Supported s) (ht : Supported t) : Apart .week s t := by
  obtain ⟨d, hd⟩ := exists_date (s / 86400)
  obtain ⟨e, he⟩ := exists_date (t / 86400)
  refine apart_of_gap ?_
  show truncateWeek s ≠ truncateWeek t → 7 * (24 * 3600) ≤ |truncateWeek s - truncateWeek t|
  rw [truncateWeek_eq hs hd, truncateWeek_eq ht he]
  unfold sundayOf weekday
  intro hne
  rw [le_abs]
  omega

/-- Years have at least 365 days. -/
theorem yearStart_gap {y z : Int} (h : y ≤ z) : 365 * (z - y) ≤ yearStart z - yearStart y := by
  unfold yearStart
  omega

theorem apart_years {years : Int} (hspan : years = 10 ∨ years = 100 ∨ years = 1000)
    (hbucket : getConservativeDatetruncBucket field = 86400 * (365 * years))
    (htrunc : ∀ x, dateTruncate field x = startOfYears years x) (hs : Supported s)
    (ht : Supported t) : Apart field s t := by
  obtain ⟨d, hd⟩ := exists_date (s / 86400)
  obtain ⟨e, he⟩ := exists_date (t / 86400)
  refine apart_of_gap ?_
  rw [htrunc, htrunc, startOfYears_eq hspan hs hd, startOfYears_eq hspan ht he, hbucket]
  generalize (d.year - 1).tdiv years = i
  generalize (e.year - 1).tdiv years = j
  intro hne
  rw [le_abs]
  rcases lt_trichotomy i j with hij | rfl | hij
  · have hmul : years ≤ (j - i) * years := by
      rcases hspan with rfl | rfl | rfl <;> omega
    have hgap := yearStart_gap (y := i * years + 1) (z := j * years + 1)
      (by rcases hspan with rfl | rfl | rfl <;> omega)
    rw [sub_mul] at hmul
    exact Or.inr (by omega)
  · exact absurd rfl hne
  · have hmul : years ≤ (i - j) * years := by
      rcases hspan with rfl | rfl | rfl <;> omega
    have hgap := yearStart_gap (y := j * years + 1) (z := i * years + 1)
      (by rcases hspan with rfl | rfl | rfl <;> omega)
    rw [sub_mul] at hmul
    exact Or.inl (by omega)

-- ======== moved boundaries

/-- The days of a quarter. -/
def quarterLength (y q : Int) : Int :=
  monthLength y (3 * q) + monthLength y (3 * q + 1) + monthLength y (3 * q + 2)

/-- The first quarter is the shortest one. -/
theorem le_quarterLength {y q : Int} (hq : 0 ≤ q) (hlt : q < 4) : 90 ≤ quarterLength y q := by
  have hleap := leapDay_bounds y
  unfold quarterLength monthLength
  interval_cases q <;> norm_num
  omega

theorem point_quarter (k : Int) : (grid .quarter).point k = 86400 * monthStart (3 * k) := by
  show 86400 * monthStart (3 * k + 0) = _
  rw [add_zero]

theorem point_quarter_succ (k : Int) :
    (grid .quarter).point (k + 1)
      = (grid .quarter).point k + 86400 * quarterLength (k / 4) (k % 4) := by
  have hnext : 3 * (k + 1) = 3 * k + 1 + 1 + 1 := by omega
  have hyear : ∀ i, 0 ≤ i → i < 3 → (3 * k + i) / 12 = k / 4 ∧ (3 * k + i) % 12 = 3 * (k % 4) + i :=
    fun i hi hi' => by omega
  have h0 := hyear 0 (by omega) (by omega)
  have h1 := hyear 1 (by omega) (by omega)
  have h2 := hyear 2 (by omega) (by omega)
  rw [add_zero, add_zero] at h0
  rw [show 3 * k + 2 = 3 * k + 1 + 1 by omega] at h2
  rw [point_quarter, point_quarter, hnext, monthStart_succ, monthStart_succ, monthStart_succ,
    h0.1, h0.2, h1.1, h1.2, h2.1, h2.2]
  unfold quarterLength
  omega

theorem point_year (y : Int) : (grid .year).point y = 86400 * yearStart y := by
  show 86400 * monthStart (12 * y + 0) = _
  rw [add_zero, monthStart_year]

/-- The days of a month, a quarter or a year are never fewer than the bucket's. -/
theorem bucket_le_cell (hfield : field = .month ∨ field = .quarter ∨ field = .year) :
    ∃ least, getConservativeDatetruncBucket field = 86400 * least ∧ 28 ≤ least
      ∧ ∀ k, ∃ days, (grid field).point (k + 1) = (grid field).point k + 86400 * days
        ∧ least ≤ days := by
  rcases hfield with rfl | rfl | rfl
  · refine ⟨28, rfl, le_rfl, fun k => ⟨monthLength (k / 12) (k % 12), ?_, ?_⟩⟩
    · show 86400 * monthStart (k + 1) = 86400 * monthStart k + _
      rw [monthStart_succ, mul_add]
    · exact (monthLength_bounds _ _).1
  · refine ⟨90, rfl, by decide, fun k => ⟨quarterLength (k / 4) (k % 4), ?_, ?_⟩⟩
    · exact point_quarter_succ k
    · exact le_quarterLength (by omega) (by omega)
  · refine ⟨365, rfl, by decide, fun y => ⟨yearLength y, ?_, ?_⟩⟩
    · rw [point_year, point_year, yearStart_succ, mul_add]
    · have hleap := leapDay_bounds y
      unfold yearLength
      omega

/-- Later timestamps are missed by at most a unit less. -/
theorem slip_drop (h : s < t) : slip 86400 s - 1 ≤ slip 86400 t := by
  unfold slip
  split
  · split <;> omega
  · split
    · split <;> (try split) <;> (try split) <;> omega
    · split <;> split <;> (try split) <;> (try split) <;> omega

/-- Two timestamps in order are apart where they do not clash. -/
theorem apart_iff_of_le (hfield : field = .month ∨ field = .quarter ∨ field = .year)
    (hs : Supported s) (ht : Supported t) (hle : (grid field).index s ≤ (grid field).index t) :
    Apart field s t ↔ ¬ Clash field s t := by
  obtain ⟨least, hbucket, hleast, hcells⟩ := bucket_le_cell hfield
  have hslip := slip_bounds 86400 s
  have hslip' := slip_bounds 86400 t
  have htrunc := calendar_floor hfield hs
  have htrunc' := calendar_floor hfield ht
  obtain ⟨days, hnext, hcell⟩ := hcells ((grid field).index s)
  have hfloor : (grid field).floor s = (grid field).point ((grid field).index s) := rfl
  have hsucc : (grid field).index t = (grid field).index s + 1 →
      (grid field).floor t = (grid field).floor s + 86400 * days := by
    intro h
    rw [hfloor, ← hnext, ← h]
    rfl
  constructor
  · rintro hapart ⟨-, ⟨hindex, hslips⟩ | ⟨hindex, hgap, hslips⟩⟩
    · -- One unit: the values are a day or two apart.
      have hsame := (grid field).floor_eq_floor_iff.mpr hindex
      have hne : dateTruncate field s ≠ dateTruncate field t := by omega
      have hdiff := (hapart hne).1
      rw [le_abs] at hdiff
      omega
    · have hfloors := hsucc hindex
      have hne : dateTruncate field s ≠ dateTruncate field t := by omega
      have hdiff := (hapart hne).1
      rw [le_abs] at hdiff
      omega
  · intro hclash
    refine apart_of_gap fun hne => ?_
    rw [le_abs]
    rcases hle.lt_or_eq with hlt | heq
    · have hlater : s < t := lt_of_not_ge fun hge => by
        have hmono := (grid field).index_mono hge
        omega
      have hdrop := slip_drop hlater
      rcases (show (grid field).index t = (grid field).index s + 1
        ∨ (grid field).index s + 1 + 1 ≤ (grid field).index t by omega) with hnear | hfar
      · -- Neighbours: closer than the bucket only in a clash.
        have hfloors := hsucc hnear
        by_cases hexact : days = least
        · have hnolt : ¬ slip 86400 t < slip 86400 s := fun h =>
            hclash ⟨hfield, Or.inr ⟨hnear, by rw [hfloors, hbucket, hexact]; omega, h⟩⟩
          omega
        · omega
      · obtain ⟨days', hnext', hcell'⟩ := hcells ((grid field).index s + 1)
        have hfloors : (grid field).point ((grid field).index s + 1 + 1) ≤ (grid field).floor t :=
          (grid field).strictMono.monotone hfar
        omega
    · have hsame := (grid field).floor_eq_floor_iff.mpr heq
      have hslips : slip 86400 s = slip 86400 t := by
        by_contra hslips
        exact hclash ⟨hfield, Or.inl ⟨heq, hslips⟩⟩
      omega

/-- Exactly when two truncated values have slots of their own. -/
theorem apart_iff (field : DateField) (s t : Int) (hs : Supported s) (ht : Supported t) :
    Apart field s t ↔ ¬ Clash field s t ∧ ¬ Clash field t s := by
  by_cases hfield : field = .month ∨ field = .quarter ∨ field = .year
  · -- A clash needs its timestamps in order.
    have horder : ∀ x y, Clash field x y → (grid field).index x ≤ (grid field).index y := by
      rintro x y ⟨-, ⟨h, -⟩ | ⟨h, -⟩⟩ <;> omega
    rcases lt_trichotomy ((grid field).index s) ((grid field).index t) with hlt | heq | hlt
    · rw [apart_iff_of_le hfield hs ht hlt.le]
      exact ⟨fun h => ⟨h, fun h' => absurd (horder t s h') (by omega)⟩, And.left⟩
    · rw [apart_iff_of_le hfield hs ht heq.le]
      refine ⟨fun h => ⟨h, fun h' => ?_⟩, And.left⟩
      obtain ⟨-, ⟨-, hne⟩ | ⟨hindex, -⟩⟩ := h'
      · exact h ⟨hfield, Or.inl ⟨heq, hne.symm⟩⟩
      · omega
    · have hiff := apart_iff_of_le hfield ht hs hlt.le
      exact ⟨fun h => ⟨fun h' => absurd (horder s t h') (by omega), hiff.mp h.symm⟩,
        fun h => (hiff.mpr h.2).symm⟩
  · have hno : ∀ x y, ¬ Clash field x y := fun _ _ h => hfield h.1
    refine iff_of_true ?_ ⟨hno s t, hno t s⟩
    cases field with
    | month => exact absurd (Or.inl rfl) hfield
    | quarter => exact absurd (Or.inr (Or.inl rfl)) hfield
    | year => exact absurd (Or.inr (Or.inr rfl)) hfield
    | second | millisecond | microsecond => exact apart_of_gap fun _ => abs_nonneg _
    | invalid => exact fun hne => absurd rfl hne
    | minute =>
      exact apart_of_pushDown 60 (by decide) (by decide) (by decide) (fun _ => rfl) hs ht
    | hour =>
      exact apart_of_pushDown 3600 (by decide) (by decide) (by decide) (fun _ => rfl) hs ht
    | quarterday =>
      exact apart_of_pushDown 21600 (by decide) (by decide) (by decide) (fun _ => rfl) hs ht
    | day =>
      exact apart_of_pushDown 86400 (by decide) (by decide) (by decide) (fun _ => rfl) hs ht
    | week => exact apart_week hs ht
    | decade => exact apart_years (Or.inl rfl) (by decide) (fun _ => rfl) hs ht
    | century => exact apart_years (Or.inr (Or.inl rfl)) (by decide) (fun _ => rfl) hs ht
    | millennium => exact apart_years (Or.inr (Or.inr rfl)) (by decide) (fun _ => rfl) hs ht

/-- Two months of 1969. -/
theorem apart_iff_1969 :
    Apart .month (-28000000) (-27000000)
      ↔ ¬ Clash .month (-28000000) (-27000000) ∧ ¬ Clash .month (-27000000) (-28000000) :=
  apart_iff .month (-28000000) (-27000000) (by decide) (by decide)

/-- Midnight of 15 February 1969 goes to 31 January, noon to 1 February. -/
theorem dateTruncate_crowded : ¬ ∀ field s t, Supported s → Supported t → Apart field s t := by
  intro h
  have hapart := h .month (-27648000) (-27604800) (by decide) (by decide)
  exact absurd (hapart (by decide)).1 (by decide)

theorem sound_of_nonneg {field : DateField} {t : Int} (hfield : field ≠ .invalid) (h : 0 ≤ t) :
    Sound field t := by
  have hyear : 1 ≤ (grid .year).index t := by
    rw [Grid.le_index_iff, point_year]
    exact le_trans (by decide) h
  cases field with
  | microsecond | millisecond | second => exact trivial
  | minute | hour | quarterday | day | month | quarter | year => exact Or.inl h
  | week => exact fun hneg => absurd hneg.1 (Int.not_lt.2 h)
  | decade | century | millennium => exact Or.inl hyear
  | invalid => exact absurd rfl hfield

/-- Truncating to a unit that is made of smaller ones may go through them:
from 1970 on, for smaller units that start with it. -/
theorem dateTruncate_nested {small large : DateField} {t : Int} (hs : Supported t) (h : 0 ≤ t)
    (hsmall : small ≠ .invalid) (hlarge : large ≠ .invalid)
    (hepoch : 0 ∈ Set.range (grid small).point)
    (hmade : Set.range (grid large).point ⊆ Set.range (grid small).point) :
    dateTruncate large (dateTruncate small t) = dateTruncate large t := by
  have hfloor := dateTruncate_eq_floor hs (sound_of_nonneg hsmall h)
  have hnonneg : 0 ≤ dateTruncate small t := by
    rw [hfloor]
    exact ((grid small).isGreatest_floor t).2 ⟨hepoch, h⟩
  have hle : dateTruncate small t ≤ t := by
    rw [hfloor]
    exact (grid small).floor_le t
  have hs' : Supported (dateTruncate small t) :=
    ⟨le_trans (by decide) hnonneg, hle.trans_lt hs.2⟩
  rw [dateTruncate_eq_floor hs' (sound_of_nonneg hlarge hnonneg),
    dateTruncate_eq_floor hs (sound_of_nonneg hlarge h), hfloor,
    Grid.floor_floor_of_subset _ hmade]

/-- Centuries are made of months. -/
theorem dateTruncate_nested_century :
    dateTruncate .century (dateTruncate .month 1500000000) = dateTruncate .century 1500000000 :=
  dateTruncate_nested (by decide) (by decide) (by decide) (by decide) ⟨23640, by decide⟩
    (Set.range_subset_iff.2 fun _ => ⟨_, rfl⟩)

end Compass.Calendar
