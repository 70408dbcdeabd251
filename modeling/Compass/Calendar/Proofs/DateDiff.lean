/-
`DateDiff` against the boundaries that lie between two timestamps.

# The loop

A round either ends the loop or goes to the second before a boundary and
counts one (`counts_done`, `counts_step`). As long as each truncation is
the floor, the rounds are the cells between (`counts_above`), and what
follows is only about where it is not.

Months, quarters and years meet one such place on the way, the last
second before 1970, which goes to the second day of its unit: there one
round too many is made when the loop does not end there. The first
truncation is of a timestamp of the caller, and on a midnight before 1970
it goes a day too far back, past a start on that day (`Miscounted`). For
the spans of years a timestamp before the year 1 goes up to the next
boundary, whose second before is no earlier: the loop never ends
(`Endless`).

# The divisions

The other units are divisions, right when the product fits.
-/
import Compass.Calendar.Proofs.Truncate

namespace Compass.Calendar

open Gregorian Option Int Prod
open Compass.Analyzer (DateField)

-- ======== specification

/-- What `DateDiff` returns, when its loop ends. -/
def Returns (datepart : DateField) (startdate enddate n : Int) : Prop :=
  ∃ rounds, dateDiff rounds datepart startdate enddate = some n

/-- The units to a second and the seconds to a unit, where these are numbers. -/
def fixedUnit : DateField → Option (Int × Int)
  | .microsecond => some (1000000, 1)
  | .millisecond => some (1000, 1)
  | .second => some (1, 1)
  | .minute => some (1, 60)
  | .hour => some (1, 3600)
  | .quarterday => some (1, 21600)
  | .day => some (1, 86400)
  | .week => some (1, 604800)
  | _ => none

/-- The most units that can be added to the start, or the boundaries that
are crossed. -/
def Difference (datepart : DateField) (startdate enddate n : Int) : Prop :=
  match fixedUnit datepart with
  | some (scale, unit) => IsGreatest {k | scale * startdate + unit * k ≤ scale * enddate} n
  | none => n = ((grid datepart).crossed startdate enddate).ncard

/-- The loop ends with the difference, and the other way round with its
negative. -/
def Correct (datepart : DateField) (startdate enddate : Int) : Prop :=
  (∃ n, Difference datepart startdate enddate n ∧ Returns datepart startdate enddate n)
    ∧ ∀ n, Returns datepart enddate startdate n ↔ Returns datepart startdate enddate (-n)

-- ======== the loop

variable {field : DateField} {start crt : Int}

/-- More rounds change nothing. -/
theorem dateDiffLoop_mono {rounds more : Nat} {res n : Int}
    (h : dateDiffLoop field start rounds crt res = some n) (hle : rounds ≤ more) :
    dateDiffLoop field start more crt res = some n := by
  induction rounds generalizing crt res more with
  | zero => exact nomatch h
  | succ rounds ih =>
    obtain ⟨more, rfl⟩ : ∃ k, more = k + 1 := ⟨more - 1, by omega⟩
    rw [dateDiffLoop] at h ⊢
    dsimp only at h ⊢
    split at h
    · next hlt =>
        rw [if_pos hlt]
        split at h
        · next hdone =>
            rw [if_pos hdone]
            exact h
        · next hmore =>
            rw [if_neg hmore]
            exact ih h (by omega)
    · next hdone =>
        rw [if_neg hdone]
        exact h

/-- The loop adds so much to its result. -/
def Counts (field : DateField) (start crt n : Int) : Prop :=
  ∃ rounds, ∀ res, dateDiffLoop field start rounds crt res = some (res + n)

theorem counts_done (h : start < crt → dateTruncate field crt ≤ start) :
    Counts field start crt 0 := by
  refine ⟨1, fun res => ?_⟩
  rw [dateDiffLoop, add_zero]
  split
  · next hlt => rw [if_pos (h hlt)]
  · rfl

/-- One round. -/
theorem counts_step {dt n : Int} (hdt : dateTruncate field crt = dt) (hlt : start < crt)
    (hmore : start < dt) (hlow : -2 ^ 62 ≤ dt) (hhigh : dt ≤ 2 ^ 62)
    (h : Counts field start (dt - 1) n) : Counts field start crt (n + 1) := by
  obtain ⟨rounds, hrounds⟩ := h
  refine ⟨rounds + 1, fun res => ?_⟩
  rw [dateDiffLoop, if_pos hlt]
  rw [hdt, if_neg (not_le.mpr hmore), int64_of_fits (by omega) (by omega), hrounds]
  congr 1
  omega

/-- A loop has one result. -/
theorem Counts.unique {rounds : Nat} {n v : Int} (h : Counts field start crt n)
    (hv : dateDiffLoop field start rounds crt 0 = some v) : v = n := by
  obtain ⟨rounds', hrounds⟩ := h
  have hboth := hrounds 0
  rw [zero_add] at hboth
  have h1 := dateDiffLoop_mono hv (le_max_left rounds rounds')
  have h2 := dateDiffLoop_mono hboth (le_max_right rounds rounds')
  exact some.inj (h1.symm.trans h2)

-- ======== down the boundaries

/-- A second before a boundary is in the cell before. -/
theorem index_pred (G : Grid Int) (k : Int) : G.index (G.point k - 1) = k - 1 := by
  have hlt := G.strictMono (show k - 1 < k by omega)
  refine G.index_eq (by omega) ?_
  rw [sub_add_cancel]
  omega

/-- Where every truncation on the way is the floor, the rounds down to a
boundary are the cells above it. -/
theorem counts_above (base : Int) {m : Int}
    (hbase : Counts field start ((grid field).point (base + 1) - 1) m)
    (hstart : start < (grid field).point (base + 1)) (hlow : -2 ^ 62 ≤ start)
    (hhigh : crt ≤ 2 ^ 62) {n : Nat} (hn : (grid field).index crt = base + 1 + n)
    (hcrt : dateTruncate field crt = (grid field).floor crt)
    (hpoints : ∀ k, base + 1 < k → (grid field).point k ≤ crt →
      dateTruncate field ((grid field).point k - 1) = (grid field).point (k - 1)) :
    Counts field start crt (n + 1 + m) := by
  induction n generalizing crt with
  | zero =>
    have hfloor : (grid field).floor crt = (grid field).point (base + 1) := by
      unfold Grid.floor
      rw [hn]
      simp
    have hle := (grid field).floor_le crt
    have hstep := counts_step (hcrt.trans hfloor) (by omega) hstart (by omega) (by omega) hbase
    rwa [add_comm m 1] at hstep
  | succ n ih =>
    have hfloor : (grid field).floor crt = (grid field).point (base + 1 + n + 1) := by
      unfold Grid.floor
      rw [hn, natCast_succ, add_assoc _ (n : Int)]
    have hle := (grid field).floor_le crt
    rw [hfloor] at hle
    have hbelow : (grid field).point (base + 1) < (grid field).point (base + 1 + n + 1) :=
      (grid field).strictMono (by omega)
    have hindex : (grid field).index ((grid field).point (base + 1 + n + 1) - 1)
        = base + 1 + n := by
      rw [index_pred]
      omega
    have hrest := ih (by omega) hindex (by
        rw [hpoints _ (by omega) hle]
        congr 1
        omega)
      fun k hk hk' => hpoints k hk (by omega)
    have hstep :=
      counts_step (hcrt.trans hfloor) (by omega) (by omega) (by omega) (by omega) hrest
    push_cast
    rwa [show (n : Int) + 1 + 1 + m = n + 1 + m + 1 by omega]

/-- Down to the cell of the start. -/
theorem counts_of_floor (hle : start ≤ crt) (hlow : -2 ^ 62 ≤ start) (hhigh : crt ≤ 2 ^ 62)
    (hcrt : start < crt → (grid field).index start < (grid field).index crt →
      dateTruncate field crt = (grid field).floor crt)
    (hcell : ∀ x, start < x → x ≤ crt → (grid field).index x = (grid field).index start →
      x = crt ∨ x = (grid field).point ((grid field).index start + 1) - 1 →
        dateTruncate field x ≤ start)
    (hpoints : ∀ k, (grid field).index start + 1 < k → (grid field).point k ≤ crt →
      dateTruncate field ((grid field).point k - 1) = (grid field).point (k - 1)) :
    Counts field start crt ((grid field).index crt - (grid field).index start) := by
  rcases ((grid field).index_mono hle).eq_or_lt with heq | hlt
  · rw [← heq, Int.sub_self]
    exact counts_done fun hlt => hcell crt hlt le_rfl heq.symm (Or.inl rfl)
  · obtain ⟨n, hn⟩ : ∃ n : Nat, (grid field).index crt = (grid field).index start + 1 + n :=
      ⟨((grid field).index crt - (grid field).index start - 1).toNat, by omega⟩
    have hindex : (grid field).index ((grid field).point ((grid field).index start + 1) - 1)
        = (grid field).index start := by
      rw [index_pred, Int.add_sub_cancel]
    have hlt' : start < crt := lt_of_le_of_ne hle fun h => by
      rw [h] at hlt
      exact lt_irrefl _ hlt
    have hlast : (grid field).point ((grid field).index start + 1) - 1 ≤ crt := by
      have hpoint := (grid field).le_index_iff.mp (show (grid field).index start + 1
        ≤ (grid field).index crt by omega)
      omega
    have hcounts := counts_above ((grid field).index start)
      (counts_done fun h => hcell _ h hlast hindex (Or.inr rfl))
      ((grid field).lt_point_succ start) hlow hhigh hn (hcrt hlt' hlt) hpoints
    rwa [Int.add_zero, show (n : Int) + 1 = (grid field).index crt - (grid field).index start by
      omega] at hcounts

-- ======== both directions

variable {startdate enddate : Int}

section

variable (hfield : fixedUnit field = none)
include hfield

theorem dateDiff_loop (rounds : Nat) (startdate enddate : Int) :
    dateDiff rounds field startdate enddate
      = if 0 < int64 (enddate - startdate) then dateDiffLoop field startdate rounds enddate 0
        else (dateDiffLoop field enddate rounds startdate 0).map fun n => -n := by
  cases field with
  | month | quarter | year | decade | century | millennium | invalid => rfl
  | _ => exact nomatch hfield

variable (hle : startdate ≤ enddate)
include hle

variable (hlow : -2 ^ 62 ≤ startdate)
include hlow

/-- The later timestamp is the one that the loop starts from. -/
theorem returns_iff_loop (hhigh : enddate < 2 ^ 62) (n : Int) : Returns field startdate enddate n
      ↔ ∃ rounds, dateDiffLoop field startdate rounds enddate 0 = some n := by
  unfold Returns
  simp only [dateDiff_loop hfield]
  rw [int64_of_fits (by omega) (by omega)]
  rcases hle.eq_or_lt with rfl | hlt
  · -- Nothing to count; the sign of zero does not matter.
    have hzero : ∀ rounds v, dateDiffLoop field startdate rounds startdate 0 = some v → v = 0 := by
      intro rounds v h
      exact (counts_done fun h => absurd h (lt_irrefl _)).unique h
    simp only [sub_self, lt_irrefl, if_false]
    refine exists_congr fun rounds => ?_
    cases hloop : dateDiffLoop field startdate rounds startdate 0 with
    | none => simp
    | some v => rw [hzero rounds v hloop]; rfl
  · have hpos : 0 < enddate - startdate := by omega
    simp only [if_pos hpos]

/-- The other way round the same loop runs. -/
theorem returns_swap (hhigh : enddate < 2 ^ 62) (n : Int) :
    Returns field enddate startdate n ↔ Returns field startdate enddate (-n) := by
  rw [returns_iff_loop hfield hle hlow hhigh]
  unfold Returns
  simp only [dateDiff_loop hfield]
  have hneg : ¬ 0 < startdate - enddate := by omega
  rw [int64_of_fits (by omega) (by omega)]
  simp only [if_neg hneg]
  refine exists_congr fun rounds => ?_
  rw [map_eq_some_iff]
  constructor
  · rintro ⟨v, hv, rfl⟩
    rw [hv, neg_neg]
  · intro h
    exact ⟨-n, h, neg_neg n⟩

omit hlow in
theorem difference_loop (n : Int) : Difference field startdate enddate n
      ↔ n = (grid field).index enddate - (grid field).index startdate := by
  unfold Difference
  rw [hfield]
  rw [(grid field).ncard_crossed hle]

/-- Whether the loop counts the cells between. -/
theorem correct_iff_loop (hhigh : enddate < 2 ^ 62) : Correct field startdate enddate
      ↔ ∃ rounds, dateDiffLoop field startdate rounds enddate 0
          = some ((grid field).index enddate - (grid field).index startdate) := by
  rw [← returns_iff_loop hfield hle hlow hhigh]
  constructor
  · rintro ⟨⟨n, hn, h⟩, -⟩
    rwa [(difference_loop hfield hle n).mp hn] at h
  · intro h
    exact ⟨⟨_, (difference_loop hfield hle _).mpr rfl, h⟩, returns_swap hfield hle hlow hhigh⟩

theorem correct_iff_counts {m : Int}
    (hhigh : enddate < 2 ^ 62) (h : Counts field startdate enddate m) :
    Correct field startdate enddate
      ↔ (grid field).index enddate - (grid field).index startdate = m := by
  rw [correct_iff_loop hfield hle hlow hhigh]
  constructor
  · rintro ⟨rounds, hrounds⟩
    exact h.unique hrounds
  · rintro rfl
    obtain ⟨rounds, hrounds⟩ := h
    refine ⟨rounds, ?_⟩
    rw [hrounds, zero_add]

end

-- ======== months, quarters and years

/-- The loop passes the last day of 1969, whose timestamps go to the second
day of their unit; or the first truncation goes to the day before, and the
start is on that day. -/
def Miscounted (field : DateField) (startdate enddate : Int) : Prop :=
  (field = .month ∨ field = .quarter ∨ field = .year) ∧
    ((-86400 < enddate ∧ startdate < (grid field).floor (-1) + 86400)
      ∨ (enddate < 0 ∧ enddate % 86400 = 0 ∧ (grid field).floor enddate - 86400 ≤ startdate
        ∧ startdate < (grid field).floor enddate))

section Calendar

variable (hfield : field = .month ∨ field = .quarter ∨ field = .year)
include hfield

theorem point_day (k : Int) : ∃ day, (grid field).point k = 86400 * day := by
  rcases hfield with rfl | rfl | rfl
  · exact ⟨_, rfl⟩
  · exact ⟨_, rfl⟩
  · exact ⟨_, rfl⟩

theorem point_1970 : ∃ k, (grid field).point k = 0 := by
  rcases hfield with rfl | rfl | rfl
  · exact ⟨23640, by show 86400 * monthStart 23640 = 0; decide⟩
  · exact ⟨7880, by rw [point_quarter]; decide⟩
  · exact ⟨1970, by rw [point_year]; decide⟩

/-- The second before a boundary other than 1970 goes to the boundary before. -/
theorem truncate_pred {k : Int} (hs : Supported ((grid field).point k - 1))
    (hk : (grid field).point k ≠ 0) :
    dateTruncate field ((grid field).point k - 1) = (grid field).point (k - 1) := by
  obtain ⟨day, hday⟩ := point_day hfield k
  have hslip : slip 86400 ((grid field).point k - 1) = 0 := by
    rw [slip_eq_zero_iff]
    unfold OnTarget
    omega
  rw [calendar_floor hfield hs, hslip, mul_zero, add_zero]
  unfold Grid.floor
  rw [index_pred]

/-- A timestamp goes to the first or second day of its unit, from 1970 on
to the first. -/
theorem truncate_le (hs : Supported crt) :
    dateTruncate field crt ≤ (grid field).floor crt + 86400
      ∧ (0 ≤ crt → dateTruncate field crt = (grid field).floor crt) := by
  have hslip := slip_bounds 86400 crt
  rw [calendar_floor hfield hs]
  refine ⟨by omega, fun hnonneg => ?_⟩
  rw [slip, if_pos hnonneg, mul_zero, add_zero]

/-- Before the last day of 1969, from a timestamp that is not a midnight. -/
theorem counts_before (hs : Supported start) (hcrt : Supported crt) (hle : start ≤ crt)
    (hearly : crt < -86400) (hday : crt % 86400 ≠ 0) :
    Counts field start crt ((grid field).index crt - (grid field).index start) := by
  have hslip : slip 86400 crt = 0 := slip_eq_zero_iff.mpr (Or.inr ⟨hearly, hday⟩)
  have hfloor : dateTruncate field crt = (grid field).floor crt := by
    rw [calendar_floor hfield hcrt, hslip, Int.mul_zero, Int.add_zero]
  have hbetween : ∀ k, start < (grid field).point k → (grid field).point k - 1 ≤ crt →
      dateTruncate field ((grid field).point k - 1) = (grid field).point (k - 1) := by
    intro k hk hk'
    exact truncate_pred hfield ⟨hs.1.trans (by omega), hk'.trans_lt hcrt.2⟩ (by omega)
  refine counts_of_floor hle hs.bounds.1 hcrt.bounds.2.le (fun _ _ => hfloor) ?_ ?_
  · rintro x hx hxle hindex (rfl | rfl)
    · rw [hfloor, (grid field).floor_eq_floor_iff.mpr hindex]
      exact (grid field).floor_le start
    · rw [hbetween _ ((grid field).lt_point_succ start) hxle, Int.add_sub_cancel]
      exact (grid field).floor_le start
  · intro k hk hk'
    exact hbetween k ((grid field).index_lt_iff.mp (by omega)) (by omega)

/-- From the second day of the last unit of 1969 on. -/
theorem counts_after (hs : Supported start) (hcrt : Supported crt) (hle : start ≤ crt)
    (hlate : (grid field).floor (-1) + 86400 ≤ start) :
    Counts field start crt ((grid field).index crt - (grid field).index start) := by
  have hsince : (grid field).index (-1) ≤ (grid field).index start :=
    (grid field).le_index_iff.mpr (show (grid field).floor (-1) ≤ start by omega)
  -- The units after that of the start are after 1969.
  have hnext : ∀ k, (grid field).index start + 1 ≤ k → 0 ≤ (grid field).point k := by
    intro k hk
    have hlt : -1 < (grid field).point k := (grid field).index_lt_iff.mp (by omega)
    omega
  have hfloor : 0 ≤ crt → dateTruncate field crt = (grid field).floor crt :=
    (truncate_le hfield hcrt).2
  refine counts_of_floor hle hs.bounds.1 hcrt.bounds.2.le ?_ ?_ ?_
  · intro hlt hindex
    refine hfloor ((hnext _ ?_).trans (grid field |>.floor_le crt))
    omega
  · intro x hx hxle hindex _
    have htrunc := truncate_le hfield ⟨hs.1.trans hx.le, hxle.trans_lt hcrt.2⟩
    have hsame := (grid field).floor_eq_floor_iff.mpr hindex
    have hstart := (grid field).floor_le start
    by_cases hnonneg : 0 ≤ x
    · rw [htrunc.2 hnonneg, hsame]
      exact hstart
    · have hunit : (grid field).index x ≤ (grid field).index (-1) :=
        (grid field).index_mono (by omega)
      have hunits := (grid field).floor_eq_floor_iff.mpr
        (show (grid field).index x = (grid field).index (-1) by omega)
      exact htrunc.1.trans (by omega)
  · intro k hk hk'
    have hpos : 0 < (grid field).point k :=
      (hnext ((grid field).index start + 1) le_rfl).trans_lt ((grid field).strictMono hk)
    have hafter := (grid field).index_lt_iff.mp (show (grid field).index start < k by omega)
    exact truncate_pred hfield ⟨hs.1.trans (by omega), by have := hcrt.2; omega⟩ hpos.ne'

/-- Past the last day of 1969 from before its unit's second day. -/
theorem counts_across (hs : Supported start) (hcrt : Supported crt) (hafter : -86400 < crt)
    (hearly : start < (grid field).floor (-1) + 86400) :
    Counts field start crt ((grid field).index crt - (grid field).index start + 1) := by
  obtain ⟨k0, hk0⟩ := point_1970 hfield
  obtain ⟨least, -, hleast, hcells⟩ := bucket_le_cell hfield
  obtain ⟨days, hnext, hdays⟩ := hcells ((grid field).index (-1))
  have hfloor : (grid field).floor (-1) = (grid field).point ((grid field).index (-1)) := rfl
  have hpred : (grid field).index (-1) = k0 - 1 := by
    rw [← index_pred, hk0]
    rfl
  have hpoint : (grid field).point ((grid field).index (-1) + 1) = 0 := by
    rw [hpred, sub_add_cancel, hk0]
  have hlow := hs.bounds.1
  -- The last day goes to the second one of its unit, and there to the first.
  have hlast : ∀ x, -86400 < x → x < 0 → Supported x →
      Counts field start x ((grid field).index (-1) - (grid field).index start + 1) := by
    intro x hx hneg hxs
    have hslip : slip 86400 x = 1 := by
      rw [slip, if_neg (by omega), if_pos hx]
    have hsame : (grid field).index x = (grid field).index (-1) :=
      (grid field).index_eq (by omega) (by rw [hpoint]; exact hneg)
    have htrunc : dateTruncate field x = (grid field).floor (-1) + 86400 := by
      rw [calendar_floor hfield hxs, hslip, (grid field).floor_eq_floor_iff.mpr hsame]
      rfl
    have hbelow : (grid field).index ((grid field).floor (-1) + 86400 - 1)
        = (grid field).index (-1) := by
      refine (grid field).index_eq (by omega) ?_
      omega
    refine counts_step htrunc (by omega) hearly (by omega) (by omega) ?_
    rw [← hbelow]
    exact counts_before hfield hs ⟨hs.1.trans (by omega), by have := hxs.2; omega⟩ (by omega)
      (by omega) (by omega)
  rcases lt_or_ge crt 0 with hneg | hnonneg
  · have hsame : (grid field).index crt = (grid field).index (-1) :=
      (grid field).index_eq (by omega) (by rw [hpoint]; exact hneg)
    rw [hsame]
    exact hlast crt hafter hneg hcrt
  · have hbase := hlast (-1) (by omega) (by omega) (by decide)
    have hindex : k0 ≤ (grid field).index crt := (grid field).le_index_iff.mpr (by omega)
    obtain ⟨n, hn⟩ : ∃ n : Nat, (grid field).index crt = (grid field).index (-1) + 1 + n :=
      ⟨((grid field).index crt - k0).toNat, by omega⟩
    have hcounts := counts_above ((grid field).index (-1)) (by rw [hpoint]; exact hbase) (by omega)
      hlow hcrt.bounds.2.le hn ((truncate_le hfield hcrt).2 hnonneg) fun k hk hk' => by
        have hpos : 0 < (grid field).point k := by
          rw [← hpoint]
          exact (grid field).strictMono hk
        exact truncate_pred hfield ⟨hs.1.trans (by omega), by have := hcrt.2; omega⟩ hpos.ne'
    rwa [show (n : Int) + 1 + ((grid field).index (-1) - (grid field).index start + 1)
      = (grid field).index crt - (grid field).index start + 1 by omega] at hcounts

/-- From a midnight before 1970. -/
theorem correct_midnight (hnone : fixedUnit field = none) (hs : Supported startdate)
    (he : Supported enddate) (hle : startdate ≤ enddate) (hneg : enddate < 0)
    (hday : enddate % 86400 = 0) :
    Correct field startdate enddate
      ↔ ¬ ((grid field).floor enddate - 86400 ≤ startdate
          ∧ startdate < (grid field).floor enddate) := by
  have hcorrect := fun {m} => correct_iff_counts (m := m) hnone hle hs.bounds.1 he.bounds.2
  obtain ⟨least, -, hleast, hcells⟩ := bucket_le_cell hfield
  obtain ⟨days, hnext, hdays⟩ := hcells ((grid field).index enddate - 1)
  rw [sub_add_cancel] at hnext
  obtain ⟨day, hpoint⟩ := point_day hfield ((grid field).index enddate)
  have hfloor : (grid field).floor enddate = (grid field).point ((grid field).index enddate) := rfl
  have hfloor_le := (grid field).floor_le enddate
  have hslip : slip 86400 enddate = -1 := by
    rw [slip, if_neg (by omega), if_neg (by omega), if_pos hday]
  have htrunc : dateTruncate field enddate = (grid field).floor enddate - 86400 := by
    rw [calendar_floor hfield he, hslip]
    rfl
  have hbelow := (grid field).index_lt_iff (k := (grid field).index enddate) (t := startdate)
  rcases lt_or_ge startdate ((grid field).floor enddate - 86400) with hfar | hnear
  · -- One round, to the second before the midnight before the boundary.
    have hindex : (grid field).index ((grid field).floor enddate - 86400 - 1)
        = (grid field).index enddate - 1 := by
      refine (grid field).index_eq (by omega) ?_
      rw [sub_add_cancel]
      omega
    have hcounts := counts_step htrunc (by omega) hfar (by have := hs.bounds.1; omega)
      (by omega) (counts_before hfield hs ⟨hs.1.trans (by omega), by have := he.2; omega⟩ (by omega)
        (by omega) (by omega))
    rw [hcorrect hcounts, hindex]
    omega
  · have hcounts : Counts field startdate enddate 0 :=
      counts_done fun _ => by rw [htrunc]; exact hnear
    have hmono := (grid field).index_mono hle
    rw [hcorrect hcounts]
    omega

/-- Exactly when the units of the calendar are counted right. -/
theorem correct_calendar (hnone : fixedUnit field = none) (hs : Supported startdate)
    (he : Supported enddate) (hle : startdate ≤ enddate) :
    Correct field startdate enddate ↔ ¬ Miscounted field startdate enddate := by
  have hcorrect := fun {m} => correct_iff_counts (m := m) hnone hle hs.bounds.1 he.bounds.2
  unfold Miscounted
  rw [and_iff_right hfield]
  rcases lt_or_ge (-86400) enddate with hafter | hbefore
  · rcases lt_or_ge startdate ((grid field).floor (-1) + 86400) with hearly | hlate
    · rw [hcorrect (counts_across hfield hs he hafter hearly)]
      exact iff_of_false (by omega) (not_not.mpr (Or.inl ⟨hafter, hearly⟩))
    · rw [hcorrect (counts_after hfield hs he hle hlate)]
      refine iff_of_true rfl ?_
      rintro (⟨-, h⟩ | ⟨hneg, hday, -⟩)
      · omega
      · omega
  · by_cases hday : enddate % 86400 = 0
    · rw [correct_midnight hfield hnone hs he hle (by omega) hday]
      refine not_congr ⟨fun h => Or.inr ⟨by omega, hday, h⟩, ?_⟩
      rintro (⟨h, -⟩ | ⟨-, -, h⟩)
      · omega
      · exact h
    · rw [hcorrect (counts_before hfield hs he hle (by omega) hday)]
      refine iff_of_true rfl ?_
      rintro (⟨h, -⟩ | ⟨-, h, -⟩)
      · omega
      · exact hday h

end Calendar

-- ======== spans of years

def spanYears : DateField → Option Int
  | .decade => some 10
  | .century => some 100
  | .millennium => some 1000
  | _ => none

/-- The loop comes to the last second of a span before the year 1, which
goes up to the next boundary, and so back to itself. -/
def Endless (field : DateField) (startdate enddate : Int) : Prop :=
  ∃ years, spanYears field = some years ∧ startdate < enddate
    ∧ startdate < (grid field).point 0 - 1
    ∧ (((grid .year).index enddate - 1) % years = 0 →
        startdate < (grid field).floor enddate - 1)

section Spans

variable {years : Int} (hspan : spanYears field = some years)
include hspan

theorem span_cases :
    (years = 10 ∨ years = 100 ∨ years = 1000) ∧ (∀ x, dateTruncate field x = startOfYears years x)
      ∧ ∃ hyears, grid field = yearsGrid years hyears := by
  cases field with
  | decade =>
    obtain rfl : 10 = years := some.inj hspan
    exact ⟨Or.inl rfl, fun _ => rfl, by decide, rfl⟩
  | century =>
    obtain rfl : 100 = years := some.inj hspan
    exact ⟨Or.inr (Or.inl rfl), fun _ => rfl, by decide, rfl⟩
  | millennium =>
    obtain rfl : 1000 = years := some.inj hspan
    exact ⟨Or.inr (Or.inr rfl), fun _ => rfl, by decide, rfl⟩
  | _ => exact nomatch hspan

/-- The first second of a span. -/
theorem point_span (k : Int) : (grid field).point k = (grid .year).point (years * k + 1) := by
  obtain ⟨-, -, hyears, hgrid⟩ := span_cases hspan
  rw [hgrid]
  show monthGrid.point (12 * years * k + 12) = monthGrid.point (12 * (years * k + 1) + 0)
  congr 1
  rw [mul_assoc]
  omega

theorem index_span (x : Int) : (grid field).index x = ((grid .year).index x - 1) / years := by
  obtain ⟨-, -, hyears, hgrid⟩ := span_cases hspan
  rw [hgrid]
  show (monthGrid.index x - 12) / (12 * years) = ((monthGrid.index x - 0) / 12 - 1) / years
  rw [← ediv_ediv_of_nonneg (by omega : (0 : Int) ≤ 12)]
  congr 1
  omega

/-- The last year of a span is not its first one. -/
theorem year_pred_span (k : Int) :
    ¬ ((grid .year).index ((grid field).point k - 1) - 1) % years = 0 := by
  obtain ⟨hyears, -⟩ := span_cases hspan
  rw [point_span hspan, index_pred, Int.add_sub_cancel]
  rcases hyears with rfl | rfl | rfl <;> omega

/-- Down from the year 1 on and in the first year of a span; else up. -/
theorem truncate_span (hs : Supported crt) :
    (1 ≤ (grid .year).index crt ∨ ((grid .year).index crt - 1) % years = 0 →
        dateTruncate field crt = (grid field).floor crt)
      ∧ (¬ (1 ≤ (grid .year).index crt ∨ ((grid .year).index crt - 1) % years = 0) →
        dateTruncate field crt = (grid field).point ((grid field).index crt + 1)) := by
  obtain ⟨d, hd⟩ := exists_date (crt / 86400)
  obtain ⟨hyears, htrunc, hpos, hgrid⟩ := span_cases hspan
  rw [point_span hspan, point_year, index_span hspan, htrunc, index_year hd]
  constructor
  · intro h
    rw [hgrid]
    exact startOfYears_floor hpos hyears hs hd h
  · intro h
    have hup : (d.year - 1).tdiv years * years + 1 = years * ((d.year - 1) / years + 1) + 1 := by
      rcases hyears with rfl | rfl | rfl <;> rw [tdiv_eq] <;> split <;> omega
    rw [startOfYears_eq hyears hs hd, hup]

/-- From the year 1 on every truncation is the floor. -/
theorem truncate_since (hs : Supported crt) (hsince : (grid field).point 0 ≤ crt) :
    dateTruncate field crt = (grid field).floor crt := by
  rw [point_span hspan, mul_zero] at hsince
  exact (truncate_span hspan hs).1 (Or.inl ((grid .year).le_index_iff.mpr hsince))

theorem point_zero_lt : (grid field).point 0 < 86400 * yearStart (2 ^ 31) := by
  rw [point_span hspan, point_year, mul_zero]
  decide

/-- The loop does not end. -/
theorem endless_loop (hs : Supported start) (hcrt : Supported crt) (h : Endless field start crt)
    (rounds : Nat) (res : Int) : dateDiffLoop field start rounds crt res = none := by
  induction rounds generalizing crt res with
  | zero => rfl
  | succ rounds ih =>
    obtain ⟨years', hspan', hlt, hbefore, hfirst⟩ := h
    obtain rfl : years = years' := some.inj (hspan.symm.trans hspan')
    obtain ⟨hdown, hup⟩ := truncate_span hspan hcrt
    -- The next round is at the last second of a span, and still after the start.
    have hnext : ∃ k, dateTruncate field crt = (grid field).point k
        ∧ start < (grid field).point k - 1
        ∧ (grid field).point k - 1 < 86400 * yearStart (2 ^ 31) := by
      by_cases hfloor : 1 ≤ (grid .year).index crt ∨ ((grid .year).index crt - 1) % years = 0
      · have hle : (grid field).point ((grid field).index crt) ≤ crt := (grid field).floor_le crt
        refine ⟨_, hdown hfloor, ?_, by have := hcrt.2; omega⟩
        rcases hfloor with hsince | hyear
        · have hindex : 0 ≤ (grid field).index crt := by
            rw [(grid field).le_index_iff, point_span hspan, mul_zero]
            exact (grid .year).le_index_iff.mp hsince
          have hmono := (grid field).strictMono.monotone hindex
          omega
        · exact hfirst hyear
      · have hgt := (grid field).lt_point_succ crt
        have hindex : (grid field).index crt < 0 := by
          rw [(grid field).index_lt_iff, point_span hspan, mul_zero]
          exact (grid .year).index_lt_iff.mp (by omega)
        have hmono := (grid field).strictMono.monotone
          (show (grid field).index crt + 1 ≤ 0 by omega)
        have hzero := point_zero_lt hspan
        exact ⟨_, hup hfloor, by omega, by omega⟩
    obtain ⟨k, htrunc, hafter, hhigh⟩ := hnext
    have hsupported : Supported ((grid field).point k - 1) :=
      ⟨hs.1.trans hafter.le, hhigh⟩
    have hbounds := hsupported.bounds
    rw [dateDiffLoop, if_pos hlt]
    rw [htrunc, if_neg (by omega), int64_of_fits (by omega) (by omega)]
    exact ih hsupported ⟨years, hspan, hafter, hbefore, fun hyear =>
      absurd hyear (year_pred_span hspan k)⟩ _

/-- Exactly when the spans of years are counted right. -/
theorem correct_span (hnone : fixedUnit field = none) (hs : Supported startdate)
    (he : Supported enddate) (hle : startdate ≤ enddate) :
    Correct field startdate enddate ↔ ¬ Endless field startdate enddate := by
  have hcorrect := fun {m} => correct_iff_counts (m := m) hnone hle hs.bounds.1 he.bounds.2
  constructor
  · intro h hendless
    obtain ⟨rounds, hrounds⟩ := (correct_iff_loop hnone hle hs.bounds.1 he.bounds.2).mp h
    rw [endless_loop hspan hs he hendless] at hrounds
    exact nomatch hrounds
  · intro hends
    rcases hle.eq_or_lt with rfl | hlt
    · rw [hcorrect (counts_done fun h => absurd h (lt_irrefl _)), sub_self]
    · by_cases hsince : (grid field).point 0 - 1 ≤ startdate
      · -- No timestamp on the way is before the year 1.
        have hfloor : ∀ x, startdate < x → x ≤ enddate →
            dateTruncate field x = (grid field).floor x := fun x hx hx' =>
          truncate_since hspan ⟨hs.1.trans hx.le, hx'.trans_lt he.2⟩ (by omega)
        refine (hcorrect (counts_of_floor hle hs.bounds.1 he.bounds.2.le
          (fun h _ => hfloor _ h le_rfl) ?_ ?_)).mpr rfl
        · intro x hx hx' hindex _
          rw [hfloor x hx hx', (grid field).floor_eq_floor_iff.mpr hindex]
          exact (grid field).floor_le startdate
        · intro k hk hk'
          have hafter := (grid field).index_lt_iff.mp
            (show (grid field).index startdate < k - 1 by omega)
          have hmono := (grid field).strictMono (show k - 1 < k by omega)
          rw [hfloor _ (by omega) (by omega)]
          unfold Grid.floor
          rw [index_pred]
      · -- One round at most, in the first year of a span.
        have hfirst : ((grid .year).index enddate - 1) % years = 0
            ∧ (grid field).floor enddate - 1 ≤ startdate := by
          by_contra hnot
          refine hends ⟨years, hspan, hlt, not_le.mp hsince, fun hyear => ?_⟩
          by_contra hle'
          exact hnot ⟨hyear, not_lt.mp hle'⟩
        have htrunc := (truncate_span hspan he).1 (Or.inr hfirst.1)
        have hbelow := (grid field).index_lt_iff (k := (grid field).index enddate) (t := startdate)
        have hfloor : (grid field).floor enddate
            = (grid field).point ((grid field).index enddate) := rfl
        have hmono := (grid field).index_mono hle
        rcases lt_or_ge startdate ((grid field).floor enddate) with hnear | hsame
        · have hpred : startdate = (grid field).floor enddate - 1 := by omega
          have hbounds := hs.bounds
          have hdone : Counts field startdate ((grid field).floor enddate - 1) 0 :=
            counts_done fun h => absurd h (by omega)
          have hindex : (grid field).index startdate = (grid field).index enddate - 1 := by
            rw [hpred, hfloor, index_pred]
          rw [hcorrect (counts_step htrunc hlt hnear (by omega) (by omega) hdone)]
          omega
        · rw [hcorrect (counts_done fun _ => by rw [htrunc]; exact hsame)]
          omega

end Spans

-- ======== divisions

variable {scale unit : Int}

section

variable (hfixed : fixedUnit field = some (scale, unit))
include hfixed

theorem dateDiff_fixed (rounds : Nat)
    (startdate enddate : Int) : dateDiff rounds field startdate enddate
      = some ((int64 (scale * (enddate - startdate))).tdiv unit) := by
  have hwrap : int64 (1 * (enddate - startdate)) = int64 (enddate - startdate) := by
    rw [Int.one_mul]
  cases field with
  | microsecond =>
    obtain ⟨rfl, rfl⟩ : 1000000 = scale ∧ 1 = unit := mk.inj (some.inj hfixed)
    show some (int64 (int64 (enddate - startdate) * 1000000)) = _
    rw [Int.tdiv_one]
    unfold int64
    congr 1
    omega
  | millisecond =>
    obtain ⟨rfl, rfl⟩ : 1000 = scale ∧ 1 = unit := mk.inj (some.inj hfixed)
    show some (int64 (int64 (enddate - startdate) * 1000)) = _
    rw [Int.tdiv_one]
    unfold int64
    congr 1
    omega
  | second =>
    obtain ⟨rfl, rfl⟩ : 1 = scale ∧ 1 = unit := mk.inj (some.inj hfixed)
    rw [hwrap, Int.tdiv_one]
    rfl
  | minute | hour | quarterday | day | week =>
    obtain ⟨rfl, rfl⟩ := mk.inj (some.inj hfixed)
    rw [hwrap]
    rfl
  | _ => exact nomatch hfixed

theorem fixedUnit_bounds : 0 < scale ∧ 0 < unit ∧ unit ≤ 604800 ∧ (scale = 1 ∨ unit = 1) := by
  cases field with
  | microsecond | millisecond | second | minute | hour | quarterday | day | week =>
    obtain ⟨rfl, rfl⟩ := mk.inj (some.inj hfixed)
    decide
  | _ => exact nomatch hfixed

/-- The most units that can be added. -/
theorem difference_fixed (n : Int) :
    Difference field startdate enddate n ↔ n = scale * (enddate - startdate) / unit := by
  obtain ⟨-, hunit, -⟩ := fixedUnit_bounds hfixed
  have hgreatest : IsGreatest {k | scale * startdate + unit * k ≤ scale * enddate}
      (scale * (enddate - startdate) / unit) := by
    constructor
    · have hle := Int.mul_ediv_self_le (x := scale * (enddate - startdate)) (k := unit) hunit.ne'
      rw [Int.mul_sub] at hle ⊢
      show scale * startdate + unit * _ ≤ scale * enddate
      omega
    · intro k hk
      have hk' : scale * startdate + unit * k ≤ scale * enddate := hk
      refine Int.le_ediv_of_mul_le hunit ?_
      rw [Int.mul_comm, Int.mul_sub]
      omega
  unfold Difference
  rw [hfixed]
  exact ⟨fun h => h.unique hgreatest, fun h => h ▸ hgreatest⟩

/-- Exactly when the product fits. -/
theorem correct_fixed (hle : startdate ≤ enddate)
    (hlow : -2 ^ 63 ≤ startdate) (hhigh : enddate < 2 ^ 63) :
    Correct field startdate enddate ↔ scale * (enddate - startdate) < 2 ^ 63 := by
  obtain ⟨hscale, hunit, hsmall, hone⟩ := fixedUnit_bounds hfixed
  have hnonneg : 0 ≤ scale * (enddate - startdate) := Int.mul_nonneg hscale.le (by omega)
  have hreturns : ∀ s e n, Returns field s e n ↔ (int64 (scale * (e - s))).tdiv unit = n := by
    intro s e n
    unfold Returns
    simp only [dateDiff_fixed hfixed, some.injEq, exists_const]
  have hswap : scale * (startdate - enddate) = -(scale * (enddate - startdate)) := by
    rw [← Int.mul_neg, Int.neg_sub]
  unfold Correct
  simp only [hreturns, difference_fixed hfixed, hswap, exists_eq_left]
  constructor
  · rintro ⟨h, -⟩
    by_contra hbig
    rcases hone with rfl | rfl
    · -- The difference of two timestamps wraps at most once.
      have hwrap : int64 (1 * (enddate - startdate)) ≤ 0 := by
        unfold int64
        omega
      have hquot := Int.tdiv_nonneg (neg_nonneg.mpr hwrap) hunit.le
      rw [Int.neg_tdiv] at hquot
      have hone : 1 ≤ 1 * (enddate - startdate) / unit :=
        Int.le_ediv_of_mul_le hunit (by omega)
      omega
    · rw [Int.tdiv_one, Int.ediv_one] at h
      unfold int64 at h
      omega
  · intro hfits
    rw [int64_of_fits (by omega) hfits, int64_of_fits (by omega) (by omega), Int.neg_tdiv,
      Int.tdiv_eq_ediv_of_nonneg hnonneg]
    refine ⟨rfl, fun n => ?_⟩
    omega

end

-- ======== all fields

/-- The timestamps: in the years that an `int` can hold, where years count. -/
def InDomain (field : DateField) (timeval : Int) : Prop :=
  match fixedUnit field with
  | some _ => -2 ^ 63 ≤ timeval ∧ timeval < 2 ^ 63
  | none => Supported timeval

instance (field : DateField) (timeval : Int) : Decidable (InDomain field timeval) := by
  unfold InDomain
  split <;> infer_instance

/-- Where a difference is counted right. -/
def Countable (field : DateField) (startdate enddate : Int) : Prop :=
  match fixedUnit field with
  | some (scale, _) => scale * (enddate - startdate) < 2 ^ 63
  | none => ¬ Miscounted field startdate enddate ∧ ¬ Endless field startdate enddate

/-- Exactly when `DateDiff` counts right. -/
theorem dateDiff_correct_iff (field : DateField) (startdate enddate : Int)
    (hfield : field ≠ .invalid) (hs : InDomain field startdate) (he : InDomain field enddate)
    (hle : startdate ≤ enddate) :
    Correct field startdate enddate ↔ Countable field startdate enddate := by
  unfold InDomain at hs he
  unfold Countable
  cases hfixed : fixedUnit field with
  | some units =>
    rw [hfixed] at hs he
    exact correct_fixed hfixed hle hs.1 he.2
  | none =>
    rw [hfixed] at hs he
    by_cases hcalendar : field = .month ∨ field = .quarter ∨ field = .year
    · have hends : ¬ Endless field startdate enddate := by
        rintro ⟨years, hspan, -⟩
        rcases hcalendar with rfl | rfl | rfl <;> exact nomatch hspan
      rw [correct_calendar hcalendar hfixed hs he hle, and_iff_left hends]
    · have hcounted : ¬ Miscounted field startdate enddate := fun h => hcalendar h.1
      obtain ⟨years, hspan⟩ : ∃ years, spanYears field = some years := by
        cases field with
        | month => exact absurd (Or.inl rfl) hcalendar
        | quarter => exact absurd (Or.inr (Or.inl rfl)) hcalendar
        | year => exact absurd (Or.inr (Or.inr rfl)) hcalendar
        | invalid => exact absurd rfl hfield
        | decade | century | millennium => exact ⟨_, rfl⟩
        | _ => exact nomatch hfixed
      rw [correct_span hspan hfixed hs he hle, and_iff_right hcounted]

/-- Two months after 1970. -/
theorem dateDiff_correct_iff_months :
    Correct .month 5000000 10000000 ↔ Countable .month 5000000 10000000 :=
  dateDiff_correct_iff .month 5000000 10000000 (by decide) (by decide) (by decide) (by decide)

/-- From 15 November 1969 to 15 January 1970 three months are counted. -/
theorem dateDiff_miscounts :
    ¬ ∀ field startdate enddate, field ≠ .invalid → InDomain field startdate →
      InDomain field enddate → startdate ≤ enddate → Correct field startdate enddate := by
  intro h
  have hcorrect := h .month (-4060800) 1209600 (by decide) (by decide) (by decide) (by decide)
  have hindex : (grid .month).index (-1) = 23639 := by
    refine (grid .month).index_eq ?_ ?_
    · show 86400 * monthStart 23639 ≤ -1
      decide
    · show -1 < 86400 * monthStart 23640
      decide
  have hfloor : (grid .month).floor (-1) = -2678400 := by
    unfold Grid.floor
    rw [hindex]
    show 86400 * monthStart 23639 = -2678400
    decide
  refine (correct_calendar (Or.inl rfl) rfl (by decide) (by decide) (by decide)).mp hcorrect ?_
  exact ⟨Or.inl rfl, Or.inl ⟨by decide, by rw [hfloor]; decide⟩⟩

example : dateDiff 4 .month (-4060800) 1209600 = some 3 := by decide

end Compass.Calendar
