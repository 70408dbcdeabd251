/-
Where `DateAdd` lands.

The loop of `skip_months` is followed by the days that it is off. The
blocks of four years add the common centuries among them
(`monthStart_add_four_years`); a month that is walked adds nothing, unless
the loop is so far off already that a February is looked up in the wrong
year. So it is off by the excess days where these are few, and by nearly as
many where they are not (`skipMonthsLoop_eq`). In the end `cut_iff` says
for which such numbers the right day comes out.
-/
import Compass.Calendar.Proofs.Paths

namespace Compass.Calendar

open Gregorian Int

variable {mon c k n x e : Int} {rounds : Nat}

-- ======== the months

/-- The years for which the year of a day is found. -/
def YearFits (y : Int) : Prop := -2 ^ 31 + 2400 ≤ y ∧ y < 2 ^ 31

/-- The year is looked up right on every day of it. -/
theorem extractYear_eq {y day : Int} (hy : YearFits y) (hle : yearStart y ≤ day)
    (hlt : day < yearStart (y + 1)) : extractFromTime .kYEAR (86400 * day) = y := by
  obtain ⟨d, hd⟩ := exists_date day
  have hyear : d.year = y := Date.year_eq (hd ▸ hle) (hd ▸ hlt)
  have hday : d.dayNumber = 86400 * day / 86400 := by omega
  simp only [extractFromTime]
  split
  · next hfast => rw [extractYearFast_eq hfast hday, hyear]
  · rw [extractSlow_year hday, hyear, int32_of_fits (by have := hy.1; omega) hy.2]

/-- The seconds of a month: its days, but for a February of another year. -/
theorem monthSeconds_eq (x k : Int) :
    ∃ days, monthSeconds x (k % 12) = 86400 * days
      ∧ (k % 12 ≠ 1 ∨ extractFromTime .kYEAR x = k / 12 → days = monthLength (k / 12) (k % 12))
      ∧ monthLength (k / 12) (k % 12) - 1 ≤ days ∧ days ≤ monthLength (k / 12) (k % 12) + 1 := by
  have hm := emod_nonneg k (by omega : (12 : Int) ≠ 0)
  have hlt := emod_lt_of_pos k (by omega : (0 : Int) < 12)
  have hleap := leapDay_bounds (k / 12)
  refine ⟨_, mul_comm _ _, ?_⟩
  rw [entry_monthLengths_leap hm hlt]
  unfold monthLength
  by_cases hfeb : k % 12 = 1
  · simp only [hfeb, if_true, true_and, ne_eq, not_true_eq_false, false_or]
    refine ⟨fun hyear => ?_, by split <;> omega, by split <;> omega⟩
    rw [hyear]
    simp only [isLeap, decide_eq_true_eq, tmod_isLeap, leapDay]
    split <;> rfl
  · simp [hfeb]

/-- The Februaries before a month. -/
def februaries (k : Int) : Int := (k + 10) / 12

-- ======== the walk

/-- The number of a month in its year, as the loop has it going on. -/
theorem tmod_forward (h : 0 ≤ mon + c) (hk : (mon + c) % 12 = k % 12) :
    (mon + c).tmod monsPerYear = k % 12 := by
  rw [tmod_eq_emod_of_nonneg h]
  exact hk

/-- And going back. -/
theorem tmod_backward (hk : (mon - c) % 12 = k % 12) :
    ((mon - 1 - c).tmod monsPerYear + monsPerYear).tmod monsPerYear = (k - 1) % 12 := by
  unfold monsPerYear
  rw [tmod_eq, tmod_eq]
  split <;> split <;> omega

/-- The years of the months from one to another are found. -/
def YearsFit (k l : Int) : Prop := -2 ^ 31 + 2400 ≤ k / 12 ∧ l / 12 < 2 ^ 31

/-- The year is found at the end of January and of February, and not only
there. -/
theorem extractYear_month (hyears : YearsFit k k)
    (h : k % 12 = 1 ∧ 0 ≤ e ∧ e ≤ 36 ∨ k % 12 = 2 ∧ -36 ≤ e ∧ e ≤ 1) :
    extractFromTime .kYEAR (86400 * (monthStart k - 1 + e)) = k / 12 := by
  have hstart := monthStart_month (y := k / 12) (m := k % 12) (by omega) (by omega)
  rw [monthOffset_eq (by omega) (by omega), mul_ediv_add_emod] at hstart
  have hleap := leapDay_bounds (k / 12)
  refine extractYear_eq hyears ?_ ?_
  · rcases h with ⟨hm, h⟩ | ⟨hm, h⟩ <;> rw [hm] at hstart <;> omega
  · rw [yearStart_succ]
    unfold yearLength
    rcases h with ⟨hm, h⟩ | ⟨hm, h⟩ <;> rw [hm] at hstart <;> omega

/-- Off by `e'` where it was off by `e`, after some Februaries. -/
structure Drift (februaries e e' : Int) : Prop where
  low : e - februaries ≤ e'
  high : e' ≤ e + februaries

/-- Forward, or back. -/
def Direction (δ : Int) : Prop := δ = 1 ∨ δ = -1

/-- So little off that the Februaries are looked up in their years. -/
def Near (δ e : Int) : Prop := δ = 1 ∧ 0 ≤ e ∧ e ≤ 36 ∨ δ = -1 ∧ -36 ≤ e ∧ e ≤ 1

/-- A month on: its seconds are those of the month `m`. -/
theorem step_month {δ m : Int} (hm : δ = 1 ∧ m = k ∨ δ = -1 ∧ m = k - 1)
    (hlow : -2 ^ 42 ≤ monthStart m) (hhigh : monthStart (m + 1) ≤ 2 ^ 42)
    (he : -2 ^ 42 ≤ e) (he' : e ≤ 2 ^ 42) :
    ∃ e', int64 (86400 * (monthStart k - 1 + e)
          + δ * monthSeconds (86400 * (monthStart k - 1 + e)) (m % 12))
        = 86400 * (monthStart (k + δ) - 1 + e')
      ∧ Drift (δ * (februaries (k + δ) - februaries k)) e e'
      ∧ (Near δ e → YearsFit k k → e' = e) := by
  obtain ⟨days, hdays, hexact, hlo, hhi⟩ := monthSeconds_eq (86400 * (monthStart k - 1 + e)) m
  have hsucc := monthStart_succ m
  have hlength := monthLength_bounds (m / 12) (m % 12)
  have hfeb : m % 12 = 1 → Near δ e → YearsFit k k →
      days = monthLength (m / 12) (m % 12) := fun hfeb hnear hyears => by
    refine hexact (.inr ?_)
    rw [extractYear_month hyears (by unfold Near at hnear; omega)]
    omega
  refine ⟨e + δ * (days - monthLength (m / 12) (m % 12)), ?_, ?_, fun hnear hyears => ?_⟩
  · rw [hdays]
    rcases hm with ⟨rfl, rfl⟩ | ⟨rfl, rfl⟩
    · rw [int64_of_fits (by omega) (by omega)]
      omega
    · rw [sub_add_cancel] at hsucc hhigh
      rw [int64_of_fits (by omega) (by omega), show k + -1 = k - 1 by omega]
      omega
  · unfold februaries
    by_cases hm1 : m % 12 = 1
    · rcases hm with ⟨rfl, rfl⟩ | ⟨rfl, rfl⟩ <;> constructor <;> omega
    · have hsame := hexact (.inl hm1)
      rcases hm with ⟨rfl, rfl⟩ | ⟨rfl, rfl⟩ <;> constructor <;> omega
  · have hsame : days = monthLength (m / 12) (m % 12) := by
      by_cases hm1 : m % 12 = 1
      · exact hfeb hm1 hnear hyears
      · exact hexact (.inl hm1)
    rw [hsame, sub_self, mul_zero, add_zero]

/-- One turn of the loop. -/
theorem skipMonthsLoop_step {δ : Int} {steps : Nat} (rounds : Nat) (x : Int) (hδ : Direction δ)
    (hsteps : steps + 1 < 48) (hc : δ = 1 → 0 ≤ mon + c) (hk : (mon + δ * c) % 12 = k % 12) :
    ∃ m, (δ = 1 ∧ m = k ∨ δ = -1 ∧ m = k - 1)
      ∧ skipMonthsLoop mon (rounds + 1) x (δ * (steps + 1 : Nat)) c
        = skipMonthsLoop mon rounds (int64 (x + δ * monthSeconds x (m % 12))) (δ * steps)
          (c + 1) := by
  rw [skipMonthsLoop]
  rcases hδ with rfl | rfl
  · refine ⟨k, .inl ⟨rfl, rfl⟩, ?_⟩
    rw [if_neg (by omega), if_neg (by omega), if_pos (by omega)]
    dsimp only
    rw [tmod_forward (k := k) (hc rfl) (by omega), one_mul, one_mul]
    congr 1
    omega
  · refine ⟨k - 1, .inr ⟨rfl, rfl⟩, ?_⟩
    rw [if_neg (by omega), if_neg (by omega), if_neg (by omega), if_neg (by omega)]
    dsimp only
    rw [tmod_backward (k := k) (by omega), neg_one_mul, neg_one_mul, ← sub_eq_add_neg]
    congr 1
    omega

/-- The walk of less than four years. -/
theorem walk {δ : Int} {steps : Nat} (hδ : Direction δ) (hsteps : steps < 48)
    (hrounds : steps ≤ rounds) (hc : δ = 1 → 0 ≤ mon + c) (hk : (mon + δ * c) % 12 = k % 12)
    (hstart : |monthStart k| ≤ 2 ^ 42) (hend : |monthStart (k + δ * steps)| ≤ 2 ^ 42)
    (he : -2 ^ 42 + steps ≤ e) (he' : e + steps ≤ 2 ^ 42) :
    ∃ e', skipMonthsLoop mon rounds (86400 * (monthStart k - 1 + e)) (δ * steps) c
        = some (86400 * (monthStart (k + δ * steps) - 1 + e'))
      ∧ Drift (δ * (februaries (k + δ * steps) - februaries k)) e e'
      ∧ (Near δ e → YearsFit k k → YearsFit (k + δ * steps) (k + δ * steps) → e' = e) := by
  induction steps generalizing rounds c k e with
  | zero =>
    refine ⟨e, ?_, ⟨by simp, by simp⟩, fun _ _ _ => rfl⟩
    cases rounds <;> simp [skipMonthsLoop]
  | succ steps ih =>
    obtain ⟨rounds, rfl⟩ : ∃ r, rounds = r + 1 := ⟨rounds - 1, by omega⟩
    have hlast : k + δ * (steps + 1 : Nat) = k + δ + δ * steps := by
      rcases hδ with rfl | rfl <;> omega
    rw [hlast] at hend ⊢
    rw [abs_le] at hstart hend
    have hmono := monthStart_strictMono.monotone
    have hnext : monthStart (k + δ) ≤ 2 ^ 42 ∧ -2 ^ 42 ≤ monthStart (k + δ) := by
      rcases hδ with rfl | rfl
      · have h := hmono (show k ≤ k + 1 by omega)
        have h' := hmono (show k + 1 ≤ k + 1 + 1 * steps by omega)
        omega
      · have h := hmono (show k + -1 ≤ k by omega)
        have h' := hmono (show k + -1 + -1 * steps ≤ k + -1 by omega)
        omega
    obtain ⟨m, hm, hturn⟩ := skipMonthsLoop_step rounds (86400 * (monthStart k - 1 + e)) hδ
      hsteps hc hk
    have hbounds : -2 ^ 42 ≤ monthStart m ∧ monthStart (m + 1) ≤ 2 ^ 42 := by
      rcases hm with ⟨rfl, rfl⟩ | ⟨rfl, rfl⟩
      · exact ⟨hstart.1, hnext.1⟩
      · rw [sub_add_cancel]
        exact ⟨hnext.2, hstart.2⟩
    obtain ⟨e₁, hstep, hdrift, hexact⟩ :=
      step_month hm hbounds.1 hbounds.2 (show -2 ^ 42 ≤ e by omega) (by omega)
    have hone : δ * (februaries (k + δ) - februaries k) ≤ 1 := by
      unfold februaries
      rcases hδ with rfl | rfl <;> omega
    have hlo := hdrift.low
    have hhi := hdrift.high
    obtain ⟨e₂, hrest, hdrift₂, hexact₂⟩ := @ih (c + 1) (k + δ) e₁ rounds (by omega)
      (by omega) (by omega) (by rcases hδ with rfl | rfl <;> omega) (abs_le.2 ⟨hnext.2, hnext.1⟩)
      (abs_le.2 hend) (by omega) (by omega)
    refine ⟨e₂, ?_, ?_, fun hnear hy hy' => ?_⟩
    · rw [hturn, hstep]
      exact hrest
    · have hlo₂ := hdrift₂.low
      have hhi₂ := hdrift₂.high
      rcases hδ with rfl | rfl <;> constructor <;> omega
    · have hmid : YearsFit (k + δ) (k + δ) := by
        unfold YearsFit at *
        rcases hδ with rfl | rfl <;> omega
      have hsame := hexact hnear hy
      rw [hexact₂ (hsame ▸ hnear) hmid hy', hsame]

-- ======== the loop

theorem month_bounds (h : -2 ^ 40 ≤ monthStart k) (h' : monthStart k ≤ 2 ^ 40) :
    -12 * 2 ^ 32 < k ∧ k < 12 * 2 ^ 32 := by
  have hlow : monthStart (12 * -2 ^ 32) < monthStart k := by
    rw [monthStart_year]
    unfold yearStart
    omega
  have hhigh : monthStart k < monthStart (12 * 2 ^ 32) := by
    rw [monthStart_year]
    unfold yearStart
    omega
  have h1 := monthStart_strictMono.lt_iff_lt.mp hlow
  have h2 := monthStart_strictMono.lt_iff_lt.mp hhigh
  omega

/-- The blocks in a number of months, and what is left of it. -/
theorem blocks_spec (n : Int) :
    48 * n.tdiv 48 + n.tmod 48 = n ∧ (0 ≤ n → 0 ≤ n.tmod 48 ∧ n.tmod 48 < 48)
      ∧ (n ≤ 0 → -48 < n.tmod 48 ∧ n.tmod 48 ≤ 0) := by
  refine ⟨mul_tdiv_add_tmod n 48, fun h => ?_, fun h => ?_⟩ <;> rw [tmod_eq] <;> split <;>
    omega

theorem tdiv_small (h : -48 < n) (h' : n < 48) : n.tdiv 48 = 0 := by
  rw [tdiv_eq]
  split <;> omega

/-- What is left of a number of months, with the blocks skipped. -/
theorem skip_blocks (mon : Int) {a : Int} (hrounds : 48 ≤ rounds) (hx : -2 ^ 41 ≤ monthStart k + a)
    (hx' : monthStart k + a ≤ 2 ^ 41) (hn : -2 ^ 38 < n) (hn' : n < 2 ^ 38) :
    ∃ rounds', 47 ≤ rounds' ∧
      skipMonthsLoop mon rounds (86400 * (monthStart k - 1 + a)) n 0
        = skipMonthsLoop mon rounds'
          (86400 * (monthStart (k + 48 * n.tdiv 48) - 1 + (a + excessDays k n))) (n.tmod 48) 0 := by
  have hblocks := monthStart_add_four_years k (n.tdiv 48)
  rw [show commonCenturies ((k + 48 * n.tdiv 48 - 2) / 12) - commonCenturies ((k - 2) / 12)
    = excessDays k n from rfl] at hblocks
  obtain ⟨hsplit, hrest, hrest'⟩ := blocks_spec n
  have hdone : (n.tmod 48).tdiv 48 = 0 := tdiv_small (by omega) (by omega)
  have hdone' : (-n.tmod 48).tdiv 48 = 0 := tdiv_small (by omega) (by omega)
  have hneg : (-n).tdiv 48 = -n.tdiv 48 := Int.neg_tdiv n 48
  have hneg' : -(-n).tmod 48 = n.tmod 48 := by rw [Int.neg_tmod, Int.neg_neg]
  obtain ⟨rounds, rfl⟩ : ∃ r, rounds = r + 1 := ⟨rounds - 1, by omega⟩
  by_cases hforward : 48 ≤ n
  · refine ⟨rounds, by omega, ?_⟩
    rw [skipMonthsLoop, if_neg (by omega), if_pos hforward]
    unfold daysPer4Years secsPerDay
    dsimp only
    rw [hdone, int64_of_fits (by omega) (by omega), hblocks]
    congr 1
    omega
  · by_cases hback : n ≤ -48
    · refine ⟨rounds, by omega, ?_⟩
      rw [skipMonthsLoop, if_neg (by omega), if_neg hforward, if_neg (by omega), if_pos hback]
      unfold daysPer4Years secsPerDay
      dsimp only
      rw [hneg', hdone', hneg, int64_of_fits (by omega) (by omega), hblocks]
      congr 1
      omega
    · have hnone : n.tdiv 48 = 0 := tdiv_small (by omega) (by omega)
      have hall : n.tmod 48 = n := by omega
      refine ⟨rounds + 1, by omega, ?_⟩
      rw [hall, hblocks, hnone]
      congr 1
      omega

/-- The loop is off by the excess where that is small, and else by no more
than a February for each of the last years from it. `a` is what the first
month is off by. -/
theorem skipMonthsLoop_eq {a : Int} (hrounds : 48 ≤ rounds) (hmon : 0 ≤ mon)
    (hk : mon % 12 = k % 12) (ha : 0 ≤ a) (ha' : a ≤ 1) (hsize : -2 ^ 40 ≤ monthStart k)
    (hsize' : monthStart k ≤ 2 ^ 40) (htarget : -2 ^ 40 ≤ monthStart (k + n))
    (htarget' : monthStart (k + n) ≤ 2 ^ 40) :
    ∃ e, skipMonthsLoop mon rounds (86400 * (monthStart k - 1 + a)) n 0
        = some (86400 * (monthStart (k + n) - 1 + a + e))
      ∧ Drift 4 (excessDays k n) e
      ∧ (-35 ≤ excessDays k n → excessDays k n ≤ 35 → YearsFit k k → YearsFit (k + n) (k + n) →
        e = excessDays k n) := by
  obtain ⟨hkl, hkh⟩ := month_bounds hsize hsize'
  obtain ⟨htl, hth⟩ := month_bounds htarget htarget'
  obtain ⟨rounds', hrounds', hskip⟩ :=
    skip_blocks mon (k := k) (n := n) (a := a) hrounds (by omega) (by omega) (by omega)
      (by omega)
  rw [hskip]
  have hexcess : excessDays k n = commonCenturies ((k + 48 * n.tdiv 48 - 2) / 12)
      - commonCenturies ((k - 2) / 12) := rfl
  obtain ⟨hsplit, hrest, hrest'⟩ := blocks_spec n
  have hmono := monthStart_strictMono.monotone
  generalize n.tdiv 48 = q at *
  generalize hr : n.tmod 48 = r at *
  obtain ⟨δ, steps, hδ, hsign, hsteps, rfl⟩ : ∃ (δ : Int) (steps : Nat), Direction δ
      ∧ (δ = 1 ∧ 0 ≤ n ∨ δ = -1 ∧ n ≤ 0) ∧ steps < 48 ∧ r = δ * steps := by
    rcases le_total 0 n with h | h
    · exact ⟨1, r.toNat, .inl rfl, .inl ⟨rfl, h⟩, by omega, by omega⟩
    · exact ⟨-1, (-r).toNat, .inr rfl, .inr ⟨rfl, h⟩, by omega, by omega⟩
  have hend : k + n = k + 48 * q + δ * steps := by omega
  -- the blocks end between the two months
  have hblocks : |monthStart (k + 48 * q)| ≤ 2 ^ 40
      ∧ (δ = 1 ∧ 0 ≤ excessDays k n ∨ δ = -1 ∧ excessDays k n ≤ 0) := by
    rw [abs_le]
    rcases hsign with ⟨rfl, h⟩ | ⟨rfl, h⟩
    · have h₁ := commonCenturies_mono (show (k - 2) / 12 ≤ (k + 48 * q - 2) / 12 by omega)
      have h₂ := hmono (show k ≤ k + 48 * q by omega)
      have h₃ := hmono (show k + 48 * q ≤ k + n by omega)
      omega
    · have h₁ := commonCenturies_mono (show (k + 48 * q - 2) / 12 ≤ (k - 2) / 12 by omega)
      have h₂ := hmono (show k + 48 * q ≤ k by omega)
      have h₃ := hmono (show k + n ≤ k + 48 * q by omega)
      omega
  have hbound : -2 ^ 40 ≤ excessDays k n ∧ excessDays k n ≤ 2 ^ 40 := by
    unfold commonCenturies at hexcess
    rcases hsign with ⟨rfl, h⟩ | ⟨rfl, h⟩ <;> omega
  rw [hend] at htarget htarget' ⊢
  obtain ⟨e, he, hdrift, hexact⟩ :=
    @walk mon 0 (k + 48 * q) (a + excessDays k n) rounds' δ steps hδ hsteps (by omega) (by omega)
      (by omega) (hblocks.1.trans (by norm_num)) (abs_le.2 (by omega)) (by omega) (by omega)
  have hfebs : δ * (februaries (k + 48 * q + δ * steps) - februaries (k + 48 * q)) ≤ 4 := by
    unfold februaries
    rcases hδ with rfl | rfl <;> omega
  have hlo := hdrift.low
  have hhi := hdrift.high
  refine ⟨e - a, ?_, ⟨by omega, by omega⟩, fun hfew hmany hy hy' => ?_⟩
  · rw [he]
    congr 2
    omega
  · have hmid : YearsFit (k + 48 * q) (k + 48 * q) := by
      unfold YearsFit at *
      rcases hsign with ⟨rfl, h⟩ | ⟨rfl, h⟩ <;> omega
    rw [hexact (by unfold Near; omega) hmid hy']
    omega

-- ======== the day of a month

/-- Where the right day comes out: `e` is what the loop was off by, and `f`
the date that it leads to. -/
theorem cut_iff {d f : Date} (hf : f.dayNumber = monthStart k - 1 + d.day + e) :
    (if f.day < d.day then f.dayNumber - f.day else f.dayNumber)
        = monthStart k - 1 + min d.day (monthLength (k / 12) (k % 12))
      ↔ e = 0 ∨ 0 ≤ d.day - monthLength (k / 12) (k % 12)
          ∧ 1 ≤ d.day - monthLength (k / 12) (k % 12) + e
          ∧ d.day - monthLength (k / 12) (k % 12) + e
            ≤ monthLength ((k + 1) / 12) ((k + 1) % 12)
          ∧ e < monthLength (k / 12) (k % 12) := by
  have hsucc := monthStart_succ k
  have hsucc' := monthStart_succ (k + 1)
  have hlength := monthLength_bounds (k / 12) (k % 12)
  have hlength' := monthLength_bounds ((k + 1) / 12) ((k + 1) % 12)
  have hd := d.day_pos
  have hd' := d.day_le
  have hmax := monthLength_bounds d.year d.month
  have hnumber := f.dayNumber_eq
  have hpos := f.day_pos
  have hmonth := f.dayNumber_mem_month
  generalize monthLength (k / 12) (k % 12) = len at *
  generalize monthLength ((k + 1) / 12) ((k + 1) % 12) = len' at *
  constructor
  · intro h
    split at h
    · -- the last day before the month of `f` is the last one of the month
      have hlow : k < f.monthNumber := monthStart_strictMono.lt_iff_lt.mp (by omega)
      have hhigh : f.monthNumber ≤ k + 1 := monthStart_strictMono.le_iff_le.mp (by omega)
      obtain hnext : f.monthNumber = k + 1 := by omega
      rw [hnext] at hnumber hmonth
      omega
    · by_cases he : e = 0
      · exact .inl he
      · have hsame : f.monthNumber = k := Date.monthNumber_eq (by omega) (by omega)
        rw [hsame] at hnumber
        omega
  · intro h
    by_cases hin : e = 0 ∧ d.day ≤ len
    · have hsame : f.monthNumber = k := Date.monthNumber_eq (by omega) (by omega)
      rw [hsame] at hnumber
      rw [if_neg (by omega)]
      omega
    · have hnext : f.monthNumber = k + 1 := Date.monthNumber_eq (by omega) (by omega)
      rw [hnext] at hnumber
      rw [if_pos (by omega)]
      omega

-- ======== the result

/-- The truncating division by the seconds of a day. -/
theorem tdiv_day (t : Int) :
    ∃ a, 0 ≤ a ∧ a ≤ 1 ∧ t.tdiv secsPerDay = t / 86400 + a
      ∧ t.tmod secsPerDay = t % 86400 - 86400 * a := by
  unfold secsPerDay
  refine ⟨t.tdiv 86400 - t / 86400, ?_⟩
  rw [tdiv_eq, tmod_eq]
  split <;> omega

/-- The month of a supported timestamp is not far. -/
theorem Supported.month_bounds {t : Int} {d : Date} (hs : Supported t)
    (hd : d.dayNumber = t / 86400) :
    -2 ^ 40 ≤ monthStart d.monthNumber ∧ monthStart d.monthNumber ≤ 2 ^ 40
      ∧ YearsFit d.monthNumber d.monthNumber := by
  obtain ⟨hyear, hyear'⟩ := hs.year_bounds hd
  obtain ⟨hlow, hhigh⟩ := hs
  have hnumber := d.dayNumber_eq
  have hpos := d.day_pos
  have hle := d.day_le
  have hlength := monthLength_bounds d.year d.month
  unfold YearsFit
  rw [d.monthNumber_div]
  unfold yearStart at hlow hhigh
  exact ⟨by omega, by omega, hyear, hyear'⟩

theorem excessDays_bounds (hk : -12 * 2 ^ 32 < k) (hk' : k < 12 * 2 ^ 32)
    (hn : -12 * 2 ^ 32 < k + n) (hn' : k + n < 12 * 2 ^ 32) :
    -2 ^ 40 ≤ excessDays k n ∧ excessDays k n ≤ 2 ^ 40 := by
  obtain ⟨hsplit, hrest, hrest'⟩ := blocks_spec n
  unfold excessDays commonCenturies
  omega

/-- `skip_months` gives the time of day so many months later if and only if
the excess days do no harm. -/
theorem skipMonths_iff {t : Int} {d : Date} (hd : d.dayNumber = t / 86400) (hs : Supported t)
    (ht : Supported (monthsLater d t n)) (hrounds : 48 ≤ rounds) :
    skipMonths rounds t n = some (monthsLater d t n) ↔ LandsRight d n := by
  have htarget : (d.addMonths n).dayNumber = monthsLater d t n / 86400 := by
    unfold monthsLater
    omega
  obtain ⟨hsize, hsize', hyear⟩ := hs.month_bounds hd
  obtain ⟨htsize, htsize', htyear⟩ := ht.month_bounds htarget
  rw [Date.monthNumber_addMonths] at htsize htsize' htyear
  obtain ⟨hk, hk'⟩ := month_bounds hsize hsize'
  obtain ⟨hkn, hkn'⟩ := month_bounds htsize htsize'
  obtain ⟨hexcess, hexcess'⟩ := excessDays_bounds hk hk' hkn hkn'
  obtain ⟨a, ha, ha', hday, htod⟩ := tdiv_day t
  have hnumber := d.dayNumber_eq
  have hpos := d.day_pos
  have hle := d.day_le
  have hlength := monthLength_bounds d.year d.month
  have hmon : d.month % 12 = d.monthNumber % 12 := by
    unfold Date.monthNumber
    omega
  obtain ⟨e, he, hdrift, hexact⟩ :=
    skipMonthsLoop_eq (n := n) hrounds d.month_nonneg hmon ha ha' hsize hsize' htsize htsize'
  have hlo := hdrift.low
  have hhi := hdrift.high
  -- the date before the cut, and the seconds of the loop's way to it
  obtain ⟨f, hf⟩ := exists_date (monthStart (d.monthNumber + n) - 1 + d.day + e)
  have hfpos := f.day_pos
  have hfle := f.day_le
  have hflength := monthLength_bounds f.year f.month
  have hfirst : int64 ((t / 86400 + a) * secsPerDay - d.day * secsPerDay)
      = 86400 * (monthStart d.monthNumber - 1 + a) := by
    unfold secsPerDay
    rw [int64_of_fits (by omega) (by omega)]
    omega
  have hnew : int64 (86400 * (monthStart (d.monthNumber + n) - 1 + a + e) + d.day * secsPerDay
      + (t % 86400 - 86400 * a)) = 86400 * f.dayNumber + t % 86400 := by
    unfold secsPerDay
    rw [int64_of_fits (by omega) (by omega)]
    omega
  have hcut : int64 (86400 * f.dayNumber + t % 86400 - f.day * secsPerDay)
      = 86400 * (f.dayNumber - f.day) + t % 86400 := by
    unfold secsPerDay
    rw [int64_of_fits (by omega) (by omega)]
    omega
  have hfday : f.dayNumber = (86400 * f.dayNumber + t % 86400) / 86400 := by omega
  unfold skipMonths
  rw [gmtimeRNewlib_eq hd]
  dsimp only
  rw [hday, htod, hfirst, he, Option.map_some, hnew, gmtimeRNewlib_eq hfday, hcut, Option.some_inj]
  have hdays : (if f.day < d.day then 86400 * (f.dayNumber - f.day) + t % 86400
      else 86400 * f.dayNumber + t % 86400) = monthsLater d t n
      ↔ (if f.day < d.day then f.dayNumber - f.day else f.dayNumber)
        = (d.addMonths n).dayNumber := by
    unfold monthsLater
    split <;> omega
  rw [hdays, Date.dayNumber_addMonths, cut_iff hf]
  unfold LandsRight
  dsimp only
  by_cases hfew : -35 ≤ excessDays d.monthNumber n ∧ excessDays d.monthNumber n ≤ 35
  · rw [hexact hfew.1 hfew.2 hyear htyear]
  · -- off by too much, either way
    have hk := monthLength_bounds ((d.monthNumber + n) / 12) ((d.monthNumber + n) % 12)
    constructor
    · intro h
      omega
    · intro h
      omega

/-- `DateAdd` of months and their multiples is the time of day so many
months later if and only if the excess days do no harm. -/
theorem dateAdd_months_iff {field : DateaddField} {unit number t : Int} {d : Date}
    (hfield : monthsOf field = some unit) (hd : d.dayNumber = t / 86400) (hs : Supported t)
    (ht : Supported (monthsLater d t (unit * number))) (hrounds : 48 ≤ rounds) :
    dateAdd rounds field number t = some (monthsLater d t (unit * number))
      ↔ LandsRight d (unit * number) := by
  have htarget : (d.addMonths (unit * number)).dayNumber
      = monthsLater d t (unit * number) / 86400 := by
    unfold monthsLater
    omega
  obtain ⟨hsize, hsize', -⟩ := hs.month_bounds hd
  obtain ⟨htsize, htsize', -⟩ := ht.month_bounds htarget
  rw [Date.monthNumber_addMonths] at htsize htsize'
  have hk := month_bounds hsize hsize'
  have hkn := month_bounds htsize htsize'
  have hadd : dateAdd rounds field number t = skipMonths rounds t (int64 (unit * number)) := by
    cases field <;> simp_all [monthsOf, dateAdd]
  rw [hadd, int64_of_fits (by omega) (by omega)]
  exact skipMonths_iff hd hs ht hrounds

/-- Half a year after 31 August 2003 is the last of February 2004. -/
theorem dateAdd_months_iff_february :
    dateAdd 48 .quarter 2 1062331200 = some (monthsLater
        ⟨2003, 7, 31, by decide, by decide, by decide, by decide⟩ 1062331200 (3 * 2))
      ↔ LandsRight ⟨2003, 7, 31, by decide, by decide, by decide, by decide⟩ (3 * 2) :=
  dateAdd_months_iff (by decide) (by decide) (by decide) (by decide) (by decide)

/-- Four years after 1 January 2097 the loop is at 2 January. -/
theorem dateAdd_months_off :
    let d : Date := ⟨2097, 0, 1, by decide, by decide, by decide, by decide⟩
    d.dayNumber = 4007836800 / 86400
      ∧ dateAdd 48 .year 4 4007836800 = some (monthsLater d 4007836800 (12 * 4) + 86400)
      ∧ dateAdd 48 .year 4 4007836800 ≠ some (monthsLater d 4007836800 (12 * 4)) := by
  decide

end Compass.Calendar
