/-
What the retry loop of `Executor::executeWorkUnit` reports.

A turn is taken apart by what its attempt answers (`execute_done`,
`execute_dispatchOverflows`, `execute_reductionOverflows`), and a run by its
first turn (`Reaches.cases_first`): it ends with the turn (`Ends.of_first`)
or goes on as the run that starts there (`Ends.of_next`). The width doubles
with every turn that is taken again, so no run takes more turns than the
greatest width has room for, and the last one decides the code.
-/
import Compass.Execution.WorkUnit

namespace Compass.Execution

variable {R : Type}

-- ======== a turn

variable {options : Options} {start width width' i : Nat} {code : Int} {attempt : Attempt R}
  {attempts : Nat → Attempt R} {rows : RowSet R} {outcome : Outcome R}

theorem le_compile (width : Nat) (widths : List Nat) : width ≤ compile width widths :=
  le_max_right _ _

theorem turn_compact (width : Nat) {widths : List Nat}
    (hcompiled : attempt.compiled = .compact widths) (hexplain : options.justExplain = false) :
    turn options width attempt = execute options (compile width widths) attempt := by
  simp [turn, hcompiled, hexplain]

theorem errorCode_eq_overflow :
    attempt.errorCode options = some errOverflowOrUnderflow
      ↔ attempt.DispatchOverflows options := by
  unfold Attempt.errorCode Attempt.DispatchOverflows
  cases options.justValidate
  · cases attempt.dispatched with
    | none => simp
    | some code =>
      simp only [errOverflowOrUnderflow, errOutOfTime, errInterrupted, Option.map_some]
      grind
  · simp [errOverflowOrUnderflow]

theorem errorCode_eq_zero :
    attempt.errorCode options = some 0
      ↔ options.justValidate = true ∨ attempt.dispatched = some 0 := by
  unfold Attempt.errorCode
  cases options.justValidate
  · cases attempt.dispatched with
    | none => simp
    | some code =>
      simp only [errOutOfTime, errInterrupted, Option.map_some]
      grind
  · simp

theorem execute_dispatchOverflows (h : attempt.DispatchOverflows options) :
    execute options width attempt = .again errOverflowOrUnderflow (2 * width) := by
  simp [execute, errorCode_eq_overflow.2 h]

theorem execute_reductionOverflows (h : attempt.ReductionOverflows options) :
    execute options width attempt = .again 0 (2 * width) := by
  obtain ⟨hagg, hdispatched, hcollected⟩ := h
  simp [execute, errorCode_eq_zero.2 hdispatched, hagg, hcollected, errOverflowOrUnderflow]

/-- An attempt that does not overflow ends the loop, without an error only if
it has completed. -/
theorem execute_done (width : Nat) (hdispatch : ¬ attempt.DispatchOverflows options)
    (hreduction : ¬ attempt.ReductionOverflows options) :
    ∃ outcome, execute options width attempt = .done outcome
      ∧ ∀ rows, outcome = .returns 0 rows →
        (options.justValidate = true ∨ attempt.dispatched = some 0)
          ∧ ∃ result, rows = .of result
            ∧ if options.isAgg then attempt.collected = .result result
              else result = attempt.unioned := by
  rw [← errorCode_eq_overflow] at hdispatch
  cases hcode : attempt.errorCode options with
  | none => exact ⟨.threw, by simp [execute, hcode], by simp⟩
  | some code =>
    by_cases hzero : code = 0
    · subst hzero
      have hok := errorCode_eq_zero.1 hcode
      cases hagg : options.isAgg
      · refine ⟨.returns 0 (.of attempt.unioned), ?_, ?_⟩
        · simp [execute, hcode, hagg, errOverflowOrUnderflow]
        · rintro rows ⟨⟩
          exact ⟨hok, _, rfl, rfl⟩
      · cases hcollected : attempt.collected with
        | result rows =>
          refine ⟨.returns 0 (.of rows), ?_, ?_⟩
          · simp [execute, hcode, hagg, hcollected, errOverflowOrUnderflow]
          · rintro rows ⟨⟩
            exact ⟨hok, _, rfl, rfl⟩
        | ranOutOfSlots =>
          refine ⟨.returns errOutOfSlots .empty, ?_, ?_⟩
          · simp [execute, hcode, hagg, hcollected, errOverflowOrUnderflow]
          · rintro rows ⟨⟩
        | overflow => exact absurd ⟨hagg, hok, hcollected⟩ hreduction
        | threw =>
          refine ⟨.threw, ?_, by simp⟩
          simp [execute, hcode, hagg, hcollected, errOverflowOrUnderflow]
    · have hoverflow : code ≠ errOverflowOrUnderflow := fun h => hdispatch (h ▸ hcode)
      refine ⟨.returns code .empty, ?_, ?_⟩
      · simp [execute, hcode, hoverflow, hzero]
      · rintro rows ⟨⟩
        exact absurd rfl hzero

-- ======== a run

/-- The attempts behind the first one. -/
theorem Reaches.shift (hturn : turn options start (attempts 0) = .again code width')
    (hle : width' ≤ maxByteWidthSupported)
    (h : Reaches options width' (fun i => attempts (i + 1)) i width) :
    Reaches options start attempts (i + 1) width := by
  induction h with
  | first => exact .next .first hturn hle
  | next _ hnext hle' ih => exact .next ih hnext hle'

theorem Reaches.cases_first (h : Reaches options start attempts i width) :
    (i = 0 ∧ width = start)
      ∨ ∃ code width' j, turn options start (attempts 0) = .again code width'
        ∧ width' ≤ maxByteWidthSupported ∧ i = j + 1
        ∧ Reaches options width' (fun i => attempts (i + 1)) j width := by
  induction h with
  | first => exact .inl ⟨rfl, rfl⟩
  | next hreach hnext hle ih =>
    right
    rcases ih with ⟨rfl, rfl⟩ | ⟨code, width', j, hturn, hle', rfl, hreach'⟩
    · exact ⟨_, _, 0, hnext, hle, rfl, .first⟩
    · exact ⟨code, width', j + 1, hturn, hle', rfl, .next hreach' hnext hle⟩

/-- How a run ends, the reduction's overflow at the greatest width included. -/
structure Ends (options : Options) (start : Nat) (attempts : Nat → Attempt R)
    (outcome : Outcome R) : Prop where
  success : ∀ rows, outcome = .returns 0 rows → ∃ i width, Reaches options start attempts i width
    ∧ ((∃ result, rows = .of result ∧ (attempts i).Completed options result)
      ∨ (attempts i).Widest options width ∧ (attempts i).ReductionOverflows options)
  dispatch : ∀ i width, Reaches options start attempts i width →
    (attempts i).Widest options width → (attempts i).DispatchOverflows options →
    outcome = .returns errOverflowOrUnderflow .empty
  reduction : ∀ i width, Reaches options start attempts i width →
    (attempts i).Widest options width → (attempts i).ReductionOverflows options →
    outcome = .returns 0 .empty

/-- A run that ends with its first attempt. -/
theorem Ends.of_first (honce : ∀ i width, Reaches options start attempts i width →
      i = 0 ∧ width = start)
    (hsuccess : ∀ rows, outcome = .returns 0 rows →
      (∃ result, rows = .of result ∧ (attempts 0).Completed options result)
        ∨ (attempts 0).Widest options start ∧ (attempts 0).ReductionOverflows options)
    (hdispatch : (attempts 0).Widest options start → (attempts 0).DispatchOverflows options →
      outcome = .returns errOverflowOrUnderflow .empty)
    (hreduction : (attempts 0).Widest options start → (attempts 0).ReductionOverflows options →
      outcome = .returns 0 .empty) : Ends options start attempts outcome where
  success rows h := ⟨0, start, .first, hsuccess rows h⟩
  dispatch i width hreach := by
    obtain ⟨rfl, rfl⟩ := honce i width hreach
    exact hdispatch
  reduction i width hreach := by
    obtain ⟨rfl, rfl⟩ := honce i width hreach
    exact hreduction

/-- A run that goes on behind its first attempt, which is not at the greatest
width. -/
theorem Ends.of_next (hturn : turn options start (attempts 0) = .again code width')
    (hle : width' ≤ maxByteWidthSupported) (hfirst : ¬ (attempts 0).Widest options start)
    (h : Ends options width' (fun i => attempts (i + 1)) outcome) :
    Ends options start attempts outcome := by
  have hback : ∀ i width, Reaches options start attempts i width →
      (attempts i).Widest options width → ∃ j, i = j + 1
        ∧ Reaches options width' (fun i => attempts (i + 1)) j width := by
    intro i width hreach hwidest
    rcases hreach.cases_first with ⟨rfl, rfl⟩ | ⟨_, _, j, hturn', -, rfl, hreach'⟩
    · exact absurd hwidest hfirst
    · rw [hturn] at hturn'
      injection hturn' with _ heq
      exact ⟨j, rfl, heq ▸ hreach'⟩
  constructor
  · intro rows hrows
    obtain ⟨i, width, hreach, hends⟩ := h.success rows hrows
    exact ⟨i + 1, width, hreach.shift hturn hle, hends⟩
  · intro i width hreach hwidest
    obtain ⟨j, rfl, hreach'⟩ := hback i width hreach hwidest
    exact h.dispatch j width hreach' hwidest
  · intro i width hreach hwidest
    obtain ⟨j, rfl, hreach'⟩ := hback i width hreach hwidest
    exact h.reduction j width hreach' hwidest

/-- The loop is left behind its first attempt. -/
structure Stops (options : Options) (start : Nat) (attempts : Nat → Attempt R)
    (outcome : Outcome R) : Prop where
  run : ∀ fuel, 0 < fuel → executeWorkUnit options fuel start attempts = some outcome
  once : ∀ i width, Reaches options start attempts i width → i = 0 ∧ width = start

theorem stops_of_done (hturn : turn options start (attempts 0) = .done outcome) :
    Stops options start attempts outcome := by
  constructor
  · intro fuel hfuel
    obtain ⟨fuel, rfl⟩ : ∃ m, fuel = m + 1 := ⟨fuel - 1, by omega⟩
    simp only [executeWorkUnit, hturn]
  · intro i width hreach
    rcases hreach.cases_first with h | ⟨_, _, _, hturn', -⟩
    · exact h
    · rw [hturn] at hturn'
      cases hturn'

theorem stops_of_last (hturn : turn options start (attempts 0) = .again code width')
    (hlt : maxByteWidthSupported < width') :
    Stops options start attempts (.returns code .empty) := by
  constructor
  · intro fuel hfuel
    obtain ⟨fuel, rfl⟩ : ∃ m, fuel = m + 1 := ⟨fuel - 1, by omega⟩
    simp only [executeWorkUnit, hturn, if_neg (Nat.not_le.2 hlt)]
  · intro i width hreach
    rcases hreach.cases_first with h | ⟨_, _, _, hturn', hle, -⟩
    · exact h
    · rw [hturn] at hturn'
      injection hturn' with _ heq
      omega

/-- The two channels exclude each other. -/
theorem not_both (hdispatch : attempt.DispatchOverflows options)
    (hreduction : attempt.ReductionOverflows options) : False := by
  rcases hreduction.2.1 with h | h
  · simp [hdispatch.1] at h
  · simp [hdispatch.2, errOverflowOrUnderflow] at h

/-- The loop ends, since the width grows with every attempt. -/
theorem executeWorkUnit_ends (options : Options) (start : Nat) (attempts : Nat → Attempt R)
    (hpos : 0 < start) (hstart : start ≤ maxByteWidthSupported)
    (hcompaction : ∀ i width, Reaches options start attempts i width →
      (attempts i).compiled = .noCompaction → width < maxByteWidthSupported) :
    ∃ outcome, (∀ fuel, maxByteWidthSupported < fuel + start →
        executeWorkUnit options fuel start attempts = some outcome)
      ∧ Ends options start attempts outcome := by
  induction hgap : maxByteWidthSupported - start using Nat.strong_induction_on
    generalizing start attempts with
  | _ gap ih =>
    have hnext : ∀ code width', turn options start (attempts 0) = .again code width' →
        start < width' → width' ≤ maxByteWidthSupported →
        ¬ (attempts 0).Widest options start → ∃ outcome,
        (∀ fuel, maxByteWidthSupported < fuel + start →
          executeWorkUnit options fuel start attempts = some outcome)
          ∧ Ends options start attempts outcome := by
      intro code width' hturn hlt hle hfirst
      obtain ⟨outcome, hrun, hends⟩ := ih _ (by omega) width' (fun i => attempts (i + 1))
        (by omega) hle (fun i width hreach => hcompaction _ _ (hreach.shift hturn hle)) rfl
      refine ⟨outcome, fun fuel hfuel => ?_, hends.of_next hturn hle hfirst⟩
      obtain ⟨fuel, rfl⟩ : ∃ m, fuel = m + 1 := ⟨fuel - 1, by omega⟩
      simp only [executeWorkUnit, hturn, if_pos hle]
      exact hrun fuel (by omega)
    have hfuel : ∀ fuel, maxByteWidthSupported < fuel + start → 0 < fuel := by omega
    cases hcompiled : (attempts 0).compiled with
    | noCompaction =>
      have hlt := hcompaction 0 start .first hcompiled
      refine hnext 0 maxByteWidthSupported (by simp [turn, hcompiled]) hlt le_rfl ?_
      rintro ⟨-, widths, hwidths, -⟩
      rw [hcompiled] at hwidths
      cases hwidths
    | threw =>
      have hnot : ¬ (attempts 0).Widest options start := by
        rintro ⟨-, widths, hwidths, -⟩
        rw [hcompiled] at hwidths
        cases hwidths
      have hstops : Stops options start attempts .threw :=
        stops_of_done (by simp [turn, hcompiled])
      refine ⟨.threw, fun fuel h => hstops.run fuel (hfuel fuel h), .of_first hstops.once ?_
        (fun h => absurd h hnot) (fun h => absurd h hnot)⟩
      simp
    | compact widths =>
      by_cases hexplain : options.justExplain = true
      · have hnot : ¬ (attempts 0).Widest options start := fun h => by simp [h.1] at hexplain
        have hstops : Stops options start attempts
            (.returns 0 (.of (attempts 0).explanation)) :=
          stops_of_done (by simp [turn, hcompiled, hexplain])
        refine ⟨_, fun fuel h => hstops.run fuel (hfuel fuel h), .of_first hstops.once ?_
          (fun h => absurd h hnot) (fun h => absurd h hnot)⟩
        rintro rows ⟨⟩
        exact .inl ⟨_, rfl, ⟨widths, hcompiled⟩, by simp [hexplain]⟩
      have hexplain : options.justExplain = false := by simpa using hexplain
      have hturn := turn_compact start hcompiled hexplain
      have hwide := le_compile start widths
      have hwidest : (attempts 0).Widest options start
          ↔ maxByteWidthSupported < 2 * compile start widths := by
        constructor
        · rintro ⟨-, widths', hwidths, h⟩
          rw [hcompiled] at hwidths
          cases hwidths
          exact h
        · exact fun h => ⟨hexplain, widths, hcompiled, h⟩
      by_cases hdispatch : (attempts 0).DispatchOverflows options
      · rw [execute_dispatchOverflows hdispatch] at hturn
        rcases Nat.lt_or_ge maxByteWidthSupported (2 * compile start widths) with hlt | hle
        · have hstops := stops_of_last hturn hlt
          refine ⟨_, fun fuel h => hstops.run fuel (hfuel fuel h), .of_first hstops.once ?_
            (fun _ _ => rfl) (fun _ h => absurd h (not_both hdispatch))⟩
          rintro rows ⟨⟩
        · exact hnext _ _ hturn (by omega) hle fun h => by
            have := hwidest.1 h
            omega
      by_cases hreduction : (attempts 0).ReductionOverflows options
      · rw [execute_reductionOverflows hreduction] at hturn
        rcases Nat.lt_or_ge maxByteWidthSupported (2 * compile start widths) with hlt | hle
        · have hstops := stops_of_last hturn hlt
          refine ⟨_, fun fuel h => hstops.run fuel (hfuel fuel h), .of_first hstops.once ?_
            (fun _ h => absurd h hdispatch) (fun _ _ => rfl)⟩
          exact fun rows _ => .inr ⟨hwidest.2 hlt, hreduction⟩
        · exact hnext _ _ hturn (by omega) hle fun h => by
            have := hwidest.1 h
            omega
      obtain ⟨outcome, hexecute, hsuccess⟩ := execute_done (compile start widths)
        hdispatch hreduction
      rw [hexecute] at hturn
      have hstops := stops_of_done hturn
      refine ⟨_, fun fuel h => hstops.run fuel (hfuel fuel h), .of_first hstops.once ?_
        (fun _ h => absurd h hdispatch) (fun _ h => absurd h hreduction)⟩
      intro rows hrows
      obtain ⟨hok, result, rfl, hresult⟩ := hsuccess rows hrows
      refine .inl ⟨result, rfl, ⟨widths, hcompiled⟩, ?_⟩
      rw [if_neg (by simp [hexplain])]
      exact ⟨hok, hresult⟩

-- ======== the theorem

/-- The loop is free of silent successes just when the reduction of no attempt
at the greatest width overflows. -/
theorem executeWorkUnit_sound_iff (options : Options) (enableCompaction : Bool)
    (attempts : Nat → Attempt R)
    (hcompaction : ∀ i width, Reaches options (getMinByteWidth enableCompaction) attempts i width →
      (attempts i).compiled = .noCompaction → width < maxByteWidthSupported) :
    NoSilentSuccess options (getMinByteWidth enableCompaction) attempts
      ↔ ∀ i width, Reaches options (getMinByteWidth enableCompaction) attempts i width →
        (attempts i).Widest options width → ¬ (attempts i).ReductionOverflows options := by
  have hstart : 0 < getMinByteWidth enableCompaction
      ∧ getMinByteWidth enableCompaction ≤ maxByteWidthSupported := by
    cases enableCompaction <;> decide
  obtain ⟨outcome, hrun, hends⟩ :=
    executeWorkUnit_ends options _ attempts hstart.1 hstart.2 hcompaction
  have hrun : ∀ fuel, maxByteWidthSupported ≤ fuel → executeWorkUnit options fuel
      (getMinByteWidth enableCompaction) attempts = some outcome :=
    fun fuel hfuel => hrun fuel (by omega)
  constructor
  · rintro ⟨outcome', hrun', -, hoverflow⟩ i width hreach hwidest hreduction
    have heq : outcome' = outcome :=
      Option.some.inj ((hrun' _ le_rfl).symm.trans (hrun _ le_rfl))
    have hloud := hoverflow i width hreach hwidest (.inr hreduction)
    rw [heq, hends.reduction i width hreach hwidest hreduction] at hloud
    cases hloud
  · intro hnone
    refine ⟨outcome, hrun, fun rows hrows => ?_, fun i width hreach hwidest h => ?_⟩
    · obtain ⟨i, width, hreach, hresult | ⟨hwidest, hreduction⟩⟩ := hends.success rows hrows
      · obtain ⟨result, hrows, hcompleted⟩ := hresult
        exact ⟨i, width, result, hreach, hrows, hcompleted⟩
      · exact absurd hreduction (hnone i width hreach hwidest)
    · rcases h with hdispatch | hreduction
      · exact hends.dispatch i width hreach hwidest hdispatch
      · exact absurd hreduction (hnone i width hreach hwidest)

/-- An aggregation whose kernels report what they are given. -/
def aggregation : Options := ⟨true, false, false, false⟩

/-- Slots of four bytes overflow, those of eight do not. -/
def widened : Nat → Attempt Nat
  | 0 => ⟨.compact [4, 8], 0, some errOverflowOrUnderflow, false, .threw, 0⟩
  | _ + 1 => ⟨.compact [8, 8], 0, some 0, false, .result 42, 0⟩

theorem executeWorkUnit_sound_widened :
    NoSilentSuccess aggregation (getMinByteWidth true) widened
      ↔ ∀ i width, Reaches aggregation (getMinByteWidth true) widened i width →
        (widened i).Widest aggregation width → ¬ (widened i).ReductionOverflows aggregation :=
  executeWorkUnit_sound_iff aggregation true widened fun i _ _ h => by
    cases i <;> cases h

/-- The sums of two fragments fit into eight bytes, their sum does not: with
compaction the reduction throws. -/
def overflowing : Nat → Attempt Nat :=
  fun _ => ⟨.compact [8], 0, some 0, false, .overflow, 0⟩

theorem overflowing_silent :
    (∀ i width, Reaches aggregation (getMinByteWidth true) overflowing i width →
        (overflowing i).compiled = .noCompaction → width < maxByteWidthSupported)
      ∧ ¬ NoSilentSuccess aggregation (getMinByteWidth true) overflowing := by
  refine ⟨fun i width _ h => (by cases h), ?_⟩
  rintro ⟨outcome, hrun, -, hoverflow⟩
  have hsilent : outcome = .returns 0 .empty := Option.some.inj (hrun 8 le_rfl).symm
  have hloud := hoverflow 0 _ .first ⟨rfl, [8], rfl, by decide⟩ (.inr ⟨rfl, .inr rfl, rfl⟩)
  rw [hsilent] at hloud
  cases hloud

end Compass.Execution
