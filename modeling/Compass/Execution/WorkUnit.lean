/-
The retry loop of `Executor::executeWorkUnit` (QueryEngine/Execute.cpp).

# An attempt

The work unit is compiled for slots of some least width, the kernels run and
their results are reduced. Where a slot is too narrow a kernel says so by an
error code and the reduction by an exception; either way the width is doubled
and the loop starts again, until the width is more than the slots can have.
`continue` in a `do` loop goes on with the test of its condition.

# The model

What the compilation, the kernels and the reduction do is not modelled: each
attempt comes with what they answer (`Attempt`), and a run takes the attempts
of a sequence one by one. The loop is run with fuel, since nothing in it keeps
a compilation from asking for another one for ever.
-/
import Mathlib.Order.Lattice

namespace Compass.Execution

/-- `MAX_BYTE_WIDTH_SUPPORTED`, which is `sizeof(int64_t)`. -/
def maxByteWidthSupported : Nat := 8

def errOutOfSlots : Int := 3
def errOverflowOrUnderflow : Int := 7
def errOutOfTime : Int := 9
def errInterrupted : Int := 10

/-- How a part of an attempt ends: `threw` stands for the exceptions that the
loop does not catch. -/
inductive Compiled where
  /-- `CompilationRetryNoCompaction`. -/
  | noCompaction
  /-- The widths of the slots, of all devices. -/
  | compact (widths : List Nat)
  | threw

/-- What reducing the results of the devices comes to. -/
inductive Collected (R : Type) where
  | result (rows : R)
  /-- `ReductionRanOutOfSlots`. -/
  | ranOutOfSlots
  /-- `OverflowOrUnderflow`. -/
  | overflow
  | threw

/-- What compilation, kernels and reduction answer at one attempt. -/
structure Attempt (R : Type) where
  compiled : Compiled
  explanation : R
  /-- `*error_code` behind `dispatchFragments`, unless that throws. -/
  dispatched : Option Int
  interrupted : Bool
  /-- `collectAllDeviceResults`. -/
  collected : Collected R
  /-- `resultsUnion`. -/
  unioned : R

/-- What the caller asks of a run, as far as the loop reads it. -/
structure Options where
  isAgg : Bool
  justExplain : Bool
  justValidate : Bool
  withDynamicWatchdog : Bool

inductive RowSet (R : Type) where
  /-- A result set without storage. -/
  | empty
  | of (rows : R)

/-- How the loop is left: with a code and rows, or by an exception. -/
inductive Outcome (R : Type) where
  | returns (errorCode : Int) (rows : RowSet R)
  | threw

/-- One turn of the loop: it is left, or taken again at a width. -/
inductive Turn (R : Type) where
  | done (outcome : Outcome R)
  | again (errorCode : Int) (width : Nat)

variable {R : Type}

/-- `ExecutionDispatch::compile`. -/
def compile (crtMinByteWidth : Nat) (widths : List Nat) : Nat :=
  max (widths.foldl min maxByteWidthSupported) crtMinByteWidth

/-- `*error_code` when the kernels have run. -/
def Attempt.errorCode (options : Options) (attempt : Attempt R) : Option Int :=
  if options.justValidate then some 0
  else attempt.dispatched.map fun code =>
    if options.withDynamicWatchdog && attempt.interrupted && code = errOutOfTime then
      errInterrupted
    else code

/-- The body of the loop behind the compilation. -/
def execute (options : Options) (crtMinByteWidth : Nat) (attempt : Attempt R) : Turn R :=
  match attempt.errorCode options with
  | none => .done .threw
  | some errorCode =>
    if errorCode = errOverflowOrUnderflow then .again errorCode (2 * crtMinByteWidth)
    else if errorCode ≠ 0 then .done (.returns errorCode .empty)
    else if options.isAgg then
      match attempt.collected with
      | .result rows => .done (.returns errorCode (.of rows))
      | .ranOutOfSlots => .done (.returns errOutOfSlots .empty)
      | .overflow => .again errorCode (2 * crtMinByteWidth)
      | .threw => .done .threw
    else .done (.returns errorCode (.of attempt.unioned))

/-- The body of the loop. -/
def turn (options : Options) (crtMinByteWidth : Nat) (attempt : Attempt R) : Turn R :=
  match attempt.compiled with
  | .noCompaction => .again 0 maxByteWidthSupported
  | .threw => .done .threw
  | .compact widths =>
    if options.justExplain then .done (.returns 0 (.of attempt.explanation))
    else execute options (compile crtMinByteWidth widths) attempt

def executeWorkUnit (options : Options) :
    Nat → Nat → (Nat → Attempt R) → Option (Outcome R)
  | 0, _, _ => none
  | fuel + 1, crtMinByteWidth, attempts =>
    match turn options crtMinByteWidth (attempts 0) with
    | .done outcome => some outcome
    | .again errorCode width =>
      if width ≤ maxByteWidthSupported then
        executeWorkUnit options fuel width fun i => attempts (i + 1)
      else some (.returns errorCode .empty)

/-- `get_min_byte_width`. -/
def getMinByteWidth (enableCompaction : Bool) : Nat :=
  if enableCompaction then 4 else maxByteWidthSupported

-- ======== the claim

/-- The attempts of a run, each with the width that it starts with. -/
inductive Reaches (options : Options) (start : Nat) (attempts : Nat → Attempt R) :
    Nat → Nat → Prop where
  | first : Reaches options start attempts 0 start
  | next {i width width' : Nat} {code : Int} :
      Reaches options start attempts i width →
      turn options width (attempts i) = .again code width' → width' ≤ maxByteWidthSupported →
      Reaches options start attempts (i + 1) width'

/-- The attempt has come to an end without an error. -/
def Attempt.Completed (options : Options) (attempt : Attempt R) (rows : R) : Prop :=
  (∃ widths, attempt.compiled = .compact widths)
    ∧ if options.justExplain then rows = attempt.explanation
      else (options.justValidate ∨ attempt.dispatched = some 0)
        ∧ if options.isAgg then attempt.collected = .result rows else rows = attempt.unioned

/-- The kernels report no error, and the reduction throws. -/
def Attempt.ReductionOverflows (options : Options) (attempt : Attempt R) : Prop :=
  options.isAgg = true ∧ (options.justValidate = true ∨ attempt.dispatched = some 0)
    ∧ attempt.collected = .overflow

def Attempt.DispatchOverflows (options : Options) (attempt : Attempt R) : Prop :=
  options.justValidate = false ∧ attempt.dispatched = some errOverflowOrUnderflow

/-- The attempt gets to its kernels with slots that cannot be doubled. -/
def Attempt.Widest (options : Options) (width : Nat) (attempt : Attempt R) : Prop :=
  options.justExplain = false
    ∧ ∃ widths, attempt.compiled = .compact widths
      ∧ maxByteWidthSupported < 2 * compile width widths

/-- The loop ends, and reports success for a completed attempt only and an
overflow if there is one at the greatest width. -/
def NoSilentSuccess (options : Options) (start : Nat) (attempts : Nat → Attempt R) : Prop :=
  ∃ outcome, (∀ fuel, maxByteWidthSupported ≤ fuel →
      executeWorkUnit options fuel start attempts = some outcome)
    ∧ (∀ rows, outcome = .returns 0 rows → ∃ i width result, Reaches options start attempts i width
        ∧ rows = .of result ∧ (attempts i).Completed options result)
    ∧ ∀ i width, Reaches options start attempts i width → (attempts i).Widest options width →
        (attempts i).DispatchOverflows options ∨ (attempts i).ReductionOverflows options →
        outcome = .returns errOverflowOrUnderflow .empty

end Compass.Execution
