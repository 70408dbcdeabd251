/-
The range of an EXTRACT (ExpressionRange.cpp).

The year's range goes from the year of the argument's least timestamp to
that of its greatest, and the epoch's is the argument's. The other fields
have fixed ranges. The argument's range is Invalid where nothing is known
of it.
-/
import Compass.Range.ExpressionRange
import Compass.Calendar.ExtractFromTime

namespace Compass.Calendar

open Gregorian
open Compass.Analyzer (ExtractField)
open Compass.Range (ExpressionRange IntRange)

/-- `getExpressionRange` of an ExtractExpr, by its argument's range. -/
def getExtractRange (extractField : ExtractField) (argRange : ExpressionRange) :
    ExpressionRange :=
  let hasNulls := match argRange with
    | none => true
    | some r => r.hasNulls
  match extractField with
  | .kYEAR =>
    argRange.map fun r =>
      ⟨Int64.ofInt (extractFromTime .kYEAR r.intMin.toInt),
        Int64.ofInt (extractFromTime .kYEAR r.intMax.toInt), r.hasNulls⟩
  | .kEPOCH => argRange
  | .kQUARTERDAY | .kQUARTER => some ⟨1, 4, hasNulls⟩
  | .kMONTH => some ⟨1, 12, hasNulls⟩
  | .kDAY => some ⟨1, 31, hasNulls⟩
  | .kHOUR => some ⟨0, 23, hasNulls⟩
  | .kMINUTE => some ⟨0, 59, hasNulls⟩
  | .kSECOND => some ⟨0, 60, hasNulls⟩
  | .kDOW => some ⟨0, 6, hasNulls⟩
  | .kISODOW => some ⟨1, 7, hasNulls⟩
  | .kDOY => some ⟨1, 366, hasNulls⟩
  | .kWEEK => some ⟨1, 53, hasNulls⟩

/-- A number lies inside a range, or nothing is known of it. -/
def Inside (range : ExpressionRange) (x : Int) : Prop :=
  ∀ r, range = some r → r.Contains (some x)

/-- Where a field is inside the range assumed of it. -/
def KeepsRange (field : ExtractField) (argRange : ExpressionRange) (t : Int) (d : Date) : Prop :=
  match field with
  | .kSECOND => 0 ≤ t ∨ t % 60 = 0
  | .kQUARTERDAY => 0 ≤ t ∨ -t % 86400 < 21600
  | .kWEEK => ¬ (d.dayOfYear = 365 ∧ weekday d.dayNumber = 0)
  | .kYEAR =>
    -- the years, as an `int` holds them
    ∀ r first last, argRange = some r → Date.dayNumber first = r.intMin.toInt / 86400 →
      Date.dayNumber last = r.intMax.toInt / 86400 →
        int32 first.year ≤ int32 d.year ∧ int32 d.year ≤ int32 last.year
  | _ => True

end Compass.Calendar
