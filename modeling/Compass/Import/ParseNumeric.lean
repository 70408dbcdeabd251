/-
Decimal literals: `parse_numeric` (Shared/Datum.cpp) and what
`TypedImportBuffer::add_value` makes of a field of a DECIMAL column
(Import/Importer.cpp).

# Texts

A text is a list of characters. `std::stoll` skips blanks, takes a sign and
the longest run of digits, and throws for a text without digits and for a
number beyond 64 bits. `parse_numeric` hands it what stands before the point
and what stands behind it.

# Overflow

Where a signed integer overflows C++ leaves the result open, and so does the
model (`NumericFault.overflow`): the absolute value of the least integer, the
products, the sums, and the five that is added before a digit is cut off.
-/
import Compass.Analyzer.AddCast
import Compass.Lib.Decimal
import Compass.Lib.Rounding

namespace Compass.Import

open Analyzer (convertDecimalValueToScale)

/-- Why there is no number. -/
inductive NumericFault where
  /-- `std::invalid_argument` and `std::out_of_range`. -/
  | stoll (error : Decimal.StoiError)
  /-- `std::runtime_error`. -/
  | runtimeError (message : String)
  | overflow
deriving DecidableEq, Repr

-- ======== std::stoll

def stollDigits (neg : Bool) (s : List Char) : Except Decimal.StoiError Int :=
  let digits := s.takeWhile Char.isDigit
  if digits = [] then .error .invalidArgument
  else
    let m : Int := Nat.ofDigitChars 10 digits 0
    let v := if neg then -m else m
    if v < -2 ^ 63 ∨ 2 ^ 63 ≤ v then .error .outOfRange else .ok v

/-- `std::stoll` in base ten. -/
def stoll (s : List Char) : Except Decimal.StoiError Int :=
  match s.dropWhile Decimal.isBlank with
  | '-' :: rest => stollDigits true rest
  | '+' :: rest => stollDigits false rest
  | rest => stollDigits false rest

-- ======== parse_numeric

/-- A result of 64 bits, if it is one. -/
def inInt64 (n : Int) : Except NumericFault Int :=
  if -2 ^ 63 ≤ n ∧ n < 2 ^ 63 then .ok n else .error .overflow

/-- What stands before the first point, and behind it. -/
def splitAtDot (s : List Char) : List Char × List Char :=
  let before := s.takeWhile (· ≠ '.')
  match s.drop before.length with
  | [] => (s, ['0'])
  | _ :: after => (if before = [] then ['0'] else before, after)

/-- The scale and the digits behind the point, where the type does not fix
them and where it does. -/
def fixScale (s beforeDot afterDot : List Char) (ti : Analyzer.SQLTypeInfo) (fraction : Int) :
    Except NumericFault (Analyzer.SQLTypeInfo × Int) :=
  if ti.dimension = 0 then
    .ok ({ ti with
        scale := afterDot.length
        dimension := beforeDot.length + afterDot.length
        notnull := false }, fraction)
  else if ti.dimension % 2 ^ 64 < (beforeDot.length + ti.scale) % 2 ^ 64 then
    .error (.runtimeError ("numeric value " ++ String.ofList s
      ++ " exceeds the maximum precision of " ++ toString ti.dimension))
  else .ok (ti, fraction.tdiv (10 ^ (afterDot.length - ti.scale).toNat))

def parseFraction (afterDot : List Char) : Except NumericFault Int :=
  if afterDot = [] then .ok 0 else (stoll afterDot).mapError .stoll

/-- Both parts in one integer. -/
def combine (result fraction : Int) (scale : Nat) : Except NumericFault Int := do
  let result ← inInt64 (result * 10 ^ scale)
  inInt64 (if result < 0 then result - fraction else result + fraction)

/-- `parse_numeric`, with the type that it leaves. -/
def parseNumeric (s : List Char) (ti : Analyzer.SQLTypeInfo) :
    Except NumericFault (Int × Analyzer.SQLTypeInfo) := do
  let (beforeDot, afterDot) := splitAtDot s
  let sign : Int := if '-' ∈ beforeDot then -1 else 1
  let result ← (stoll beforeDot).mapError .stoll
  let result ← inInt64 |result|
  let fraction ← parseFraction afterDot
  let (ti, fraction) ← fixScale s beforeDot afterDot ti fraction
  let result ← combine result fraction ti.scale.toNat
  return (result * sign, ti)

/-- The type that a field is parsed as. -/
def numericInfo : Analyzer.SQLTypeInfo where
  type := .kNUMERIC
  subtype := .kNULLT
  dimension := 0
  scale := 0
  notnull := false
  compression := .kENCODING_NONE
  compParam := 0
  size := 8

/-- `convert_decimal_value_to_scale`, where it is defined. -/
def convertDecimal (value : Int) (ti columnType : Analyzer.SQLTypeInfo) :
    Except NumericFault Int := do
  let _ ← if columnType.scale > ti.scale then
      inInt64 (value * 10 ^ (columnType.scale - ti.scale).toNat)
    else if columnType.scale < ti.scale then inInt64 (if value > 0 then value + 5 else value - 5)
    else .ok value
  return convertDecimalValueToScale value ti columnType

/-- The value that `add_value` adds for a field that is not NULL. -/
def addDecimal (val : List Char) (columnType : Analyzer.SQLTypeInfo) : Except NumericFault Int := do
  let (d, ti) ← parseNumeric val numericInfo
  convertDecimal d ti columnType

-- ======== the claim

def decimalType (precision scale : Nat) : Analyzer.SQLTypeInfo where
  type := .kDECIMAL
  subtype := .kNULLT
  dimension := precision
  scale := scale
  notnull := false
  compression := .kENCODING_NONE
  compParam := 0
  size := 8

/-- A numeric literal, of a length that `parse_numeric` accepts. -/
structure Literal where
  /-- `some true` for a minus. -/
  sign : Option Bool
  integral : List Char
  fraction : Option (List Char)
  integral_ne : integral ≠ []
  integral_digits : Decimal.AllDigits integral
  fraction_digits : ∀ digits ∈ fraction, Decimal.AllDigits digits
  length_le : (sign.elim 0 fun _ => 1) + integral.length
    + (fraction.elim 0 fun digits => 1 + digits.length) ≤ 20

def signText : Option Bool → List Char
  | none => []
  | some true => ['-']
  | some false => ['+']

namespace Literal

variable (lit : Literal)

def negative : Bool :=
  lit.sign = some true

def text : List Char :=
  signText lit.sign ++ lit.integral ++
    match lit.fraction with
    | none => []
    | some digits => '.' :: digits

/-- The digits behind the point. -/
def decimals : List Char :=
  lit.fraction.getD []

/-- The number that the literal stands for. -/
def value : ℚ :=
  (if lit.negative then -1 else 1)
    * (Nat.ofDigitChars 10 (lit.integral ++ lit.decimals) 0 : ℚ) / 10 ^ lit.decimals.length

/-- The digits behind the point that are parsed, one where there is no point. -/
def parsedScale : Nat :=
  match lit.fraction with
  | none => 1
  | some digits => digits.length

/-- The digits as an integer of that scale. -/
def magnitude : Nat :=
  Nat.ofDigitChars 10 lit.integral 0 * 10 ^ lit.parsedScale
    + Nat.ofDigitChars 10 lit.decimals 0

def BeyondInt64 : Prop :=
  if lit.negative then 2 ^ 63 < Nat.ofDigitChars 10 lit.integral 0
  else 2 ^ 63 ≤ Nat.ofDigitChars 10 lit.integral 0

instance : Decidable lit.BeyondInt64 :=
  inferInstanceAs (Decidable (if lit.negative then _ else _))

end Literal

/-- The number at a scale, rounded once. -/
def atScale (q : ℚ) (scale : Nat) : Int :=
  Rounding.nearest (q * 10 ^ scale)

/-- A number of 64 bits and of as many digits. -/
def FitsPrecision (precision : Nat) (n : Int) : Prop :=
  -2 ^ 63 ≤ n ∧ n < 2 ^ 63 ∧ |n| < 10 ^ precision

instance (precision : Nat) (n : Int) : Decidable (FitsPrecision precision n) :=
  inferInstanceAs (Decidable (_ ∧ _ ∧ _))

/-- The number of the literal if it fits, and else an exception. -/
def ParsesExactly (text : List Char) (q : ℚ) (precision scale : Nat) : Prop :=
  match addDecimal text (decimalType precision scale) with
  | .ok n => n = atScale q scale ∧ FitsPrecision precision n
  | .error .overflow => False
  | .error _ => ¬ FitsPrecision precision (atScale q scale)

namespace Literal

variable (lit : Literal)

/-- `std::stoll` throws; or no intermediate result leaves 64 bits, no digit is
rounded up twice and the number fits the precision. -/
def Safe (precision scale : Nat) : Prop :=
  lit.BeyondInt64 ∨ lit.magnitude < 2 ^ 63
    ∧ (lit.parsedScale < scale → lit.magnitude * 10 ^ (scale - lit.parsedScale) < 2 ^ 63)
    ∧ (scale < lit.parsedScale →
        lit.magnitude + 5 < 2 ^ 63 + (if lit.negative then 1 else 0)
          ∧ ¬ Rounding.RoundsTwice lit.magnitude (lit.parsedScale - scale))
    ∧ |atScale lit.value scale| < 10 ^ precision

/-- `0.45`. -/
def fortyFive : Literal where
  sign := none
  integral := ['0']
  fraction := some ['4', '5']
  integral_ne := by decide
  integral_digits := List.forall_mem_singleton.2 (by decide)
  fraction_digits := by
    rintro digits ⟨⟩
    exact List.forall_mem_cons.2 ⟨by decide, List.forall_mem_singleton.2 (by decide)⟩
  length_le := by decide

/-- `0.450`. -/
def fortyFiveZero : Literal where
  sign := none
  integral := ['0']
  fraction := some ['4', '5', '0']
  integral_ne := by decide
  integral_digits := List.forall_mem_singleton.2 (by decide)
  fraction_digits := by
    rintro digits ⟨⟩
    exact List.forall_mem_cons.2 ⟨by decide, List.forall_mem_cons.2 ⟨by decide,
      List.forall_mem_singleton.2 (by decide)⟩⟩
  length_le := by decide

end Literal

end Compass.Import
