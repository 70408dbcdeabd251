/-
The range analysis of QueryEngine/ExpressionRange.{h,cpp}, at the integer
types: the interval in which an expression's values lie, from the known
ranges of the columns and the simple qualifiers of the query.

# Ranges

A range is Invalid, here `none`, or two `int64_t` ends with a flag for
NULLs. The arithmetic on the ends goes through `checked_int64_t`, which
throws where a result does not fit, and `binOp` turns what is thrown into
the Invalid range. Two places compute on the plain `int64_t`s and wrap:
the test for a divisor around zero in `operator/`, and the ends next to a
constant in `apply_int_qual`. `bucket_` is for dates and is left out; so
are the branches for decimals, dates, floats and strings.

# Columns

The executor's cache of column ranges (`getColRange`) and the statistics
of temporary tables (`getLeafColumnRange`) are parameters of the
analysis. A qualifier is an expression of the scan's own syntax
(`Fragment.Expr`). For a column whose cached range is Invalid the source
fails a CHECK when a qualifier speaks of it; here the range stays Invalid.

# Values

What the expressions of the range analysis compute on a row, and when a
row fits what the analysis was told.

A value is NULL or a number. Arithmetic is exact and an error where the
result does not fit its type (`codegenAdd`, `codegenSub`, `codegenMul`
return ERR_OVERFLOW_OR_UNDERFLOW there); the quotient rounds towards zero,
and a zero divisor is an error, or NULL under `g_null_div_by_zero`
(`codegenDiv`). A cast to a narrower integer type drops the high bits
(`codegenCastBetweenIntTypes`). How NULL is told from a number in a
machine word is not part of it.

Exact interval arithmetic for the expressions of the range analysis, and
the places where the analysis departs from it.

`hull` computes with unbounded integers what `getExpressionRange` is after:
the interval of an expression from the intervals of its columns, unknown
where a divisor's ends have not the same sign or an end does not fit 64
bits. It is there to say which expressions are `Safe`:

- no divisor's interval reaches over zero so far that the product of its
  ends wraps around to a positive number;
- the operand of a cast stays within the type that it is cast to, or
  reaches over all of it;
- a qualifier that names a column's table and id speaks of the same range
  table entry, and compares the column itself or a cast that keeps its
  values.
-/
import Compass.Lib.Interval
import Compass.Fragment.Skip

namespace Compass.Range

open Fragment (Datum)

-- ======== expressions

/-- The integer types among the `SQLTypes`. -/
inductive IntegerType
  | kSMALLINT
  | kINT
  | kBIGINT
deriving DecidableEq, Repr

def IntegerType.bits : IntegerType → Nat
  | .kSMALLINT => 16
  | .kINT => 32
  | .kBIGINT => 64

/-- The operators of `IS_ARITHMETIC`. -/
inductive ArithOp
  | kPLUS
  | kMINUS
  | kMULTIPLY
  | kDIVIDE
  | kMODULO
deriving DecidableEq, Repr

/-- The unary operators between integers. -/
inductive UnaryOp
  | kCAST
  | kUMINUS
deriving DecidableEq, Repr

mutual

/-- Analyzer expressions of integer type. The conditions of a CASE are of
a type of their own, since the analysis does not look at them. -/
inductive Expr (β : Type)
  | columnVar (ti : IntegerType) (tableId columnId rteIdx : Int)
  | constant (ti : IntegerType) (isNull : Bool) (constval : Datum)
  | binOper (ti : IntegerType) (optype : ArithOp) (left right : Expr β)
  | uoper (ti : IntegerType) (optype : UnaryOp) (operand : Expr β)
  | caseExpr (ti : IntegerType) (exprPairList : Whens β) (elseExpr : Expr β)

/-- The WHEN and THEN pairs of a CASE. -/
inductive Whens (β : Type)
  | nil
  | cons (cond : β) (result : Expr β) (rest : Whens β)

end

/-- A NULL constant. -/
def Expr.isNullConstant {β : Type} : Expr β → Bool
  | .constant _ isNull _ => isNull
  | _ => false

/-- The value of a constant's datum at its type. -/
def IntegerType.constant : IntegerType → Datum → Int
  | .kSMALLINT, datum => datum.smallintval
  | .kINT, datum => datum.intval
  | .kBIGINT, datum => datum.bigintval

-- ======== ranges

structure IntRange where
  intMin : Int64
  intMax : Int64
  hasNulls : Bool
deriving DecidableEq, Repr

/-- `ExpressionRange`: Invalid or an integer range. -/
abbrev ExpressionRange := Option IntRange

/-- `int64_t(checked_int64_t(..))`, which throws outside of the type. -/
def checkedInt64 (z : Int) : Option Int64 :=
  if -2 ^ 63 ≤ z ∧ z < 2 ^ 63 then some (Int64.ofInt z) else none

/-- `ExpressionRange::binOp` on integer ranges. -/
def binOp (op : Int → Int → Int) (a b : IntRange) : ExpressionRange := do
  let minMin ← checkedInt64 (op a.intMin.toInt b.intMin.toInt)
  let minMax ← checkedInt64 (op a.intMin.toInt b.intMax.toInt)
  let maxMin ← checkedInt64 (op a.intMax.toInt b.intMin.toInt)
  let maxMax ← checkedInt64 (op a.intMax.toInt b.intMax.toInt)
  return ⟨min (min (min minMin minMax) maxMin) maxMax, max (max (max minMin minMax) maxMin) maxMax,
    a.hasNulls || b.hasNulls⟩

def IntRange.setHasNulls (r : IntRange) : IntRange :=
  { r with hasNulls := true }

/-- `operator/`. -/
def divRange (nullDivByZero : Bool) (a b : IntRange) : ExpressionRange :=
  -- meant for divisors around zero; the product wraps
  if b.intMin * b.intMax ≤ 0 then none
  else (binOp Int.tdiv a b).map fun r => if nullDivByZero then r.setHasNulls else r

/-- `operator||`. -/
def orRange (a b : IntRange) : IntRange :=
  ⟨min a.intMin b.intMin, max a.intMax b.intMax, a.hasNulls || b.hasNulls⟩

-- ======== qualifiers

/-- `get_value_from_datum<int64_t>`; another type is unreachable. -/
def getValueFromDatum (datum : Datum) : SQLTypes → Int
  | .kSMALLINT => datum.smallintval
  | .kINT => datum.intval
  | .kBIGINT => datum.bigintval
  | .kTIME => datum.timeval
  | .kTIMESTAMP => datum.timeval
  | .kDATE => datum.timeval
  | .kNUMERIC => datum.bigintval
  | .kDECIMAL => datum.bigintval
  | _ => 0

def applyIntQual (constVal : Int64) (sqlOp : SQLOps) (qualRange : IntRange) : IntRange :=
  match sqlOp with
  | .kGT => { qualRange with intMin := max qualRange.intMin (constVal + 1) }
  | .kGE => { qualRange with intMin := max qualRange.intMin constVal }
  | .kLT => { qualRange with intMax := min qualRange.intMax (constVal - 1) }
  | .kLE => { qualRange with intMax := min qualRange.intMax constVal }
  | .kEQ => { qualRange with
      intMin := max qualRange.intMin constVal
      intMax := min qualRange.intMax constVal }
  -- there may be other operators, but don't do anything with them
  | _ => qualRange

/-- A `dynamic_cast` to `ColumnVar`: the table and the column. -/
def asColumnVar : Fragment.Expr → Option (Int × Int)
  | .columnVar _ tableId columnId _ => some (tableId, columnId)
  | .var _ tableId columnId _ => some (tableId, columnId)
  | _ => none

/-- The column on the left of a qualifier, possibly wrapped in a cast. -/
def qualColumn : Fragment.Expr → Option (Int × Int)
  | .uoper _ _ operand => asColumnVar operand
  | e => asColumnVar e

/-- The loop body of `apply_simple_quals`. -/
def applySimpleQual (tableId columnId : Int) (qualRange : IntRange) (qual : Fragment.Expr) :
    IntRange :=
  match qual with
  | .binOper _ optype _ left (.constant ti _ constval) =>
    if qualColumn left = some (tableId, columnId) then
      applyIntQual (Int64.ofInt (getValueFromDatum constval ti.type)) optype qualRange
    else qualRange
  | _ => qualRange

def applySimpleQuals (tableId columnId : Int) (colRange : IntRange)
    (simpleQuals : Option (List Fragment.Expr)) : IntRange :=
  match simpleQuals with
  | none => colRange
  | some quals =>
    let qualRange := quals.foldl (applySimpleQual tableId columnId) colRange
    if qualRange.intMin > qualRange.intMax then ⟨0, -1, qualRange.hasNulls⟩ else qualRange

-- ======== analysis

/-- What the analysis reads of the executor: the cached ranges of the
columns of tables, the ranges of the columns of temporary tables, whether
the query has an outer join, and the flag `g_null_div_by_zero`. -/
structure RangeEnv where
  getColRange : (tableId columnId : Int) → ExpressionRange
  getLeafColumnRange : (tableId columnId : Int) → (isOuterJoinProj : Bool) → ExpressionRange
  outerJoin : Bool
  nullDivByZero : Bool

/-- A column of the inner side of an outer join. -/
def RangeEnv.isOuterJoinProj (env : RangeEnv) (rteIdx : Int) : Bool :=
  decide (rteIdx > 0) && env.outerJoin

/-- `getExpressionRange` of a `ColumnVar`. -/
def columnRange (env : RangeEnv) (simpleQuals : Option (List Fragment.Expr))
    (tableId columnId rteIdx : Int) : ExpressionRange :=
  if tableId > 0 then
    (env.getColRange tableId columnId).map fun colRange =>
      let colRange := if env.isOuterJoinProj rteIdx then colRange.setHasNulls else colRange
      applySimpleQuals tableId columnId colRange simpleQuals
  else env.getLeafColumnRange tableId columnId (env.isOuterJoinProj rteIdx)

/-- `getExpressionRange` of a `Constant`. -/
def constantRange (ti : IntegerType) (isNull : Bool) (constval : Datum) : ExpressionRange :=
  if isNull then none
  else
    let v := Int64.ofInt (ti.constant constval)
    some ⟨v, v, false⟩

/-- The switch of `getExpressionRange` of a `BinOper`. -/
def arithRange (env : RangeEnv) (optype : ArithOp) (lhs rhs : ExpressionRange) :
    ExpressionRange := do
  let a ← lhs
  let b ← rhs
  match optype with
  | .kPLUS => binOp (· + ·) a b
  | .kMINUS => binOp (· - ·) a b
  | .kMULTIPLY => binOp (· * ·) a b
  | .kDIVIDE => divRange env.nullDivByZero a b
  | .kMODULO => none

variable {β : Type}

mutual

def getExpressionRange (env : RangeEnv) (simpleQuals : Option (List Fragment.Expr)) :
    Expr β → ExpressionRange
  | .columnVar _ tableId columnId rteIdx => columnRange env simpleQuals tableId columnId rteIdx
  | .constant ti isNull constval => constantRange ti isNull constval
  | .binOper _ optype left right =>
    arithRange env optype (getExpressionRange env simpleQuals left)
      (getExpressionRange env simpleQuals right)
  | .uoper _ .kCAST operand => getExpressionRange env simpleQuals operand
  | .uoper _ .kUMINUS _ => none
  | .caseExpr _ exprPairList elseExpr => do
      let exprRange ← whensRange env exprPairList none
      if elseExpr.isNullConstant then exprRange.map IntRange.setHasNulls
      else
        let a ← exprRange
        let b ← getExpressionRange env none elseExpr
        return orRange a b

/-- The loop over the pairs of a CASE, `none` where it returns early. The
qualifiers are not passed on. -/
def whensRange (env : RangeEnv) : Whens β → ExpressionRange → Option ExpressionRange
  | .nil, exprRange => some exprRange
  | .cons _ result rest, exprRange =>
    match getExpressionRange env none result with
    | none => none
    | some crtRange =>
      whensRange env rest (some (match exprRange with
        | some a => orRange a crtRange
        | none => crtRange))

end

end Compass.Range

namespace Compass.Range

-- ======== rows

/-- The value of each column, by table, column and range table entry. -/
abbrev Row := Int → Int → Int → Option Int

inductive EvalError
  | overflowOrUnderflow
  | divByZero
deriving DecidableEq, Repr

/-- The numbers of a type. -/
def IntegerType.Fits (ti : IntegerType) (z : Int) : Prop :=
  -2 ^ (ti.bits - 1) ≤ z ∧ z < 2 ^ (ti.bits - 1)

instance (ti : IntegerType) (z : Int) : Decidable (ti.Fits z) :=
  inferInstanceAs (Decidable (_ ∧ _))

/-- An exact result, which has to fit the type. -/
def checkedResult (ti : IntegerType) (z : Int) : Except EvalError (Option Int) :=
  if ti.Fits z then .ok (some z) else .error .overflowOrUnderflow

/-- An operation on two numbers. -/
def evalArith (nullDivByZero : Bool) (ti : IntegerType) :
    ArithOp → Int → Int → Except EvalError (Option Int)
  | .kPLUS, x, y => checkedResult ti (x + y)
  | .kMINUS, x, y => checkedResult ti (x - y)
  | .kMULTIPLY, x, y => checkedResult ti (x * y)
  | .kDIVIDE, x, y =>
    if y = 0 then if nullDivByZero then .ok none else .error .divByZero
    else checkedResult ti (x.tdiv y)
  | .kMODULO, x, y =>
    if y = 0 then .error .divByZero else checkedResult ti (x.tmod y)

/-- A cast to an integer type. -/
def castValue (ti : IntegerType) (z : Int) : Int :=
  z.bmod (2 ^ ti.bits)

section Eval

variable {β : Type} (nullDivByZero : Bool) (holds : β → Row → Bool) (row : Row)

mutual

/-- The value of an expression on a row. -/
def eval : Expr β → Except EvalError (Option Int)
  | .columnVar _ tableId columnId rteIdx => .ok (row tableId columnId rteIdx)
  | .constant ti isNull constval => .ok (if isNull then none else some (ti.constant constval))
  | .binOper ti optype left right => do
      let lhs ← eval left
      let rhs ← eval right
      match lhs, rhs with
      | some x, some y => evalArith nullDivByZero ti optype x y
      | _, _ => return none
  | .uoper ti .kCAST operand => do
      let arg ← eval operand
      return arg.map (castValue ti)
  | .uoper ti .kUMINUS operand => do
      match ← eval operand with
      | some x => checkedResult ti (-x)
      | none => return none
  | .caseExpr _ exprPairList elseExpr => evalWhens exprPairList (eval elseExpr)

/-- The first pair whose condition holds, or else. -/
def evalWhens : Whens β → Except EvalError (Option Int) → Except EvalError (Option Int)
  | .nil, elseValue => elseValue
  | .cons cond result rest, elseValue =>
    if holds cond row then eval result else evalWhens rest elseValue

end

end Eval

-- ======== qualifiers

/-- A cast of a qualifier, between integer or between time types. -/
def castSimple (operandTi ti : SQLTypeInfo) (z : Int) : Int :=
  if operandTi.type = .kTIMESTAMP ∧ ti.type = .kDATE then Fragment.dateTruncateDay z
  else if Fragment.bitWidth ti < Fragment.bitWidth operandTi then
    z.bmod (2 ^ Fragment.bitWidth ti)
  else z

/-- The value of an operand of a qualifier. -/
def qualOperand (row : Row) : Fragment.Expr → Option Int
  | .columnVar _ tableId columnId rteIdx => row tableId columnId rteIdx
  | .constant ti isNull constval =>
    if isNull then none else some (getValueFromDatum constval ti.type)
  | .uoper ti .kCAST (.columnVar cti tableId columnId rteIdx) =>
    (row tableId columnId rteIdx).map (castSimple cti ti)
  | _ => none

/-- The row satisfies a comparison. -/
def qualHolds (row : Row) : Fragment.Expr → Bool
  | .binOper _ optype _ left right =>
    match qualOperand row left, qualOperand row right with
    | some x, some y => if optype = .kBW_EQ then x == y else Fragment.icmp optype x y
    | none, none => optype == .kBW_EQ
    | _, _ => false
  | _ => true

-- ======== consistency

/-- A value lies in a range. -/
def IntRange.Contains (r : IntRange) : Option Int → Prop
  | none => r.hasNulls = true
  | some x => r.intMin.toInt ≤ x ∧ x ≤ r.intMax.toInt

instance (r : IntRange) (v : Option Int) : Decidable (r.Contains v) := by
  cases v
  · exact inferInstanceAs (Decidable (_ = _))
  · exact inferInstanceAs (Decidable (_ ∧ _))

/-- A column's value lies in the range the executor knows of it, where an
outer join may add NULLs. -/
def ColumnFits (env : RangeEnv) (row : Row) (tableId columnId rteIdx : Int) : Prop :=
  if tableId > 0 then
    ∀ r, env.getColRange tableId columnId = some r →
      (if env.isOuterJoinProj rteIdx then r.setHasNulls else r).Contains
        (row tableId columnId rteIdx)
  else
    ∀ r, env.getLeafColumnRange tableId columnId (env.isOuterJoinProj rteIdx) = some r →
      r.Contains (row tableId columnId rteIdx)

/-- The row fits the ranges of all columns and satisfies the
qualifiers. -/
structure Consistent (env : RangeEnv) (simpleQuals : Option (List Fragment.Expr))
    (row : Row) : Prop where
  columns : ∀ tableId columnId rteIdx, ColumnFits env row tableId columnId rteIdx
  quals : ∀ quals, simpleQuals = some quals → ∀ q ∈ quals, qualHolds row q = true


-- ======== the columns

/-- The interval between the ends of a range. -/
def IntRange.interval (r : IntRange) : IntInterval :=
  ⟨r.intMin.toInt, r.intMax.toInt⟩

/-- An interval cut by a comparison with a constant. -/
def cutInterval (c : Int) (optype : SQLOps) (I : IntInterval) : IntInterval :=
  match optype with
  | .kGT => ⟨max I.lo (c + 1), I.hi⟩
  | .kGE => ⟨max I.lo c, I.hi⟩
  | .kLT => ⟨I.lo, min I.hi (c - 1)⟩
  | .kLE => ⟨I.lo, min I.hi c⟩
  | .kEQ => ⟨max I.lo c, min I.hi c⟩
  | _ => I

/-- An interval of a column cut by a qualifier on it. -/
def cutByQual (tableId columnId : Int) (I : IntInterval) : Fragment.Expr → IntInterval
  | .binOper _ optype _ left (.constant ti _ constval) =>
    if qualColumn left = some (tableId, columnId) then
      cutInterval (getValueFromDatum constval ti.type) optype I
    else I
  | _ => I

/-- The interval of a column: its known range, cut by the qualifiers. An
empty one is from 0 to -1. -/
def columnHull (env : RangeEnv) (simpleQuals : Option (List Fragment.Expr))
    (tableId columnId rteIdx : Int) : Option IntInterval :=
  if tableId > 0 then
    (env.getColRange tableId columnId).map fun r =>
      match simpleQuals with
      | none => r.interval
      | some quals =>
        let I := quals.foldl (cutByQual tableId columnId) r.interval
        if I.lo > I.hi then ⟨0, -1⟩ else I
  else (env.getLeafColumnRange tableId columnId (env.isOuterJoinProj rteIdx)).map
    IntRange.interval

-- ======== the operations

/-- The exact result of an operation. -/
def ArithOp.exact : ArithOp → Int → Int → Int
  | .kPLUS => (· + ·)
  | .kMINUS => (· - ·)
  | .kMULTIPLY => (· * ·)
  | .kDIVIDE => Int.tdiv
  | .kMODULO => Int.tmod

/-- The corners of an operation, where they fit 64 bits. -/
def cornersHull (f : Int → Int → Int) (I J : IntInterval) : Option IntInterval :=
  let K := IntInterval.corners f I J
  if -2 ^ 63 ≤ K.lo ∧ K.hi < 2 ^ 63 then some K else none

def arithHull (optype : ArithOp) (lhs rhs : Option IntInterval) : Option IntInterval := do
  let I ← lhs
  let J ← rhs
  match optype with
  | .kPLUS => cornersHull (· + ·) I J
  | .kMINUS => cornersHull (· - ·) I J
  | .kMULTIPLY => cornersHull (· * ·) I J
  | .kDIVIDE => if J.lo * J.hi ≤ 0 then none else cornersHull Int.tdiv I J
  | .kMODULO => none

variable {β : Type}

mutual

def hull (env : RangeEnv) (simpleQuals : Option (List Fragment.Expr)) :
    Expr β → Option IntInterval
  | .columnVar _ tableId columnId rteIdx => columnHull env simpleQuals tableId columnId rteIdx
  | .constant ti isNull constval =>
    if isNull then none else some ⟨ti.constant constval, ti.constant constval⟩
  | .binOper _ optype left right =>
    arithHull optype (hull env simpleQuals left) (hull env simpleQuals right)
  | .uoper _ .kCAST operand => hull env simpleQuals operand
  | .uoper _ .kUMINUS _ => none
  | .caseExpr _ exprPairList elseExpr => do
      let I ← whensHull env exprPairList none
      if elseExpr.isNullConstant then return I
      else
        let J ← hull env none elseExpr
        return I.join J

/-- The interval of the results of a CASE, joined to those before. -/
def whensHull (env : RangeEnv) : Whens β → Option IntInterval → Option IntInterval
  | .nil, before => before
  | .cons _ result rest, before =>
    match hull env none result with
    | none => none
    | some I =>
      whensHull env rest (some (match before with
        | some J => J.join I
        | none => I))

end

-- ======== the condition

/-- The ends of a divisor that reach over zero are far apart enough that
their product, as an `int64_t`, is positive. -/
def ProductWraps (J : IntInterval) : Prop :=
  J.lo * J.hi ≤ 0 ∧ 0 < (J.lo * J.hi).bmod (2 ^ 64)

instance (J : IntInterval) : Decidable (ProductWraps J) :=
  inferInstanceAs (Decidable (_ ∧ _))

/-- Dropping the high bits does not lead out of an interval: it fits the
type, or has all of the type in it, or is empty. -/
def CastStays (ti : IntegerType) (I : IntInterval) : Prop :=
  I.hi < I.lo ∨ (ti.Fits I.lo ∧ ti.Fits I.hi)
    ∨ (I.lo ≤ -2 ^ (ti.bits - 1) ∧ 2 ^ (ti.bits - 1) ≤ I.hi + 1)

instance (ti : IntegerType) (I : IntInterval) : Decidable (CastStays ti I) :=
  inferInstanceAs (Decidable (_ ∨ _ ∨ _))

/-- A cast of a qualifier keeps the numbers of an interval. -/
def CastKeeps (operandTi ti : SQLTypeInfo) (I : IntInterval) : Prop :=
  operandTi.isInteger = true ∧ ti.isInteger = true
    ∧ (Fragment.bitWidth operandTi ≤ Fragment.bitWidth ti
      ∨ (-2 ^ (Fragment.bitWidth ti - 1) ≤ I.lo ∧ I.hi < 2 ^ (Fragment.bitWidth ti - 1)))

/-- The left side of a qualifier is this column, or a cast that keeps its
numbers. -/
def ReadsColumn (rteIdx : Int) (known : Option IntInterval) : Fragment.Expr → Prop
  | .columnVar _ _ _ rte => rte = rteIdx
  | .uoper ti .kCAST (.columnVar cti _ _ rte) =>
    rte = rteIdx ∧ ∀ I, known = some I → CastKeeps cti ti I
  | _ => False

/-- Every qualifier that names the column speaks of it. -/
def ColumnSafe (env : RangeEnv) (simpleQuals : Option (List Fragment.Expr))
    (tableId columnId rteIdx : Int) : Prop :=
  tableId > 0 → ∀ quals, simpleQuals = some quals →
    ∀ ti optype qualifier left right, Fragment.Expr.binOper ti optype qualifier left right ∈ quals →
      qualColumn left = some (tableId, columnId) →
      ReadsColumn rteIdx ((env.getColRange tableId columnId).map IntRange.interval) left

mutual

/-- The analysis follows exact interval arithmetic on the expression. -/
def Safe (env : RangeEnv) (simpleQuals : Option (List Fragment.Expr)) : Expr β → Prop
  | .columnVar _ tableId columnId rteIdx => ColumnSafe env simpleQuals tableId columnId rteIdx
  | .constant _ _ _ => True
  | .binOper _ optype left right =>
    Safe env simpleQuals left ∧ Safe env simpleQuals right
      ∧ (optype = .kDIVIDE → ∀ J, hull env simpleQuals right = some J → ¬ ProductWraps J)
  | .uoper ti .kCAST operand =>
    Safe env simpleQuals operand
      ∧ ∀ I, hull env simpleQuals operand = some I → CastStays ti I
  | .uoper _ .kUMINUS _ => True
  | .caseExpr _ exprPairList elseExpr =>
    WhensSafe env exprPairList ∧ Safe env none elseExpr

def WhensSafe (env : RangeEnv) : Whens β → Prop
  | .nil => True
  | .cons _ result rest => Safe env none result ∧ WhensSafe env rest

end

end Compass.Range
