/-
Analyzer expressions, as far as the simple qualifiers of a scan need them.

A filter is cut at its ANDs (`qual_to_conjunctive_form`), and each
conjunct that `BinOper::normalize_simple_predicate` accepts becomes a
simple qualifier: a column, or a CAST of a column between two integer or
two time types, compared with a constant, the column on the left. The
constant may stand on either side of the source predicate; when it stands
on the left, the operands and the comparison are turned around.

`Var` is a subclass of `ColumnVar` in Analyzer.h: a `dynamic_cast` to
`ColumnVar` accepts both, and the normalisation asks for a `ColumnVar`
that is no `Var`. Expressions of every other class are `other`.

Fragment skipping (`Executor::skipFragment`).

Before a scan is dispatched, each fragment of the outer table is held
against the simple qualifiers. A qualifier on a column of the outer table
is decided from the minimum and the maximum of the column's chunk: when
the whole range is on the wrong side of the constant, the fragment is not
scanned. The CAST that `normalize_simple_predicate` lets through is
looked through, and the range of the bare column is used. The virtual
column `rowid` has no chunk; its range comes from the row offsets of the
fragments. For any other column without chunk metadata, `chunk_min` and
`chunk_max` keep their initial value 0.

A failed CHECK and `abort()` are `none`.

What a simple predicate computes on a row of a fragment.

The row function is generated by `codegen`: a column is its decoded
value, `rowid` the position behind the fragment's offset and the table's
first rowid (`codegenRowId`), a cast between integer types the truncation
or extension that leaves NULL alone (`codegenCastBetweenIntTypes`), a cast
from TIMESTAMP to DATE `DateTruncate` to the day, and a comparison the
one on machine integers that is NULL when a nullable side holds the NULL
sentinel (`codegenCmp`). Predicates on columns that are neither integer
nor time (floats, strings, decimals) never decide a skip; what they
compute is a parameter.
-/
import Compass.Sql.Types

namespace Compass.Fragment

-- ======== data

/-- The union `Datum`: eight bytes, read at the width of a type. -/
abbrev Datum := BitVec 64

namespace Datum

def tinyintval (d : Datum) : Int := (d.truncate 8).toInt
def smallintval (d : Datum) : Int := (d.truncate 16).toInt
def intval (d : Datum) : Int := (d.truncate 32).toInt
def bigintval (d : Datum) : Int := d.toInt
def timeval (d : Datum) : Int := d.toInt

end Datum

-- ======== expressions

inductive SQLQualifier where
  | kONE | kANY | kALL
deriving DecidableEq, Repr

inductive Expr where
  | columnVar (ti : SQLTypeInfo) (tableId columnId rteIdx : Int)
  | var (ti : SQLTypeInfo) (tableId columnId rteIdx : Int)
  | constant (ti : SQLTypeInfo) (isNull : Bool) (constval : Datum)
  | uoper (ti : SQLTypeInfo) (optype : SQLOps) (operand : Expr)
  | binOper (ti : SQLTypeInfo) (optype : SQLOps) (qualifier : SQLQualifier)
      (left right : Expr)
  | other (ti : SQLTypeInfo) (tag : Nat)
deriving DecidableEq, Repr

def Expr.typeInfo : Expr → SQLTypeInfo
  | .columnVar ti _ _ _ => ti
  | .var ti _ _ _ => ti
  | .constant ti _ _ => ti
  | .uoper ti _ _ => ti
  | .binOper ti _ _ _ _ => ti
  | .other ti _ => ti

-- ======== normalisation

/-- `BinOper::simple_predicate_has_simple_cast`. -/
def simplePredicateHasSimpleCast (castOperand constOperand : Expr) : Bool :=
  match castOperand, constOperand with
  | .uoper ti .kCAST (.columnVar cti _ _ _), .constant _ _ _ =>
    -- casts between time types and between integer types pass through
    (ti.isTime && cti.isTime) || (ti.isInteger && cti.isInteger)
  | _, _ => false

/-- `ColumnVar::get_rte_idx` of the column below a simple cast. -/
def castRteIdx : Expr → Int
  | .uoper _ _ (.columnVar _ _ _ rte) => rte
  | _ => -1

/-- `BinOper::normalize_simple_predicate`: the qualifier and the range
table index of its column. -/
def normalizeSimplePredicate : Expr → Option (Expr × Int)
  | .binOper ti op qualifier left right =>
    if !op.isComparison || qualifier != .kONE then none
    else
      match left, right with
      | .uoper _ _ _, _ =>
        if simplePredicateHasSimpleCast left right then
          some (.binOper ti op qualifier left right, castRteIdx left)
        else none
      | _, .uoper _ _ _ =>
        if simplePredicateHasSimpleCast right left then
          some (.binOper ti op.commuteComparison qualifier right left, castRteIdx right)
        else none
      | .columnVar _ _ _ rte, .constant _ _ _ =>
        some (.binOper ti op qualifier left right, rte)
      | .constant _ _ _, .columnVar _ _ _ rte =>
        some (.binOper ti op.commuteComparison qualifier right left, rte)
      | _, _ => none
  | _ => none

/-- A predicate that the normalisation accepts. -/
structure SimplePredicate where
  expr : Expr
  accepted : (normalizeSimplePredicate expr).isSome

/-- The simple qualifier of the predicate. -/
def SimplePredicate.normalized (p : SimplePredicate) : Expr :=
  ((normalizeSimplePredicate p.expr).get p.accepted).1

/-- The simple qualifiers of a list of predicates. -/
def simpleQuals (preds : List SimplePredicate) : List Expr :=
  preds.map SimplePredicate.normalized


-- ======== the input

/-- `ChunkStats`, without the null flag that nothing here reads. -/
structure ChunkStats where
  min : Datum
  max : Datum

structure ColumnDescriptor where
  columnName : String
  isVirtualCol : Bool

/-- A stored row: the decoded value of each column, a NULL by the
sentinel of the column's type. -/
abbrev Row := Int → Int

structure FragmentInfo where
  rows : List Row
  chunkMetadataMap : Int → Option ChunkStats

def FragmentInfo.getNumTuples (frag : FragmentInfo) : Nat :=
  frag.rows.length

/-- The outer table of an execution unit: what `skipFragment` reads of
the input descriptor, the catalog, the table generation and the
dispatch's fragments. `iterTab` tells a RESULT input held as `IterTabPtr`. -/
structure Table where
  tableId : Int
  iterTab : Bool
  column : Int → Option ColumnDescriptor
  startRowid : Nat
  fragments : List FragmentInfo

namespace Table

variable (T : Table)

/-- `ExecutionDispatch::getFragOffsets`: the running sums of the tuple
counts, one more than there are fragments. -/
def getFragOffsets : List Nat :=
  T.fragments.foldl
    (fun offsets frag => offsets ++ [offsets.getLastD 0 + frag.getNumTuples])
    [0]

/-- `get_column_descriptor`, with its CHECKs. -/
def getColumnDescriptor (colId : Int) : Option ColumnDescriptor :=
  if 0 < T.tableId then T.column colId else none

end Table

-- ======== the constants

/-- A 64-bit unsigned value read as `int64_t`. -/
def toInt64 (n : Int) : Int :=
  n.bmod (2 ^ 64)

/-- `extract_from_datum`. -/
def extractFromDatum (d : Datum) (ti : SQLTypeInfo) : Option Int := do
  match ← ti.intType with
  | .kBOOLEAN => some d.tinyintval
  | .kSMALLINT => some d.smallintval
  | .kCHAR | .kVARCHAR | .kTEXT | .kINT => some d.intval
  | .kBIGINT => some d.bigintval
  | .kTIME | .kTIMESTAMP | .kDATE => some d.timeval
  | _ => none

def extractMinStat (stats : ChunkStats) (ti : SQLTypeInfo) : Option Int :=
  extractFromDatum stats.min ti

def extractMaxStat (stats : ChunkStats) (ti : SQLTypeInfo) : Option Int :=
  extractFromDatum stats.max ti

/-- `inlineIntNull` at the integer, boolean and time types: the least
value of the type. A string constant does not come here, since its left
side is a string too. -/
def inlineIntNull (ti : SQLTypeInfo) : Option Int := do
  match ← ti.intType with
  | .kBOOLEAN => some (-2 ^ 7)
  | .kSMALLINT => some (-2 ^ 15)
  | .kINT => some (-2 ^ 31)
  | .kBIGINT | .kTIME | .kTIMESTAMP | .kDATE | .kINTERVAL_DAY_TIME
  | .kINTERVAL_YEAR_MONTH => some (-2 ^ 63)
  | _ => none

/-- `codegenIntConst(..)->getSExtValue()`. -/
def codegenIntConst (ti : SQLTypeInfo) (isNull : Bool) (constval : Datum) :
    Option Int :=
  if isNull then inlineIntNull ti
  else do
    match ← ti.intType with
    | .kSMALLINT => some constval.smallintval
    | .kINT => some constval.intval
    | .kBIGINT => some constval.bigintval
    | .kTIME | .kTIMESTAMP | .kDATE | .kINTERVAL_DAY_TIME
    | .kINTERVAL_YEAR_MONTH => some constval.timeval
    | _ => none

-- ======== the ranges

/-- `dynamic_cast<const Analyzer::ColumnVar*>` with the conditions on the
table and the range table index: type and column id of a column of the
outer table. -/
def asOuterColumn : Expr → Option (SQLTypeInfo × Int)
  | .columnVar ti tableId colId rte
  | .var ti tableId colId rte =>
    if tableId = 0 || rte ≠ 0 then none else some (ti, colId)
  | _ => none

/-- The column a qualifier is decided on: the left side, or what stands
below its cast. The inner `none` is the loop's `continue`. -/
def qualColumn (lhs : Expr) : Option (Option (SQLTypeInfo × Int)) :=
  match asOuterColumn lhs with
  | some c => some (some c)
  | none =>
    match lhs with
    | .uoper _ optype operand =>
      if optype = .kCAST then some (asOuterColumn operand) else none
    | _ => some none

/-- `chunk_min`, `chunk_max` and `is_rowid`. -/
structure ChunkRange where
  chunkMin : Int
  chunkMax : Int
  isRowid : Bool

/-- The range of the rowid in the fragment, in `uint64_t` and then read
as `int64_t`. -/
def Table.rowidRange (T : Table) (fragIdx : Nat) : ChunkRange :=
  let offsets := T.getFragOffsets
  { chunkMin := toInt64 (offsets.getD fragIdx 0 + T.startRowid)
    chunkMax := toInt64 ((offsets.getD (fragIdx + 1) 0 : Int) - 1 + T.startRowid)
    isRowid := true }

def Table.chunkRange (T : Table) (frag : FragmentInfo) (fragIdx : Nat)
    (ti : SQLTypeInfo) (colId : Int) : Option ChunkRange :=
  match frag.chunkMetadataMap colId with
  | none => do
      let cd ← T.getColumnDescriptor colId
      if cd.isVirtualCol then
        if cd.columnName = "rowid" then some (T.rowidRange fragIdx) else none
      else some ⟨0, 0, false⟩
  | some stats => do
      let chunkMin ← extractMinStat stats ti
      let chunkMax ← extractMaxStat stats ti
      some ⟨chunkMin, chunkMax, false⟩

-- ======== the loop

/-- How the loop goes on after a qualifier: `return {true, -1}`,
`return {false, key}`, or the next one. -/
inductive Verdict where
  | skip
  | stop (key : Int)
  | next
deriving DecidableEq, Repr

/-- The `switch` over the comparison. -/
def rangeVerdict (op : SQLOps) (range : ChunkRange) (rhsVal startRowid : Int) :
    Verdict :=
  match op with
  | .kGE => if range.chunkMax < rhsVal then .skip else .next
  | .kGT => if range.chunkMax ≤ rhsVal then .skip else .next
  | .kLE => if range.chunkMin > rhsVal then .skip else .next
  | .kLT => if range.chunkMin ≥ rhsVal then .skip else .next
  | .kEQ =>
    if range.chunkMin > rhsVal || range.chunkMax < rhsVal then .skip
    else if range.isRowid then .stop (toInt64 (rhsVal - startRowid))
    else .next
  | _ => .next

/-- The body of the loop. -/
def Table.qualVerdict (T : Table) (frag : FragmentInfo) (fragIdx : Nat) :
    Expr → Option Verdict
  | .binOper _ op _ lhs rhs =>
    match qualColumn lhs with
    | none => none
    | some none => some .next
    | some (some (ti, colId)) =>
      match rhs with
      | .constant cti isNull constval =>
        if !lhs.typeInfo.isInteger && !lhs.typeInfo.isTime then some .next
        else do
          let range ← T.chunkRange frag fragIdx ti colId
          let rhsVal ← codegenIntConst cti isNull constval
          some (rangeVerdict op range rhsVal T.startRowid)
      | _ => some (.stop (-1))
  | _ => some (.stop (-1))

def Table.skipLoop (T : Table) (frag : FragmentInfo) (fragIdx : Nat) :
    List Expr → Option (Bool × Int)
  | [] => some (false, -1)
  | qual :: quals =>
    match T.qualVerdict frag fragIdx qual with
    | none => none
    | some .skip => some (true, -1)
    | some (.stop key) => some (false, key)
    | some .next => T.skipLoop frag fragIdx quals

/-- `Executor::skipFragment`. -/
def Table.skipFragment (T : Table) (frag : FragmentInfo) (quals : List Expr)
    (fragIdx : Nat) : Option (Bool × Int) :=
  if T.iterTab then some (false, -1) else T.skipLoop frag fragIdx quals


-- ======== casts

/-- `get_bit_width` at the integer and time types, `time_t` of 64 bits. -/
def bitWidth (ti : SQLTypeInfo) : Nat :=
  match ti.type with
  | .kSMALLINT => 16
  | .kINT => 32
  | _ => 64

/-- `SECSPERDAY`. -/
def secsPerDay : Int := 86400

/-- `DateTruncate(dtDAY, timeval)`: the division rounds towards zero, and
a negative product is pushed down by one more day. -/
def dateTruncateDay (timeval : Int) : Int :=
  let ret := timeval.tdiv secsPerDay * secsPerDay
  if ret < 0 then toInt64 (ret - secsPerDay) else ret

/-- `inline_int_null_val` at the integer and time types. -/
def nullVal (ti : SQLTypeInfo) : Int :=
  -2 ^ (bitWidth ti - 1)

/-- The value is the NULL of a nullable type. -/
def isNullVal (ti : SQLTypeInfo) (v : Int) : Bool :=
  !ti.notnull && v == nullVal ti

/-- `codegenCastTimestampToDate`. -/
def castTimestampToDate (nullable : Bool) (ts : Int) : Int :=
  if nullable && ts == -2 ^ 63 then ts else dateTruncateDay ts

/-- `codegenCastBetweenIntTypes` without decimals: `Trunc` drops the high
bits, `SExt` keeps the value, and a nullable operand maps the one
sentinel to the other. -/
def castBetweenIntTypes (operandTi ti : SQLTypeInfo) (v : Int) : Int :=
  if bitWidth ti = bitWidth operandTi then v
  else if isNullVal operandTi v then nullVal ti
  else if bitWidth operandTi < bitWidth ti then v
  else v.bmod (2 ^ bitWidth ti)

/-- `codegenCast` between integer and between time types. -/
def codegenCast (operandTi ti : SQLTypeInfo) (v : Int) : Int :=
  if operandTi.type = .kTIMESTAMP ∧ ti.type = .kDATE then
    castTimestampToDate (!ti.notnull) v
  else castBetweenIntTypes operandTi ti v

-- ======== comparisons

/-- The comparison of two machine integers. -/
def icmp : SQLOps → Int → Int → Bool
  | .kEQ, l, r => l == r
  | .kNE, l, r => l != r
  | .kLT, l, r => decide (l < r)
  | .kGT, l, r => decide (l > r)
  | .kLE, l, r => decide (l ≤ r)
  | .kGE, l, r => decide (l ≥ r)
  | _, _, _ => false

/-- `codegenCmp`: TRUE, FALSE or NULL. `kBW_EQ` is lowered to an equality
or two NULLs. -/
def codegenCmp (op : SQLOps) (lhsTi rhsTi : SQLTypeInfo) (l r : Int) :
    Option Bool :=
  if op = .kBW_EQ then
    if isNullVal lhsTi l && isNullVal rhsTi r then some true
    else if isNullVal lhsTi l || isNullVal rhsTi r then none
    else some (icmp .kEQ l r)
  else if isNullVal lhsTi l || isNullVal rhsTi r then none
  else some (icmp op l r)

-- ======== rows

namespace Table

variable (T : Table) (frag : FragmentInfo) (fragIdx pos : Nat)

/-- `codegenRowId`, in 64-bit additions. -/
def rowId : Int :=
  toInt64 (pos + T.getFragOffsets.getD fragIdx 0 + T.startRowid)

/-- The column of the outer table is a virtual one. -/
def isVirtual (colId : Int) : Bool :=
  match T.getColumnDescriptor colId with
  | some cd => cd.isVirtualCol
  | none => false

/-- The value of a column of the outer table in a row of the fragment. -/
def outerValue (colId : Int) : Int :=
  if T.isVirtual colId then T.rowId fragIdx pos
  else (frag.rows.getD pos fun _ => 0) colId

end Table

/-- Where the row function stands: the outer table, the fragment with
its index, the position in it, the values of the inner tables by range
table index and column, and the truth of the predicates on other types. -/
structure Cursor where
  table : Table
  frag : FragmentInfo
  fragIdx : Nat
  pos : Nat
  inner : Int → Int → Int
  otherHolds : Expr → Bool

namespace Cursor

variable (c : Cursor)

def outerValue (colId : Int) : Int :=
  c.table.outerValue c.frag c.fragIdx c.pos colId

def columnValue (colId rteIdx : Int) : Int :=
  if rteIdx = 0 then c.outerValue colId else c.inner rteIdx colId

/-- `codegen` of an operand of a simple predicate. -/
def operandValue : Expr → Option Int
  | .columnVar _ _ colId rte => some (c.columnValue colId rte)
  | .constant ti isNull constval => codegenIntConst ti isNull constval
  | .uoper ti .kCAST (.columnVar cti _ colId rte) =>
    some (codegenCast cti ti (c.columnValue colId rte))
  | _ => none

/-- The comparison is one of machine integers. -/
def isIntCmp (l r : Expr) : Bool :=
  l.typeInfo.isInteger || l.typeInfo.isTime
    || r.typeInfo.isInteger || r.typeInfo.isTime

/-- The row satisfies the predicate. Operands of different types fail the
CHECK of `codegenCmp`. -/
def holds : Expr → Bool
  | .binOper ti op qualifier l r =>
    if isIntCmp l r then
      match c.operandValue l, c.operandValue r with
      | some lv, some rv =>
        l.typeInfo.type == r.typeInfo.type
          && codegenCmp op l.typeInfo r.typeInfo lv rv == some true
      | _, _ => false
    else c.otherHolds (.binOper ti op qualifier l r)
  | e => c.otherHolds e

/-- The row satisfies every predicate of the list. -/
def HoldsAll (preds : List SimplePredicate) : Prop :=
  ∀ p ∈ preds, c.holds p.expr = true

end Cursor

end Compass.Fragment
