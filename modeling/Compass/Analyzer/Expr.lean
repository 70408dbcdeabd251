/-
`SQLTypeInfo` of sqltypes.h with all its fields, as the analyzer works
with it.

`notnull` is part of the type for both comparison operators, `size` is
not. A dictionary id counts up to its sign: a transient dictionary stands
next to the regular one under the negated id.

The asserts of `get_storage_size` are compiled out of a release build,
and what follows them is the common `return -1`. The last branch but one
of `is_castable`, for two arrays, is behind the first, which already
accepts two types of one kind.

The expression trees of Analyzer.h, their `deep_copy` and their
`operator==`.

# The classes

`Expr` has one constructor for each class that derives from
`Analyzer::Expr`, with the members of the class. `type_info` belongs to
the base class and is in every constructor, since `set_type_info` may
change it after the node was made. `contains_agg` is kept where the
constructor takes it.

# Pointers

Nodes are held by shared pointers, and three comparisons look at the
pointers themselves: the arguments of an aggregate are compared by
address only, and the escape expressions of LIKE and REGEXP by address
first. Those members carry their address. A copy is at an address of its
own, given by `alloc`; an aggregate's copy holds the arguments of the
original, not the copies that `AggExpr::deep_copy` makes and drops.

# Failures

`CHECK(false)` ends the process, and so does reading through a null
pointer; both are faults. The comparisons of Subquery and NDVEstimator
are nothing but a CHECK, and `Datum_equal` has one for every type that it
does not list.

# Floating point

`float` and `double` are their bits. `==` on them is that of IEEE 754:
a NaN is not equal to anything, and the two zeros are equal.

# Truth

The truth of a condition on a row.

A row says which value an expression has, none for NULL, which values are
equal, and the truth of a predicate that is not looked into. Of these the
truth of equalities, IN lists, AND, OR and NOT follows. A `kBW_EQ` is the
equality that is never unknown, and an equality of two tuples is the
conjunction of the equalities of their components. A likelihood says
nothing about the truth.

Values that are compared may be of different types: `eq` stands for the
comparison after promotion to the type that the two have in common.
-/
import Compass.Lib.Kleene
import Compass.Sql.Types

namespace Compass.Analyzer

-- ======== enumerations

inductive EncodingType where
  | kENCODING_NONE | kENCODING_FIXED | kENCODING_RL | kENCODING_DIFF
  | kENCODING_DICT | kENCODING_SPARSE
deriving DecidableEq, Repr

inductive SQLQualifier where
  | kONE | kANY | kALL
deriving DecidableEq, Repr

inductive SQLAgg where
  | kAVG | kMIN | kMAX | kSUM | kCOUNT | kAPPROX_COUNT_DISTINCT
  | kFAGMS_SKETCH
deriving DecidableEq, Repr

/-- The static table `type_name`. -/
def typeName : SQLTypes → String
  | .kNULLT => "NULL"
  | .kBOOLEAN => "BOOLEAN"
  | .kCHAR => "CHAR"
  | .kVARCHAR => "VARCHAR"
  | .kNUMERIC => "NUMERIC"
  | .kDECIMAL => "DECIMAL"
  | .kINT => "INTEGER"
  | .kSMALLINT => "SMALLINT"
  | .kFLOAT => "FLOAT"
  | .kDOUBLE => "DOUBLE"
  | .kTIME => "TIME"
  | .kTIMESTAMP => "TIMESTAMP"
  | .kBIGINT => "BIGINT"
  | .kTEXT => "TEXT"
  | .kDATE => "DATE"
  | .kARRAY => "ARRAY"
  | .kINTERVAL_DAY_TIME => "INTERVAL_DAY_TIME"
  | .kINTERVAL_YEAR_MONTH => "INTERVAL_YEAR_MONTH"

-- ======== types

structure SQLTypeInfo where
  type : SQLTypes
  subtype : SQLTypes
  dimension : Int
  scale : Int
  notnull : Bool
  compression : EncodingType
  compParam : Int
  size : Int
deriving DecidableEq, Repr

/-- `TRANSIENT_DICT`. -/
def transientDict (id : Int) : Int :=
  -id

def transientDictId : Int := 0

namespace SQLTypeInfo

/-- `get_storage_size`, of the fields that it reads. -/
def getStorageSize (type : SQLTypes) (compression : EncodingType) (compParam : Int) : Int :=
  match type, compression with
  | .kBOOLEAN, _ => 1
  | .kSMALLINT, .kENCODING_NONE => 2
  | .kINT, .kENCODING_NONE => 4
  | .kBIGINT, .kENCODING_NONE | .kNUMERIC, .kENCODING_NONE
  | .kDECIMAL, .kENCODING_NONE => 8
  | .kSMALLINT, .kENCODING_FIXED | .kSMALLINT, .kENCODING_SPARSE
  | .kINT, .kENCODING_FIXED | .kINT, .kENCODING_SPARSE
  | .kBIGINT, .kENCODING_FIXED | .kBIGINT, .kENCODING_SPARSE
  | .kNUMERIC, .kENCODING_FIXED | .kNUMERIC, .kENCODING_SPARSE
  | .kDECIMAL, .kENCODING_FIXED | .kDECIMAL, .kENCODING_SPARSE => compParam.tdiv 8
  | .kFLOAT, .kENCODING_NONE => 4
  | .kDOUBLE, .kENCODING_NONE => 8
  | .kTIME, .kENCODING_NONE | .kTIMESTAMP, .kENCODING_NONE | .kDATE, .kENCODING_NONE
  | .kINTERVAL_DAY_TIME, .kENCODING_NONE | .kINTERVAL_YEAR_MONTH, .kENCODING_NONE => 8
  | .kTIME, .kENCODING_FIXED | .kTIMESTAMP, .kENCODING_FIXED | .kDATE, .kENCODING_FIXED
  | .kINTERVAL_DAY_TIME, .kENCODING_FIXED
  | .kINTERVAL_YEAR_MONTH, .kENCODING_FIXED => compParam.tdiv 8
  | .kTEXT, .kENCODING_DICT | .kVARCHAR, .kENCODING_DICT | .kCHAR, .kENCODING_DICT => 4
  | _, _ => -1

/-- The constructor with all the fields. -/
def make (t : SQLTypes) (d s : Int) (n : Bool) (c : EncodingType) (p : Int) (st : SQLTypes) :
    SQLTypeInfo :=
  ⟨t, st, d, s, n, c, p, getStorageSize t c p⟩

/-- The constructor with dimension and scale. -/
def scaled (t : SQLTypes) (d s : Int) (n : Bool) : SQLTypeInfo :=
  make t d s n .kENCODING_NONE 0 .kNULLT

/-- The constructor without. -/
def plain (t : SQLTypes) (n : Bool) : SQLTypeInfo :=
  scaled t 0 0 n

/-- The default constructor. -/
def null : SQLTypeInfo :=
  ⟨.kNULLT, .kNULLT, 0, 0, false, .kENCODING_NONE, 0, 0⟩

variable (ti : SQLTypeInfo)

def setFixedSize : SQLTypeInfo :=
  { ti with size := getStorageSize ti.type ti.compression ti.compParam }

def getTypeName : String :=
  let ps :=
    if ti.type = .kDECIMAL ∨ ti.type = .kNUMERIC ∨ ti.subtype = .kDECIMAL
        ∨ ti.subtype = .kNUMERIC then
      "(" ++ toString ti.dimension ++ "," ++ toString ti.scale ++ ")"
    else ""
  if ti.type = .kARRAY then typeName ti.subtype ++ ps ++ "[]" else typeName ti.type ++ ps

-- ======== predicates

def isString : Bool :=
  ti.type == .kTEXT || ti.type == .kVARCHAR || ti.type == .kCHAR

def isInteger : Bool :=
  ti.type == .kINT || ti.type == .kSMALLINT || ti.type == .kBIGINT

def isDecimal : Bool :=
  ti.type == .kDECIMAL || ti.type == .kNUMERIC

def isNumber : Bool :=
  ti.type == .kINT || ti.type == .kSMALLINT || ti.type == .kDOUBLE || ti.type == .kFLOAT
    || ti.type == .kBIGINT || ti.type == .kNUMERIC || ti.type == .kDECIMAL

def isTime : Bool :=
  ti.type == .kTIME || ti.type == .kTIMESTAMP || ti.type == .kDATE

def isBoolean : Bool :=
  ti.type == .kBOOLEAN

def isTimeinterval : Bool :=
  ti.type == .kINTERVAL_DAY_TIME || ti.type == .kINTERVAL_YEAR_MONTH

/-- `operator==`. -/
def operatorEq (rhs : SQLTypeInfo) : Bool :=
  ti.type == rhs.type && ti.subtype == rhs.subtype && ti.dimension == rhs.dimension
    && ti.scale == rhs.scale && ti.compression == rhs.compression
    && (ti.compression == .kENCODING_NONE || ti.compParam == rhs.compParam
      || ti.compParam == transientDict rhs.compParam)
    && ti.notnull == rhs.notnull

/-- `operator!=`. -/
def operatorNe (rhs : SQLTypeInfo) : Bool :=
  ti.type != rhs.type || ti.subtype != rhs.subtype || ti.dimension != rhs.dimension
    || ti.scale != rhs.scale || ti.compression != rhs.compression
    || (ti.compression != .kENCODING_NONE && ti.compParam != rhs.compParam
      && ti.compParam != transientDict rhs.compParam)
    || ti.notnull != rhs.notnull

def isCastable (newTypeInfo : SQLTypeInfo) : Bool :=
  ti.type == newTypeInfo.type
    || (ti.isString || newTypeInfo.isString)
    || (ti.isNumber && newTypeInfo.isNumber)
    || ((ti.type == .kTIMESTAMP || ti.type == .kDATE) && newTypeInfo.isNumber)
    || (ti.type == .kDATE && newTypeInfo.type == .kTIMESTAMP)
    || (ti.type == .kTIMESTAMP && newTypeInfo.type == .kDATE)
    || (ti.type == .kBOOLEAN && newTypeInfo.isNumber)

end SQLTypeInfo


inductive Fault where
  | check
  | nullPointer
  | bounds
  | runtimeError (message : String)
deriving DecidableEq, Repr

-- ======== floating point

def isNaN32 (x : BitVec 32) : Bool :=
  2 ^ 31 - 2 ^ 23 < x.toNat % 2 ^ 31

def isNaN64 (x : BitVec 64) : Bool :=
  2 ^ 63 - 2 ^ 52 < x.toNat % 2 ^ 63

/-- The number without the sign of a zero. -/
def number32 (x : BitVec 32) : BitVec 32 :=
  if x.toNat % 2 ^ 31 = 0 then 0 else x

def number64 (x : BitVec 64) : BitVec 64 :=
  if x.toNat % 2 ^ 63 = 0 then 0 else x

/-- `==` of two values of type `float`. -/
def floatEq (x y : BitVec 32) : Bool :=
  !isNaN32 x && !isNaN32 y && number32 x == number32 y

/-- `==` of two values of type `double`. -/
def doubleEq (x y : BitVec 64) : Bool :=
  !isNaN64 x && !isNaN64 y && number64 x == number64 y

-- ======== datums

/-- The union `Datum`: eight bytes, and what `stringval` points to. -/
structure Datum where
  bits : BitVec 64
  stringval : Option (List UInt8)
deriving DecidableEq, Repr

namespace Datum

def boolval (d : Datum) : Bool := d.bits.toNat % 2 ^ 8 != 0
def smallintval (d : Datum) : Int := (d.bits.truncate 16).toInt
def intval (d : Datum) : Int := (d.bits.truncate 32).toInt
def bigintval (d : Datum) : Int := d.bits.toInt
def timeval (d : Datum) : Int := d.bits.toInt
def floatval (d : Datum) : BitVec 32 := d.bits.truncate 32
def doubleval (d : Datum) : BitVec 64 := d.bits

/-- A write of an integer member. -/
def ofInt (n : Int) : Datum := ⟨BitVec.ofInt 64 n, none⟩

def ofBool (b : Bool) : Datum := ofInt (if b then 1 else 0)
def ofFloat (x : BitVec 32) : Datum := ⟨x.zeroExtend 64, none⟩
def ofDouble (x : BitVec 64) : Datum := ⟨x, none⟩

end Datum

/-- `Constant::set_null_value`. -/
def nullValue : SQLTypes → Except Fault Datum
  -- INT8_MIN, stored in a bool
  | .kBOOLEAN => .ok (.ofBool true)
  | .kINT => .ok (.ofInt (-(2 ^ 31)))
  | .kSMALLINT => .ok (.ofInt (-(2 ^ 15)))
  | .kBIGINT | .kNUMERIC | .kDECIMAL => .ok (.ofInt (-(2 ^ 63)))
  | .kTIME | .kTIMESTAMP | .kDATE => .ok (.ofInt (-(2 ^ 63)))
  | .kVARCHAR | .kCHAR | .kTEXT => .ok ⟨0, none⟩
  -- FLT_MIN and DBL_MIN
  | .kFLOAT => .ok (.ofFloat (BitVec.ofNat 32 (2 ^ 23)))
  | .kDOUBLE => .ok (.ofDouble (BitVec.ofNat 64 (2 ^ 52)))
  | .kNULLT => .ok (.ofInt 0)
  | _ => .error .check

/-- `Datum_equal`. -/
def datumEqual (ti : SQLTypeInfo) (val1 val2 : Datum) : Except Fault Bool :=
  match ti.type with
  | .kBOOLEAN => .ok (val1.boolval == val2.boolval)
  | .kCHAR | .kVARCHAR | .kTEXT =>
    match val1.stringval, val2.stringval with
    | some s1, some s2 => .ok (s1 == s2)
    | _, _ => .error .nullPointer
  | .kNUMERIC | .kDECIMAL | .kBIGINT => .ok (val1.bigintval == val2.bigintval)
  | .kINT => .ok (val1.intval == val2.intval)
  | .kSMALLINT => .ok (val1.smallintval == val2.smallintval)
  | .kFLOAT => .ok (floatEq val1.floatval val2.floatval)
  | .kDOUBLE => .ok (doubleEq val1.doubleval val2.doubleval)
  | .kTIME | .kTIMESTAMP => .ok (val1.timeval == val2.timeval)
  | _ => .error .check

-- ======== expressions

abbrev Addr := Nat

inductive WhichRow where
  | kINPUT_OUTER | kINPUT_INNER | kOUTPUT | kGROUPBY
deriving DecidableEq, Repr

inductive ExtractField where
  | kYEAR | kQUARTER | kMONTH | kDAY | kHOUR | kMINUTE | kSECOND | kDOW
  | kISODOW | kDOY | kEPOCH | kQUARTERDAY | kWEEK
deriving DecidableEq, Repr

/-- `DatetruncField`, and `DateaddField`, which has the same members. -/
inductive DateField where
  | year | quarter | month | day | hour | minute | second | millennium
  | century | decade | millisecond | microsecond | week | quarterday
  | invalid
deriving DecidableEq, Repr

/-- A Constant, when it is held by itself. -/
structure ErrorRate where
  typeInfo : SQLTypeInfo
  isNull : Bool
  constval : Datum
deriving DecidableEq, Repr

inductive Expr where
  | columnVar (ti : SQLTypeInfo) (tableId columnId rteIdx : Int)
  | var (ti : SQLTypeInfo) (tableId columnId rteIdx : Int) (whichRow : WhichRow) (varno : Int)
  | expressionTuple (ti : SQLTypeInfo) (tuple : List Expr)
  | constant (ti : SQLTypeInfo) (isNull : Bool) (constval : Datum)
  | uoper (ti : SQLTypeInfo) (containsAgg : Bool) (optype : SQLOps) (operand : Expr)
  | binOper (ti : SQLTypeInfo) (containsAgg : Bool) (optype : SQLOps)
      (qualifier : SQLQualifier) (leftOperand rightOperand : Expr)
  | subquery (ti : SQLTypeInfo) (parsetree : Addr)
  | inValues (ti : SQLTypeInfo) (arg : Expr) (valueList : List Expr)
  | inIntegerSet (ti : SQLTypeInfo) (arg : Expr) (valueList : List Int)
  | charLengthExpr (ti : SQLTypeInfo) (arg : Expr) (calcEncodedLength : Bool)
  | likeExpr (ti : SQLTypeInfo) (arg likeExpr : Expr) (escapeExpr : Option (Addr × Expr))
      (isIlike isSimple : Bool)
  | regexpExpr (ti : SQLTypeInfo) (arg patternExpr : Expr) (escapeExpr : Option (Addr × Expr))
  | likelihoodExpr (ti : SQLTypeInfo) (arg : Expr) (likelihood : BitVec 32)
  | aggExpr (ti : SQLTypeInfo) (aggtype : SQLAgg) (args : List (Addr × Expr))
      (isDistinct : Bool) (errorRate : Option ErrorRate)
  | caseExpr (ti : SQLTypeInfo) (containsAgg : Bool) (exprPairList : List (Expr × Expr))
      (elseExpr : Option Expr)
  | extractExpr (ti : SQLTypeInfo) (containsAgg : Bool) (field : ExtractField) (fromExpr : Expr)
  | dateaddExpr (ti : SQLTypeInfo) (field : DateField) (number datetime : Expr)
  | datediffExpr (ti : SQLTypeInfo) (field : DateField) (start stop : Expr)
  | datetruncExpr (ti : SQLTypeInfo) (containsAgg : Bool) (field : DateField) (fromExpr : Expr)
  | functionOper (ti : SQLTypeInfo) (name : String) (args : List Expr)
  | functionOperWithCustomTypeHandling (ti : SQLTypeInfo) (name : String) (args : List Expr)
  | iterExpr (ti : SQLTypeInfo) (tableId rteIdx : Int)
  | ndvEstimator (ti : SQLTypeInfo) (exprTuple : List Expr)
deriving Repr

namespace Expr

def typeInfo : Expr → SQLTypeInfo
  | columnVar ti .. | var ti .. | expressionTuple ti .. | constant ti .. | uoper ti ..
  | binOper ti .. | subquery ti .. | inValues ti .. | inIntegerSet ti .. | charLengthExpr ti ..
  | likeExpr ti .. | regexpExpr ti .. | likelihoodExpr ti .. | aggExpr ti .. | caseExpr ti ..
  | extractExpr ti .. | dateaddExpr ti .. | datediffExpr ti .. | datetruncExpr ti ..
  | functionOper ti .. | functionOperWithCustomTypeHandling ti .. | iterExpr ti ..
  | ndvEstimator ti .. => ti

def getContainsAgg : Expr → Bool
  | uoper _ b .. | binOper _ b .. | caseExpr _ b .. | extractExpr _ b ..
  | datetruncExpr _ b .. => b
  | aggExpr .. => true
  | _ => false

/-- A `dynamic_cast` to ColumnVar, of which Var is a subclass. -/
def isColumnVar : Expr → Bool
  | columnVar .. | var .. => true
  | _ => false

/-- `is_expr_nullable`. -/
def isExprNullable : Expr → Bool
  | constant _ isNull _ => isNull
  | e => !e.typeInfo.notnull

/-- `is_in_values_nullable`. -/
def isInValuesNullable (a : Expr) (l : List Expr) : Bool :=
  a.isExprNullable || l.any isExprNullable

-- ======== copies

/-- `Constant::deep_copy`, with the constructor that it calls. -/
def deepCopyConstant (ti : SQLTypeInfo) (isNull : Bool) (constval : Datum) :
    Except Fault Expr :=
  if isNull then do
    let d ← nullValue ti.type
    return constant ti isNull d
  else if ti.isString && constval.stringval.isNone then .error .nullPointer
  else .ok (constant ti isNull constval)

mutual

def deepCopy (alloc : Addr → Addr) : Expr → Except Fault Expr
  | columnVar ti tableId columnId rteIdx => .ok (columnVar ti tableId columnId rteIdx)
  | var ti tableId columnId rteIdx whichRow varno =>
    .ok (var ti tableId columnId rteIdx whichRow varno)
  | expressionTuple _ tuple => do
      let tupleDeepCopy ← deepCopyColumns alloc tuple
      return expressionTuple .null tupleDeepCopy
  | constant ti isNull constval => deepCopyConstant ti isNull constval
  | uoper ti containsAgg optype operand => do
      let operand ← deepCopy alloc operand
      return uoper ti containsAgg optype operand
  | binOper ti containsAgg optype qualifier leftOperand rightOperand => do
      let leftOperand ← deepCopy alloc leftOperand
      let rightOperand ← deepCopy alloc rightOperand
      return binOper ti containsAgg optype qualifier leftOperand rightOperand
  | subquery _ _ => .error .check
  | inValues _ arg valueList => do
      let newValueList ← deepCopyList alloc valueList
      let arg ← deepCopy alloc arg
      return inValues (.plain .kBOOLEAN !isInValuesNullable arg newValueList) arg newValueList
  | inIntegerSet ti arg valueList =>
    .ok (inIntegerSet (.plain .kBOOLEAN ti.notnull) arg valueList)
  | charLengthExpr _ arg calcEncodedLength => do
      let arg ← deepCopy alloc arg
      return charLengthExpr (.plain .kINT arg.typeInfo.notnull) arg calcEncodedLength
  | likeExpr _ arg like escapeExpr isIlike isSimple => do
      let arg ← deepCopy alloc arg
      let like ← deepCopy alloc like
      let escapeExpr ← deepCopyEscape alloc escapeExpr
      return likeExpr (.plain .kBOOLEAN arg.typeInfo.notnull) arg like escapeExpr isIlike isSimple
  | regexpExpr _ arg patternExpr escapeExpr => do
      let arg ← deepCopy alloc arg
      let patternExpr ← deepCopy alloc patternExpr
      let escapeExpr ← deepCopyEscape alloc escapeExpr
      return regexpExpr (.plain .kBOOLEAN arg.typeInfo.notnull) arg patternExpr escapeExpr
  | likelihoodExpr _ arg likelihood => do
      let arg ← deepCopy alloc arg
      return likelihoodExpr (.plain .kBOOLEAN arg.typeInfo.notnull) arg likelihood
  | aggExpr ti aggtype args isDistinct errorRate => do
      -- the copies are not used
      let _ ← deepCopyArgs alloc args
      return aggExpr ti aggtype args isDistinct errorRate
  | caseExpr ti containsAgg exprPairList elseExpr => do
      let newList ← deepCopyPairs alloc exprPairList
      let elseExpr ← deepCopyElse alloc elseExpr
      return caseExpr ti containsAgg newList elseExpr
  | extractExpr ti containsAgg field fromExpr => do
      let fromExpr ← deepCopy alloc fromExpr
      return extractExpr ti containsAgg field fromExpr
  | dateaddExpr ti field number datetime => do
      let number ← deepCopy alloc number
      let datetime ← deepCopy alloc datetime
      return dateaddExpr ti field number datetime
  | datediffExpr ti field start stop => do
      let start ← deepCopy alloc start
      let stop ← deepCopy alloc stop
      return datediffExpr ti field start stop
  | datetruncExpr ti containsAgg field fromExpr => do
      let fromExpr ← deepCopy alloc fromExpr
      return datetruncExpr ti containsAgg field fromExpr
  | functionOper ti name args => do
      let argsCopy ← deepCopyList alloc args
      return functionOper ti name argsCopy
  | functionOperWithCustomTypeHandling ti name args => do
      let argsCopy ← deepCopyList alloc args
      return functionOperWithCustomTypeHandling ti name argsCopy
  | iterExpr ti tableId rteIdx => .ok (iterExpr ti tableId rteIdx)
  | ndvEstimator _ _ => .error .check

def deepCopyList (alloc : Addr → Addr) : List Expr → Except Fault (List Expr)
  | [] => .ok []
  | e :: es => do
      let copy ← deepCopy alloc e
      let copies ← deepCopyList alloc es
      return copy :: copies

/-- The loop of `ExpressionTuple::deep_copy`, with its CHECK. -/
def deepCopyColumns (alloc : Addr → Addr) : List Expr → Except Fault (List Expr)
  | [] => .ok []
  | e :: es => do
      let copy ← deepCopy alloc e
      if !copy.isColumnVar then .error .check
      let copies ← deepCopyColumns alloc es
      return copy :: copies

def deepCopyEscape (alloc : Addr → Addr) :
    Option (Addr × Expr) → Except Fault (Option (Addr × Expr))
  | none => .ok none
  | some (addr, e) => do
      let copy ← deepCopy alloc e
      return some (alloc addr, copy)

def deepCopyElse (alloc : Addr → Addr) : Option Expr → Except Fault (Option Expr)
  | none => .ok none
  | some e => do
      let copy ← deepCopy alloc e
      return some copy

def deepCopyArgs (alloc : Addr → Addr) : List (Addr × Expr) → Except Fault (List Expr)
  | [] => .ok []
  | (_, e) :: args => do
      let copy ← deepCopy alloc e
      let copies ← deepCopyArgs alloc args
      return copy :: copies

def deepCopyPairs (alloc : Addr → Addr) :
    List (Expr × Expr) → Except Fault (List (Expr × Expr))
  | [] => .ok []
  | (e₁, e₂) :: pairs => do
      let copy₁ ← deepCopy alloc e₁
      let copy₂ ← deepCopy alloc e₂
      let copies ← deepCopyPairs alloc pairs
      return (copy₁, copy₂) :: copies

end

example (alloc : Addr → Addr) (ti : SQLTypeInfo) (parsetree : Addr) :
    deepCopy alloc (subquery ti parsetree) = .error .check := by
  rw [deepCopy]

-- ======== equality

/-- `&&`. -/
def andAlso (x y : Except Fault Bool) : Except Fault Bool :=
  match x with
  | .ok true => y
  | .ok false => .ok false
  | .error f => .error f

/-- `ColumnVar::operator==`, which Var inherits: `v` is what a Var has
more. -/
def columnVarEq (tableId columnId rteIdx : Int) (v : Option (WhichRow × Int)) : Expr → Bool
  | columnVar _ tableId' columnId' rteIdx' =>
    if rteIdx ≠ -1 then tableId = tableId' && columnId = columnId' && rteIdx = rteIdx'
    else false
  | var _ tableId' columnId' rteIdx' whichRow' varno' =>
    if rteIdx ≠ -1 then tableId = tableId' && columnId = columnId' && rteIdx = rteIdx'
    else
      match v with
      | none => false
      | some (whichRow, varno) => whichRow = whichRow' && varno = varno'
  | _ => false

/-- `Constant::operator==`. -/
def constantEq (ti : SQLTypeInfo) (isNull : Bool) (constval : Datum) :
    Expr → Except Fault Bool
  | constant ti' isNull' constval' =>
    if ti.operatorNe ti' || isNull != isNull' then .ok false
    else datumEqual ti constval constval'
  | _ => .ok false

/-- `AggExpr::operator==`. -/
def aggExprEq (aggtype : SQLAgg) (args : List (Addr × Expr)) (isDistinct : Bool) : Expr → Bool
  | aggExpr _ aggtype' args' isDistinct' _ =>
    if aggtype ≠ aggtype' ∨ isDistinct ≠ isDistinct' then false
    else if args.length = args'.length then args.map Prod.fst = args'.map Prod.fst
    else false
  | _ => false

mutual

/-- `operator==`, for each class in turn. -/
def operatorEq : Expr → Expr → Except Fault Bool
  | columnVar _ tableId columnId rteIdx, rhs => .ok (columnVarEq tableId columnId rteIdx none rhs)
  | var _ tableId columnId rteIdx whichRow varno, rhs =>
    .ok (columnVarEq tableId columnId rteIdx (some (whichRow, varno)) rhs)
  | expressionTuple _ tuple, rhs =>
    match rhs with
    | expressionTuple _ tuple' =>
      if tuple'.length ≠ tuple.length then .ok false else operatorEqList tuple tuple'
    | _ => .ok false
  | constant ti isNull constval, rhs => constantEq ti isNull constval rhs
  | uoper _ _ optype operand, rhs =>
    match rhs with
    | uoper _ _ optype' operand' =>
      andAlso (.ok (optype = optype')) (operatorEq operand operand')
    | _ => .ok false
  | binOper _ _ optype _ left right, rhs =>
    match rhs with
    | binOper _ _ optype' _ left' right' =>
      andAlso (.ok (optype = optype')) <|
        andAlso (operatorEq left left') (operatorEq right right')
    | _ => .ok false
  | subquery _ _, _ => .error .check
  | inValues _ arg valueList, rhs =>
    match rhs with
    | inValues _ arg' valueList' =>
      andAlso (operatorEq arg arg') <|
        if valueList.length ≠ valueList'.length then .ok false
        else operatorEqList valueList valueList'
    | _ => .ok false
  | inIntegerSet _ arg valueList, rhs =>
    match rhs with
    | inIntegerSet _ arg' valueList' =>
      andAlso (operatorEq arg arg') (.ok (valueList = valueList'))
    | _ => .ok false
  | charLengthExpr _ arg calcEncodedLength, rhs =>
    match rhs with
    | charLengthExpr _ arg' calcEncodedLength' =>
      andAlso (operatorEq arg arg') (.ok (calcEncodedLength = calcEncodedLength'))
    | _ => .ok false
  | likeExpr _ arg like escapeExpr isIlike _, rhs =>
    match rhs with
    | likeExpr _ arg' like' escapeExpr' isIlike' _ =>
      andAlso (operatorEq arg arg') <| andAlso (operatorEq like like') <|
        andAlso (.ok (isIlike = isIlike')) (operatorEqEscape escapeExpr escapeExpr')
    | _ => .ok false
  | regexpExpr _ arg patternExpr escapeExpr, rhs =>
    match rhs with
    | regexpExpr _ arg' patternExpr' escapeExpr' =>
      andAlso (operatorEq arg arg') <| andAlso (operatorEq patternExpr patternExpr') <|
        operatorEqEscape escapeExpr escapeExpr'
    | _ => .ok false
  | likelihoodExpr _ arg likelihood, rhs =>
    match rhs with
    | likelihoodExpr _ arg' likelihood' =>
      andAlso (operatorEq arg arg') (.ok (floatEq likelihood likelihood'))
    | _ => .ok false
  | aggExpr _ aggtype args isDistinct _, rhs => .ok (aggExprEq aggtype args isDistinct rhs)
  | caseExpr _ _ exprPairList elseExpr, rhs =>
    match rhs with
    | caseExpr _ _ exprPairList' elseExpr' =>
      if exprPairList.length ≠ exprPairList'.length then .ok false
      else if elseExpr.isSome ≠ elseExpr'.isSome then .ok false
      else
        andAlso (operatorEqPairs exprPairList exprPairList')
          (operatorEqElse elseExpr elseExpr')
    | _ => .ok false
  | extractExpr _ _ field fromExpr, rhs =>
    match rhs with
    | extractExpr _ _ field' fromExpr' =>
      andAlso (.ok (field = field')) (operatorEq fromExpr fromExpr')
    | _ => .ok false
  | dateaddExpr _ field number datetime, rhs =>
    match rhs with
    | dateaddExpr _ field' number' datetime' =>
      andAlso (.ok (field = field')) <|
        andAlso (operatorEq number number') (operatorEq datetime datetime')
    | _ => .ok false
  | datediffExpr _ field start stop, rhs =>
    match rhs with
    | datediffExpr _ field' start' stop' =>
      andAlso (.ok (field = field')) <|
        andAlso (operatorEq start start') (operatorEq stop stop')
    | _ => .ok false
  | datetruncExpr _ _ field fromExpr, rhs =>
    match rhs with
    | datetruncExpr _ _ field' fromExpr' =>
      andAlso (.ok (field = field')) (operatorEq fromExpr fromExpr')
    | _ => .ok false
  | functionOper ti name args, rhs =>
    if ti.operatorNe rhs.typeInfo then .ok false
    else
      match rhs with
      -- a FunctionOperWithCustomTypeHandling is a FunctionOper
      | functionOper _ name' args' | functionOperWithCustomTypeHandling _ name' args' =>
        if name ≠ name' then .ok false
        else if args.length ≠ args'.length then .ok false
        else operatorEqList args args'
      | _ => .ok false
  | functionOperWithCustomTypeHandling ti name args, rhs =>
    if ti.operatorNe rhs.typeInfo then .ok false
    else
      match rhs with
      | functionOperWithCustomTypeHandling _ name' args' =>
        if name ≠ name' then .ok false
        else if args.length ≠ args'.length then .ok false
        else operatorEqList args args'
      | _ => .ok false
  | iterExpr _ tableId rteIdx, rhs =>
    match rhs with
    | iterExpr _ tableId' rteIdx' => .ok (tableId = tableId' && rteIdx = rteIdx')
    | _ => .ok false
  | ndvEstimator _ _, _ => .error .check
decreasing_by all_goals (clear * -; decreasing_tactic)

/-- A loop over two lists of the same length. -/
def operatorEqList : List Expr → List Expr → Except Fault Bool
  | [], _ => .ok true
  | _ :: _, [] => .error .bounds
  | e :: es, e' :: es' => andAlso (operatorEq e e') (operatorEqList es es')

def operatorEqPairs : List (Expr × Expr) → List (Expr × Expr) → Except Fault Bool
  | [], _ => .ok true
  | _ :: _, [] => .error .bounds
  | (e₁, e₂) :: pairs, (e₁', e₂') :: pairs' =>
    andAlso (operatorEq e₁ e₁') <| andAlso (operatorEq e₂ e₂') <|
      operatorEqPairs pairs pairs'

/-- The escape expressions: one pointer, or equal expressions. -/
def operatorEqEscape : Option (Addr × Expr) → Option (Addr × Expr) → Except Fault Bool
  | none, none => .ok true
  | some (addr, e), some (addr', e') => if addr = addr' then .ok true else operatorEq e e'
  | _, _ => .ok false

def operatorEqElse : Option Expr → Option Expr → Except Fault Bool
  | none, _ => .ok true
  | some _, none => .error .nullPointer
  | some e, some e' => operatorEq e e'

end

example (ti : SQLTypeInfo) (parsetree : Addr) (rhs : Expr) :
    operatorEq (subquery ti parsetree) rhs = .error .check := by
  rw [operatorEq]

end Expr


structure RowSemantics (V : Type) where
  value : Expr → Option V
  eq : V → V → Bool
  predicate : Expr → Truth

namespace RowSemantics

variable {V : Type} (S : RowSemantics V)

/-- `lhs = rhs`, or the null-safe equality. -/
def equality (optype : SQLOps) (lhs rhs : Expr) : Truth :=
  match S.value lhs, S.value rhs with
  | some x, some y => if S.eq x y then .yes else .no
  | none, none => if optype = .kBW_EQ then .yes else .unknown
  | _, _ => if optype = .kBW_EQ then .no else .unknown

/-- An equality, of tuples or not. -/
def equalities (optype : SQLOps) : Expr → Expr → Truth
  | .expressionTuple _ lhs, .expressionTuple _ rhs =>
    Truth.all (List.zipWith (S.equality optype) lhs rhs)
  | lhs, rhs => S.equality optype lhs rhs

def truth : Expr → Truth
  | .binOper ti containsAgg optype qualifier leftOperand rightOperand =>
    match optype with
    | .kAND => truth leftOperand ⊓ truth rightOperand
    | .kOR => truth leftOperand ⊔ truth rightOperand
    | _ =>
      if optype.isEquivalence ∧ qualifier = .kONE then
        S.equalities optype leftOperand rightOperand
      else S.predicate (.binOper ti containsAgg optype qualifier leftOperand rightOperand)
  | .uoper ti containsAgg optype operand =>
    match optype with
    | .kNOT => (truth operand).neg
    | _ => S.predicate (.uoper ti containsAgg optype operand)
  | .inValues _ arg valueList => Truth.any (valueList.map (S.equality .kEQ arg))
  | .likelihoodExpr _ arg _ => truth arg
  | e => S.predicate e

theorem truth_equality {optype : SQLOps} (h : optype.isEquivalence = true) (ti : SQLTypeInfo)
    (containsAgg : Bool) (lhs rhs : Expr) :
    S.truth (.binOper ti containsAgg optype .kONE lhs rhs) = S.equalities optype lhs rhs := by
  cases optype <;> first | rfl | cases h

end RowSemantics

end Compass.Analyzer
