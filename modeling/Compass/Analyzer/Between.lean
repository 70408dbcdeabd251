/-
BETWEEN (Parser/ParserNode.cpp), and the numbers that it compares.

`BetweenExpr::analyze` builds two comparisons from the analyzed operands.
`add_cast` changes a constant where it stands, so the second comparison sees
the first two operands as the first one has left them.

A cast of a constant is made here, by `cast_number`; that of anything else
is an operator of the tree, and `codegenCastBetweenIntTypes` says what it
does on a row. Exact numbers are integers with the scale of their type.
Where C++ leaves the result open, because a signed integer overflows, there
is none; neither is there one where the code generation fails a CHECK or a
row ends with ERR_OVERFLOW_OR_UNDERFLOW.
-/
import Compass.Analyzer.AddCast
import Compass.Lib.Decimal

namespace Compass.Analyzer

inductive AnalyzeFault where
  | expr (fault : Fault)
  /-- A signed integer overflows. -/
  | overflow
deriving DecidableEq, Repr

-- ======== exact numbers

/-- The member of the union that a type reads. -/
def Datum.number (ti : SQLTypeInfo) (d : Datum) : Int :=
  match ti.type with
  | .kSMALLINT => d.smallintval
  | .kINT => d.intval
  | _ => d.bigintval

/-- `get_bit_width`, of an exact number that is not encoded. -/
def bitWidth : SQLTypes → Nat
  | .kSMALLINT => 16
  | .kINT => 32
  | _ => 64

def SQLTypeInfo.isExact (ti : SQLTypeInfo) : Bool :=
  ti.isInteger || ti.isDecimal

def fitsInt64 (n : Int) : Bool :=
  -2 ^ 63 ≤ n ∧ n < 2 ^ 63

/-- Whether `cast_number` of an exact number to another stays within 64 bits:
the products, and the sum of a number that is rounded. -/
def Constant.castDefined (typeInfo newTypeInfo : SQLTypeInfo) (n : Int) : Bool :=
  let more := newTypeInfo.scale - if typeInfo.isDecimal then typeInfo.scale else 0
  if !newTypeInfo.isDecimal then true
  else if 0 ≤ more then fitsInt64 (n * 10 ^ more.toNat)
  else if n > 0 then fitsInt64 (n + 5)
  else fitsInt64 (n - 5)

-- ======== casts

/-- The type that `CaseExpr::add_cast` hands to the branches. -/
def caseCastType (typeInfo newTypeInfo : SQLTypeInfo) : SQLTypeInfo :=
  if newTypeInfo.isString ∧ newTypeInfo.compression = .kENCODING_DICT
      ∧ newTypeInfo.compParam = transientDictId ∧ typeInfo.isString
      ∧ typeInfo.compression = .kENCODING_NONE ∧ typeInfo.compParam > transientDictId then
    { newTypeInfo with compParam := transientDict typeInfo.compParam }
  else newTypeInfo

/-- Whether `UOper::add_cast` drops the cast it is asked to cast again. -/
def dropsCast (typeInfo operandTypeInfo newTypeInfo : SQLTypeInfo) : Bool :=
  typeInfo.isString && newTypeInfo.isString && newTypeInfo.compression == .kENCODING_DICT
    && typeInfo.compression == .kENCODING_NONE && operandTypeInfo.isString
    && operandTypeInfo.compression == .kENCODING_DICT
    && (operandTypeInfo.compParam == newTypeInfo.compParam
      || operandTypeInfo.compParam == transientDict newTypeInfo.compParam)

variable (conversions : Conversions)

/-- `Constant::add_cast`, where it is defined. -/
def constantAddCast (ti : SQLTypeInfo) (isNull : Bool) (constval : Datum)
    (newTypeInfo : SQLTypeInfo) : Except AnalyzeFault Expr :=
  if !isNull && !ti.operatorEq newTypeInfo && ti.isExact && newTypeInfo.isExact
      && !Constant.castDefined ti newTypeInfo (constval.number ti) then .error .overflow
  else (Constant.addCast conversions ti isNull constval newTypeInfo).mapError .expr

mutual

/-- `add_cast`, for each class that overrides it. -/
def addCast : Expr → SQLTypeInfo → Except AnalyzeFault Expr
  | .constant ti isNull constval, newTypeInfo =>
    constantAddCast conversions ti isNull constval newTypeInfo
  | .uoper ti containsAgg optype operand, newTypeInfo =>
    if optype = .kCAST ∧ dropsCast ti operand.typeInfo newTypeInfo then .ok operand
    else ((Expr.uoper ti containsAgg optype operand).addCast newTypeInfo).mapError .expr
  | .caseExpr ti containsAgg exprPairList elseExpr, newTypeInfo => do
      let ti := caseCastType ti newTypeInfo
      let exprPairList ← addCastPairs exprPairList ti
      let elseExpr ← addCastElse elseExpr ti
      return .caseExpr ti containsAgg exprPairList elseExpr
  | .subquery _ _, _ => .error (.expr .check)
  | e, newTypeInfo => (e.addCast newTypeInfo).mapError .expr

def addCastPairs : List (Expr × Expr) → SQLTypeInfo → Except AnalyzeFault (List (Expr × Expr))
  | [], _ => .ok []
  | (cond, result) :: pairs, ti => do
      let result ← addCast result ti
      let pairs ← addCastPairs pairs ti
      return (cond, result) :: pairs

def addCastElse : Option Expr → SQLTypeInfo → Except AnalyzeFault (Option Expr)
  | none, _ => .ok none
  | some e, ti => do
      let e ← addCast e ti
      return some e

end

/-- What has become of an expression that was asked for a cast. -/
def afterCast (result : Expr) : Expr → Expr
  | .constant .. =>
    match result with
    | .uoper _ _ _ constant => constant
    | constant => constant
  | .caseExpr .. => result
  | e => e

/-- `Expr::decompress`. -/
def decompress (e : Expr) : Expr :=
  let ti := e.typeInfo
  if ti.compression = .kENCODING_NONE then e
  else
    .uoper (.make ti.type ti.dimension ti.scale ti.notnull .kENCODING_NONE 0 ti.subtype)
      e.getContainsAgg .kCAST e

-- ======== BETWEEN

/-- The constructor of BinOper without a type in full. -/
def makeBinOper (t : SQLTypes) (o : SQLOps) (q : SQLQualifier) (l r : Expr) : Expr :=
  .binOper (.plain t (l.typeInfo.notnull && r.typeInfo.notnull)) false o q l r

/-- `BetweenExpr::analyze` behind the analysis of the operands. -/
def betweenAnalyze (alloc : Addr → Addr) (argExpr lowerExpr upperExpr : Expr) (isNot : Bool) :
    Except AnalyzeFault Expr := do
  let types ← (BinOper.analyzeTypeInfo .kGE argExpr.typeInfo lowerExpr.typeInfo).mapError .expr
  let argCast ← addCast conversions argExpr types.newLeftType
  let lowerCast ← addCast conversions lowerExpr types.newRightType
  let lowerPred :=
    makeBinOper .kBOOLEAN .kGE .kONE (decompress argCast) (decompress lowerCast)
  let argExpr := afterCast argCast argExpr
  let lowerExpr := afterCast lowerCast lowerExpr
  let types ← (BinOper.analyzeTypeInfo .kLE argExpr.typeInfo lowerExpr.typeInfo).mapError .expr
  let argCopy ← (argExpr.deepCopy alloc).mapError .expr
  let argCast ← addCast conversions argCopy types.newLeftType
  let upperCast ← addCast conversions upperExpr types.newRightType
  let upperPred :=
    makeBinOper .kBOOLEAN .kLE .kONE (decompress argCast) (decompress upperCast)
  let result := makeBinOper .kBOOLEAN .kAND .kONE lowerPred upperPred
  return if isNot then .uoper (.plain .kBOOLEAN result.typeInfo.notnull) false .kNOT result
    else result

-- ======== on a row

/-- `codegenCastBetweenIntTypes`, of exact numbers. -/
def codegenCast (operandTi ti : SQLTypeInfo) (n : Int) : Option Int :=
  if ti.isDecimal then
    if operandTi.isDecimal ∧ operandTi.scale > ti.scale then none
    else if operandTi.scale < ti.scale then
      let scale := 10 ^ (ti.scale - operandTi.scale).toNat
      if n > (2 ^ 63 - 1 : Int).tdiv scale then none
      else some ((n * scale).bmod (2 ^ 64))
    else some n
  else
    let n := if operandTi.isDecimal then n.tdiv (10 ^ operandTi.scale.toNat) else n
    some (n.bmod (2 ^ bitWidth ti.type))

/-- The number of an expression on a row, which has that of every expression
but a constant and a cast. -/
def number (row : Expr → Option Int) : Expr → Option Int
  | .constant ti isNull constval => if isNull then none else some (constval.number ti)
  | .uoper ti containsAgg optype operand =>
    if optype = .kCAST then (number row operand).bind (codegenCast operand.typeInfo ti)
    else row (.uoper ti containsAgg optype operand)
  | e => row e

def compareNumbers (optype : SQLOps) (m n : Int) : Option Bool :=
  match optype with
  | .kEQ | .kBW_EQ => some (m = n)
  | .kNE => some (m ≠ n)
  | .kLT => some (m < n)
  | .kGT => some (n < m)
  | .kLE => some (m ≤ n)
  | .kGE => some (n ≤ m)
  | _ => none

/-- Whether a condition on exact numbers holds on a row. -/
def holds (row : Expr → Option Int) : Expr → Option Bool
  | .binOper _ _ optype _ left right =>
    if optype = .kAND then do
      let l ← holds row left
      let r ← holds row right
      return l && r
    else do
      let l ← number row left
      let r ← number row right
      compareNumbers optype l r
  | .uoper _ _ optype operand => if optype = .kNOT then (holds row operand).map (!·) else none
  | _ => none

-- ======== the claim

/-- SMALLINT, INT, BIGINT, and DECIMAL as the parser lets it be declared. -/
structure ExactNumeric (ti : SQLTypeInfo) : Prop where
  compression : ti.compression = .kENCODING_NONE
  kind : ti.isInteger ∧ ti.scale = 0 ∨
    ti.isDecimal ∧ 0 ≤ ti.scale ∧ ti.scale < ti.dimension ∧ ti.dimension ≤ 19

/-- The largest number of a type, as an integer; the smallest is its negation,
with the one below for NULL. -/
def maxNumber (ti : SQLTypeInfo) : Int :=
  if ti.isDecimal then min (10 ^ ti.dimension.toNat - 1) (2 ^ 63 - 1)
  else 2 ^ (bitWidth ti.type - 1) - 1

/-- A literal or a column, and its number on a row. -/
inductive Operand (row : Expr → Option Int) (ti : SQLTypeInfo) (n : Int) : Expr → Prop
  | literal (d : Datum) (hd : d.number ti = n) : Operand row ti n (.constant ti false d)
  | column (tableId columnId rteIdx : Int)
      (hrow : row (.columnVar ti tableId columnId rteIdx) = some n) :
      Operand row ti n (.columnVar ti tableId columnId rteIdx)

/-- The number that an integer of a type stands for. -/
def exactNumber (ti : SQLTypeInfo) (n : Int) : ℚ :=
  FixedPoint.value n ti.scale.toNat

/-- BETWEEN of operands of three types means what it says. -/
def BetweenExact (A L U : SQLTypeInfo) : Prop :=
  ∀ (alloc : Addr → Addr) (row : Expr → Option Int) (arg lower upper : Expr) (a l u : Int),
    Operand row A a arg → Operand row L l lower → Operand row U u upper →
    |a| ≤ maxNumber A → |l| ≤ maxNumber L → |u| ≤ maxNumber U →
    ∃ e, betweenAnalyze conversions alloc arg lower upper false = .ok e ∧
      holds row e = some (decide (exactNumber L l ≤ exactNumber A a ∧
        exactNumber A a ≤ exactNumber U u))

/-- A type fits in what two types have in common: no digit behind the point is
lost, and its largest number does not overflow. -/
structure FitsCommon (A L T : SQLTypeInfo) : Prop where
  scale : T.scale ≤ max A.scale L.scale
  number : maxNumber T * 10 ^ (max A.scale L.scale - T.scale).toNat ≤
    if A.isDecimal ∨ L.isDecimal then 2 ^ 63 - 1 else max (maxNumber A) (maxNumber L)

end Compass.Analyzer
