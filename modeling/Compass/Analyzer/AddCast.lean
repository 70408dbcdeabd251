/-
The types of a binary operator (Analyzer.cpp): `common_numeric_type` and
`analyze_type_info`, which says what the operands are to be cast to.

What is stored through the two pointers is part of the result.

`Constant::add_cast` and `Expr::add_cast` (Analyzer.cpp).

A constant is cast where it stands: `do_cast` changes its type and its
datum. A cast that changes the compression leaves an operator in the
tree, over the constant cast to the uncompressed type.

What is converted from or to a number of floating point, and from or to a
string, is converted by functions that are parameters here. Of an integer
only the bits that the new member has are kept.
-/
import Compass.Calendar.DateTruncate

namespace Compass.Analyzer

/-- `IS_LOGIC`. -/
def isLogic (op : SQLOps) : Bool :=
  op == .kAND || op == .kOR

/-- `IS_ARITHMETIC`. -/
def isArithmetic (op : SQLOps) : Bool :=
  op == .kMINUS || op == .kPLUS || op == .kMULTIPLY || op == .kDIVIDE || op == .kMODULO

namespace BinOper

-- ======== numeric types

/-- The two nested switches of `common_numeric_type`, of two types that are
not of one kind. -/
def commonOfKinds (type1 type2 : SQLTypeInfo) : Except Fault SQLTypeInfo :=
  let notnull := type1.notnull && type2.notnull
  match type1.type, type2.type with
  | .kSMALLINT, .kINT => .ok (.plain .kINT notnull)
  | .kSMALLINT, .kBIGINT => .ok (.plain .kBIGINT notnull)
  | .kSMALLINT, .kFLOAT => .ok (.plain .kFLOAT notnull)
  | .kSMALLINT, .kDOUBLE => .ok (.plain .kDOUBLE notnull)
  | .kSMALLINT, .kNUMERIC | .kSMALLINT, .kDECIMAL =>
    .ok (.scaled .kDECIMAL (max (5 + type2.scale) type2.dimension) type2.scale notnull)
  | .kINT, .kSMALLINT => .ok (.plain .kINT notnull)
  | .kINT, .kBIGINT => .ok (.plain .kBIGINT notnull)
  | .kINT, .kFLOAT => .ok (.plain .kFLOAT notnull)
  | .kINT, .kDOUBLE => .ok (.plain .kDOUBLE notnull)
  | .kINT, .kNUMERIC | .kINT, .kDECIMAL =>
    .ok (.scaled .kDECIMAL (max (min 19 (10 + type2.scale)) type2.dimension) type2.scale notnull)
  | .kBIGINT, .kSMALLINT | .kBIGINT, .kINT => .ok (.plain .kBIGINT notnull)
  | .kBIGINT, .kFLOAT => .ok (.plain .kFLOAT notnull)
  | .kBIGINT, .kDOUBLE => .ok (.plain .kDOUBLE notnull)
  | .kBIGINT, .kNUMERIC | .kBIGINT, .kDECIMAL =>
    .ok (.scaled .kDECIMAL 19 type2.scale notnull)
  | .kFLOAT, .kSMALLINT | .kFLOAT, .kINT | .kFLOAT, .kBIGINT => .ok (.plain .kFLOAT notnull)
  | .kFLOAT, .kDOUBLE => .ok (.plain .kDOUBLE notnull)
  | .kFLOAT, .kNUMERIC | .kFLOAT, .kDECIMAL => .ok (.plain .kFLOAT notnull)
  | .kDOUBLE, .kSMALLINT | .kDOUBLE, .kINT | .kDOUBLE, .kBIGINT | .kDOUBLE, .kFLOAT
  | .kDOUBLE, .kNUMERIC | .kDOUBLE, .kDECIMAL => .ok (.plain .kDOUBLE notnull)
  | .kNUMERIC, .kSMALLINT | .kDECIMAL, .kSMALLINT =>
    .ok (.scaled .kDECIMAL (max (5 + type1.scale) type1.dimension) type1.scale notnull)
  | .kNUMERIC, .kINT | .kDECIMAL, .kINT =>
    .ok (.scaled .kDECIMAL (max (min 19 (10 + type1.scale)) type2.dimension) type1.scale notnull)
  | .kNUMERIC, .kBIGINT | .kDECIMAL, .kBIGINT => .ok (.scaled .kDECIMAL 19 type1.scale notnull)
  | .kNUMERIC, .kFLOAT | .kDECIMAL, .kFLOAT => .ok (.plain .kFLOAT notnull)
  | .kNUMERIC, .kDOUBLE | .kDECIMAL, .kDOUBLE => .ok (.plain .kDOUBLE notnull)
  | .kNUMERIC, .kNUMERIC | .kNUMERIC, .kDECIMAL | .kDECIMAL, .kNUMERIC | .kDECIMAL, .kDECIMAL =>
    let commonScale := max type1.scale type2.scale
    .ok (.scaled .kDECIMAL
      (max (type1.dimension - type1.scale) (type2.dimension - type2.scale) + commonScale)
      commonScale notnull)
  | _, _ => .error .check

def timeintervalOpError : String :=
  "Operator type not supported for time interval arithmetic: "

def commonNumericType (type1 type2 : SQLTypeInfo) : Except Fault SQLTypeInfo :=
  if type1.type = type2.type then
    if ((type1.isNumber || type1.isTimeinterval) && (type2.isNumber || type2.isTimeinterval))
        || (type1.isBoolean && type2.isBoolean) then
      .ok (.scaled type1.type (max type1.dimension type2.dimension) (max type1.scale type2.scale)
        (type1.notnull && type2.notnull))
    else .error .check
  else if type1.isTimeinterval then
    if !type2.isInteger then .error (.runtimeError (timeintervalOpError ++ type2.getTypeName))
    else .ok type1
  else if type2.isTimeinterval then
    if !type1.isInteger then .error (.runtimeError (timeintervalOpError ++ type1.getTypeName))
    else .ok type2
  else if type1.isNumber && type2.isNumber then do
    let commonType ← commonOfKinds type1 type2
    return commonType.setFixedSize
  else .error .check

-- ======== the operands

/-- The types of an operator and of its two operands. -/
structure OperTypes where
  resultType : SQLTypeInfo
  newLeftType : SQLTypeInfo
  newRightType : SQLTypeInfo
deriving DecidableEq, Repr

/-- The types of two operands that are compared, of TIME, TIMESTAMP and
DATE. -/
def compareTimes (left right : SQLTypeInfo) : Except Fault (SQLTypeInfo × SQLTypeInfo) :=
  let timeType (t : SQLTypes) (d : Int) (of : SQLTypeInfo) := SQLTypeInfo.scaled t d 0 of.notnull
  match left.type, right.type with
  | .kTIMESTAMP, .kTIME =>
    .error (.runtimeError "Cannont compare between TIMESTAMP and TIME.")
  | .kTIMESTAMP, .kDATE =>
    .ok (timeType left.type left.dimension left, timeType left.type left.dimension right)
  | .kTIMESTAMP, .kTIMESTAMP =>
    .ok (timeType .kTIMESTAMP (max left.dimension right.dimension) left,
      timeType .kTIMESTAMP (max left.dimension right.dimension) right)
  | .kTIME, .kTIMESTAMP =>
    .error (.runtimeError "Cannont compare between TIME and TIMESTAMP.")
  | .kTIME, .kDATE => .error (.runtimeError "Cannont compare between TIME and DATE.")
  | .kTIME, .kTIME =>
    .ok (timeType .kTIME (max left.dimension right.dimension) left,
      timeType .kTIME (max left.dimension right.dimension) right)
  | .kDATE, .kTIMESTAMP =>
    .ok (timeType right.type right.dimension left, timeType right.type right.dimension right)
  | .kDATE, .kDATE =>
    .ok (timeType left.type left.dimension left, timeType left.type left.dimension right)
  | .kDATE, .kTIME => .error (.runtimeError "Cannont compare between DATE and TIME.")
  | _, _ => .error .check

/-- The types of two operands that are compared. -/
def compareTypes (left right : SQLTypeInfo) : Except Fault (SQLTypeInfo × SQLTypeInfo) :=
  if left.operatorNe right then
    if left.isNumber && right.isNumber then do
      let commonType ← commonNumericType left right
      return ({ commonType with notnull := left.notnull },
        { commonType with notnull := right.notnull })
    else if left.isTime && right.isTime then compareTimes left right
    else if left.isString && right.isTime then
      .ok ({ right with notnull := left.notnull }, right)
    else if left.isTime && right.isString then
      .ok (left, { left with notnull := right.notnull })
    else if left.isString && right.isString then .ok (left, right)
    else if left.isBoolean && right.isBoolean then
      let commonType := SQLTypeInfo.plain .kBOOLEAN (left.notnull && right.notnull)
      .ok (commonType, commonType)
    else
      .error (.runtimeError
        ("Cannot compare between " ++ left.getTypeName ++ " and " ++ right.getTypeName))
  else .ok (left, right)

/-- The types of two operands of an arithmetic operator. -/
def arithmeticTypes (op : SQLOps) (left right : SQLTypeInfo) : Except Fault OperTypes :=
  if !(left.isNumber || left.isTimeinterval) || !(right.isNumber || right.isTimeinterval) then
    .error (.runtimeError "non-numeric operands in arithmetic operations.")
  else if op = .kMODULO ∧ (!left.isInteger || !right.isInteger) then
    .error (.runtimeError "non-integer operands in modulo operation.")
  else do
    let commonType ← commonNumericType left right
    let newLeftType := { commonType with notnull := left.notnull }
    let newRightType := { commonType with notnull := right.notnull }
    return if op = .kMULTIPLY then
      ⟨commonType, { newLeftType with scale := left.scale },
        { newRightType with scale := right.scale }⟩
    else ⟨commonType, newLeftType, newRightType⟩

/-- The branches of `analyze_type_info`. -/
def operTypes (op : SQLOps) (leftType rightType : SQLTypeInfo) : Except Fault OperTypes :=
  if isLogic op then
    if leftType.type ≠ .kBOOLEAN ∨ rightType.type ≠ .kBOOLEAN then
      .error (.runtimeError "non-boolean operands cannot be used in logic operations.")
    else .ok ⟨.plain .kBOOLEAN false, leftType, rightType⟩
  else if op.isComparison then do
    let (newLeftType, newRightType) ← compareTypes leftType rightType
    return ⟨.plain .kBOOLEAN false, newLeftType, newRightType⟩
  else if op = .kMINUS ∧ (leftType.type = .kDATE ∨ leftType.type = .kTIMESTAMP)
      ∧ rightType.isTimeinterval then
    .ok ⟨leftType, leftType, rightType⟩
  else if isArithmetic op then arithmeticTypes op leftType rightType
  else .error (.runtimeError "invalid binary operator type.")

def analyzeTypeInfo (op : SQLOps) (leftType rightType : SQLTypeInfo) : Except Fault OperTypes := do
  let types ← operTypes op leftType rightType
  return { types with
    resultType := { types.resultType with notnull := leftType.notnull && rightType.notnull } }

end BinOper


-- ======== conversions

structure Conversions where
  /-- `Constant::cast_number` where one of the types is FLOAT or DOUBLE. -/
  castFp : (typeInfo newTypeInfo : SQLTypeInfo) → (constval : Datum) → Except Fault Datum
  /-- `StringToDatum`. -/
  stringToDatum : (s : List UInt8) → (ti : SQLTypeInfo) → Except Fault Datum
  /-- `DatumToString`. -/
  datumToString : (d : Datum) → (ti : SQLTypeInfo) → Except Fault (List UInt8)

variable (conversions : Conversions)

/-- One round of the loop of `convert_decimal_value_to_scale` to a smaller
scale. -/
def roundTenth (value : Int) : Int :=
  if value > 0 then (value + 5).tdiv 10 else (value - 5).tdiv 10

/-- `convert_decimal_value_to_scale`. -/
def convertDecimalValueToScale (decimalValue : Int) (typeInfo newTypeInfo : SQLTypeInfo) : Int :=
  if newTypeInfo.scale > typeInfo.scale then
    decimalValue * 10 ^ (newTypeInfo.scale - typeInfo.scale).toNat
  else roundTenth^[(typeInfo.scale - newTypeInfo.scale).toNat] decimalValue

namespace Constant

/-- The branches of `cast_number` for a number that is an integer. -/
def castInteger (typeInfo newTypeInfo : SQLTypeInfo) (constval : Datum) (n : Int) :
    Except Fault Datum :=
  match newTypeInfo.type with
  | .kINT | .kSMALLINT | .kBIGINT => .ok (.ofInt n)
  | .kDOUBLE | .kFLOAT => conversions.castFp typeInfo newTypeInfo constval
  | .kNUMERIC | .kDECIMAL => .ok (.ofInt (n * 10 ^ newTypeInfo.scale.toNat))
  | _ => .error .check

/-- Its branches for a decimal. -/
def castDecimal (typeInfo newTypeInfo : SQLTypeInfo) (constval : Datum) : Except Fault Datum :=
  match newTypeInfo.type with
  | .kINT | .kSMALLINT | .kBIGINT =>
    .ok (.ofInt (constval.bigintval.tdiv (10 ^ typeInfo.scale.toNat)))
  | .kDOUBLE | .kFLOAT => conversions.castFp typeInfo newTypeInfo constval
  | .kNUMERIC | .kDECIMAL =>
    .ok (.ofInt (convertDecimalValueToScale constval.bigintval typeInfo newTypeInfo))
  | _ => .error .check

/-- `Constant::cast_number`. -/
def castNumber (typeInfo newTypeInfo : SQLTypeInfo) (constval : Datum) : Except Fault Datum :=
  match typeInfo.type with
  | .kINT => castInteger conversions typeInfo newTypeInfo constval constval.intval
  | .kSMALLINT => castInteger conversions typeInfo newTypeInfo constval constval.smallintval
  | .kBIGINT => castInteger conversions typeInfo newTypeInfo constval constval.bigintval
  | .kTIMESTAMP => castInteger conversions typeInfo newTypeInfo constval constval.timeval
  | .kBOOLEAN =>
    castInteger conversions typeInfo newTypeInfo constval (if constval.boolval then 1 else 0)
  | .kDOUBLE | .kFLOAT => conversions.castFp typeInfo newTypeInfo constval
  | .kNUMERIC | .kDECIMAL => castDecimal conversions typeInfo newTypeInfo constval
  | _ => .error .check

/-- The truncation to the length of the type. A negative length is a large
`size_t`. -/
def truncateString (newTypeInfo : SQLTypeInfo) (s : List UInt8) : List UInt8 :=
  if newTypeInfo.type ≠ .kTEXT ∧ 0 ≤ newTypeInfo.dimension then
    s.take newTypeInfo.dimension.toNat
  else s

/-- `Constant::cast_string`. -/
def castString (newTypeInfo : SQLTypeInfo) (constval : Datum) : Datum :=
  { constval with stringval := constval.stringval.map (truncateString newTypeInfo) }

/-- `Constant::cast_from_string`. -/
def castFromString (newTypeInfo : SQLTypeInfo) (constval : Datum) : Except Fault Datum :=
  match constval.stringval with
  | none => .error .nullPointer
  | some s => conversions.stringToDatum s newTypeInfo

/-- `Constant::cast_to_string`. -/
def castToString (typeInfo strTypeInfo : SQLTypeInfo) (constval : Datum) : Except Fault Datum := do
  let strVal ← conversions.datumToString constval typeInfo
  return ⟨0, some (truncateString strTypeInfo strVal)⟩

/-- `Constant::do_cast`: the type and the datum after it. -/
def doCast (typeInfo newTypeInfo : SQLTypeInfo) (constval : Datum) :
    Except Fault (SQLTypeInfo × Datum) :=
  if typeInfo.operatorEq newTypeInfo then .ok (typeInfo, constval)
  else if newTypeInfo.isNumber
      && (typeInfo.isNumber || typeInfo.type == .kTIMESTAMP || typeInfo.type == .kBOOLEAN) then do
    let constval ← castNumber conversions typeInfo newTypeInfo constval
    return (newTypeInfo, constval)
  else if newTypeInfo.isBoolean && typeInfo.isBoolean then .ok (newTypeInfo, constval)
  else if newTypeInfo.isString && typeInfo.isString then
    .ok (newTypeInfo, castString newTypeInfo constval)
  else if typeInfo.isString then do
    let constval ← castFromString conversions newTypeInfo constval
    return (newTypeInfo, constval)
  else if newTypeInfo.isString then do
    let constval ← castToString conversions typeInfo newTypeInfo constval
    return (newTypeInfo, constval)
  else if newTypeInfo.type = .kDATE ∧ typeInfo.type = .kDATE then .ok (newTypeInfo, constval)
  else if newTypeInfo.type = .kDATE ∧ typeInfo.type = .kTIMESTAMP then
    .ok (newTypeInfo, .ofInt (Calendar.dateTruncate .day constval.timeval))
  else .error (.runtimeError "Invalid cast.")

end Constant

-- ======== add_cast

/-- `Expr::add_cast`. -/
def Expr.addCast (expr : Expr) (newTypeInfo : SQLTypeInfo) : Except Fault Expr :=
  let typeInfo := expr.typeInfo
  let isConstant := match expr with
    | .constant .. => true
    | _ => false
  if newTypeInfo.operatorEq typeInfo then .ok expr
  else if newTypeInfo.isString && typeInfo.isString && newTypeInfo.compression == .kENCODING_DICT
      && typeInfo.compression == .kENCODING_DICT
      && (newTypeInfo.compParam == typeInfo.compParam
        || newTypeInfo.compParam == transientDict typeInfo.compParam) then .ok expr
  else if !typeInfo.isCastable newTypeInfo then
    .error (.runtimeError
      ("Cannot CAST from " ++ typeInfo.getTypeName ++ " to " ++ newTypeInfo.getTypeName))
  -- temporary restriction until executor can support this
  else if !isConstant && newTypeInfo.isString && newTypeInfo.compression == .kENCODING_DICT
      && decide (newTypeInfo.compParam ≤ transientDictId) then
    if typeInfo.isString && typeInfo.compression != .kENCODING_DICT then
      .error (.runtimeError "Cannot group by string columns which are not dictionary encoded.")
    else
      .error (.runtimeError ("Internal error: Cannot apply transient dictionary encoding to " ++
        "non-literal expression yet."))
  else .ok (.uoper newTypeInfo expr.getContainsAgg .kCAST expr)

/-- `Constant::add_cast`. -/
def Constant.addCast (typeInfo : SQLTypeInfo) (isNull : Bool) (constval : Datum)
    (newTypeInfo : SQLTypeInfo) : Except Fault Expr :=
  if isNull then do
    let constval ← nullValue newTypeInfo.type
    return .constant newTypeInfo true constval
  else if newTypeInfo.compression ≠ typeInfo.compression then do
    let (typeInfo, constval) ←
      if newTypeInfo.compression ≠ .kENCODING_NONE then
        doCast conversions typeInfo { newTypeInfo with compression := .kENCODING_NONE } constval
      else .ok (typeInfo, constval)
    (Expr.constant typeInfo false constval).addCast newTypeInfo
  else do
    let (typeInfo, constval) ← doCast conversions typeInfo newTypeInfo constval
    return .constant typeInfo false constval

end Compass.Analyzer
