/-
The types and operators of sqltypes.h and sqldefs.h that the modelled
parts share: the enumerations in full, and of `SQLTypeInfo` the fields
that the modelled code reads.
-/
import Mathlib.Algebra.GroupWithZero.Nat
import Mathlib.Algebra.Ring.Int.Defs

namespace Compass

-- ======== types

/-- `SQLTypes` of sqltypes.h. -/
inductive SQLTypes where
  | kNULLT | kBOOLEAN | kCHAR | kVARCHAR | kNUMERIC | kDECIMAL | kINT
  | kSMALLINT | kFLOAT | kDOUBLE | kTIME | kTIMESTAMP | kBIGINT | kTEXT
  | kDATE | kARRAY | kINTERVAL_DAY_TIME | kINTERVAL_YEAR_MONTH
deriving DecidableEq, Repr

/-- The fields of `SQLTypeInfo` that the modelled code reads. `size` is
read for DECIMAL and NUMERIC only. -/
structure SQLTypeInfo where
  type : SQLTypes
  notnull : Bool
  size : Nat
deriving DecidableEq, Repr

namespace SQLTypeInfo

variable (ti : SQLTypeInfo)

def isInteger : Bool :=
  ti.type == .kINT || ti.type == .kSMALLINT || ti.type == .kBIGINT

def isTime : Bool :=
  ti.type == .kTIME || ti.type == .kTIMESTAMP || ti.type == .kDATE

def isDecimal : Bool :=
  ti.type == .kDECIMAL || ti.type == .kNUMERIC

/-- `decimal_to_int_type`; another size fails a CHECK. -/
def decimalToIntType : Option SQLTypes :=
  match ti.size with
  | 2 => some .kSMALLINT
  | 4 => some .kINT
  | 8 => some .kBIGINT
  | _ => none

/-- The type that the integer accessors switch on. -/
def intType : Option SQLTypes :=
  if ti.isDecimal then ti.decimalToIntType else some ti.type

end SQLTypeInfo

-- ======== operators

/-- `SQLOps` of sqldefs.h. -/
inductive SQLOps where
  | kEQ | kBW_EQ | kNE | kLT | kGT | kLE | kGE | kAND | kOR | kNOT
  | kMINUS | kPLUS | kMULTIPLY | kDIVIDE | kMODULO | kUMINUS | kISNULL
  | kISNOTNULL | kEXISTS | kCAST | kARRAY_AT | kUNNEST | kFUNCTION | kIN
deriving DecidableEq, Repr

/-- `IS_COMPARISON`. -/
def SQLOps.isComparison (op : SQLOps) : Bool :=
  op == .kEQ || op == .kBW_EQ || op == .kNE || op == .kLT || op == .kGT
    || op == .kLE || op == .kGE

/-- `IS_EQUIVALENCE`. -/
def SQLOps.isEquivalence (op : SQLOps) : Bool :=
  op == .kEQ || op == .kBW_EQ

/-- `COMMUTE_COMPARISON`. -/
def SQLOps.commuteComparison : SQLOps → SQLOps
  | .kLT => .kGT
  | .kLE => .kGE
  | .kGT => .kLT
  | .kGE => .kLE
  | op => op

end Compass
