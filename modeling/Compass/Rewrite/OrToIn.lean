/-
`rewrite_expr` and `OrToInVisitor` (ExpressionRewrite.cpp): an OR of
equalities of one expression with constants becomes an IN list.

The visitor makes a list of one value of an equality, and of an OR it
joins the lists of the two sides if they compare equal expressions. All
other nodes have no list; a null pointer is `none`. The arguments of a
function are visited all the same.

A likelihood around the condition is taken off before the visit and put
back after it, around what the visitor returned, a null pointer or not.
-/
import Compass.Analyzer.AddCast

namespace Compass.Rewrite

open Compass.Analyzer

/-- `InValues`. -/
structure InValues where
  typeInfo : Analyzer.SQLTypeInfo
  arg : Expr
  valueList : List Expr

namespace InValues

/-- The constructor. -/
def make (arg : Expr) (valueList : List Expr) : InValues :=
  ⟨.plain .kBOOLEAN !Expr.isInValuesNullable arg valueList, arg, valueList⟩

def toExpr (inValues : InValues) : Expr :=
  .inValues inValues.typeInfo inValues.arg inValues.valueList

end InValues

/-- `extract_cast_arg`. -/
def extractCastArg : Expr → Expr
  | .uoper _ _ .kCAST operand => operand
  | expr => expr

namespace OrToInVisitor

def aggregateResult (lhs rhs : Option InValues) : Except Fault (Option InValues) :=
  match lhs, rhs with
  | some lhs, some rhs => do
      if ← Expr.operatorEq lhs.arg rhs.arg then
        return some (.make lhs.arg (lhs.valueList ++ rhs.valueList))
      else return none
  | _, _ => .ok none

variable (conversions : Conversions)

/-- The copy of a constant, cast to the type of the other side. -/
def recast (typeInfo : Analyzer.SQLTypeInfo) (isNull : Bool) (constval : Datum)
    (argTi : Analyzer.SQLTypeInfo) : Except Fault Expr := do
  match ← Expr.deepCopyConstant typeInfo isNull constval with
  | .constant typeInfo isNull constval =>
    Constant.addCast conversions typeInfo isNull constval argTi
  | expr => return expr

/-- The case `kEQ`. -/
def visitEquality (arg rhs : Expr) : Except Fault (Option InValues) :=
  match extractCastArg rhs with
  | .constant typeInfo isNull constval => do
      let rhs ← recast conversions typeInfo isNull constval arg.typeInfo
      return some (.make arg [rhs])
  | _ => .ok none

mutual

def visit : Expr → Except Fault (Option InValues)
  | .binOper _ _ optype _ leftOperand rightOperand =>
    match optype with
    | .kEQ => visitEquality conversions leftOperand rightOperand
    | .kOR => do
        let lhs ← visit leftOperand
        let rhs ← visit rightOperand
        aggregateResult lhs rhs
    | _ => .ok none
  | .functionOper _ _ args => visitArgs none args
  | .functionOperWithCustomTypeHandling _ _ args => visitArgs none args
  | _ => .ok none

def visitArgs (result : Option InValues) : List Expr → Except Fault (Option InValues)
  | [] => .ok result
  | arg :: args => do
      let next ← visit arg
      let result ← aggregateResult result next
      visitArgs result args

end

end OrToInVisitor

/-- `strip_likelihood`. -/
def stripLikelihood : Expr → Expr
  | .likelihoodExpr _ arg _ => arg
  | expr => expr

/-- The constructor of LikelihoodExpr, of a pointer that may be null. -/
def makeLikelihood (likelihood : BitVec 32) : Option Expr → Except Fault Expr
  | none => .error .nullPointer
  | some arg => .ok (.likelihoodExpr (.plain .kBOOLEAN arg.typeInfo.notnull) arg likelihood)

/-- `rewrite_expr`. -/
def rewriteExpr (conversions : Conversions) (expr : Expr) : Except Fault (Option Expr) :=
  let exprNoLikelihood := stripLikelihood expr
  match exprNoLikelihood with
  | .binOper _ _ .kOR _ _ _ => do
      let rewrittenExpr ← OrToInVisitor.visit conversions exprNoLikelihood
      match expr with
      | .likelihoodExpr _ _ likelihood => do
          -- add back likelihood
          let withLikelihood ← makeLikelihood likelihood (rewrittenExpr.map InValues.toExpr)
          return some withLikelihood
      | _ => return rewrittenExpr.map InValues.toExpr
  | _ => .ok none

end Compass.Rewrite
