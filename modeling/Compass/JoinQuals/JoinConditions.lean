/-
`ScalarExprVisitor`, and the two visitors of RangeTableIndexVisitor.h
that are built on it: the greatest index of the range table in an
expression, and the set of all of them.

Both visitors differ from the default visitor in what they do with a
column, with a tuple and with two results, and in the same way, so the
visitor has these as fields. A node of a class that the visitor does not
know, and a Var, has the default result. A visit of a null pointer fails
a CHECK: the ELSE of a CASE that has none, the argument of COUNT(*).

`combine_equi_join_conditions` (EquiJoinCondition.cpp): equalities over
the same two tables that follow one another in a list of join qualifiers
become one equality of tuples, for a hash table with a composite key.

The sides of a merged equality lose a cast, on both sides and whatever
the cast does. A tuple holds at most `gMaximumConditionsToCoalesce`
components.

`translateLeftDeepJoinFilter` (RelAlgExecutor.cpp): the qualifiers of a
flattened join, by nesting level.

A level with an outer condition is a LEFT one and has the qualifiers of
that condition. On the other levels the qualifiers of the inner condition
that have not been placed yet, and whose greatest index is within the
level, are placed. A qualifier is known by its pointer: `P` are the
pointers, and `deref` says what they point to. The greatest index is an
`int` that is compared as a `size_t`, as which a negative one is larger
than all levels.

`makeJoinQuals` translates a condition; the inputs may have been permuted
for it. It is a parameter here, so the qualifiers can be any.
-/
import Mathlib.Data.Finset.Card
import Compass.Analyzer.Expr
import Compass.LeftDeep.Join

namespace Compass.JoinQuals

open Compass.Analyzer

/-- What the visitors override. -/
structure ScalarExprVisitor (T : Type) where
  visitColumnVar : (rteIdx : Int) → T
  aggregateResult : (aggregate nextResult : T) → T
  defaultResult : T

namespace ScalarExprVisitor

variable {T : Type} (v : ScalarExprVisitor T)

mutual

def visit : Expr → Except Fault T
  | .columnVar _ _ _ rteIdx => .ok (v.visitColumnVar rteIdx)
  | .expressionTuple _ tuple => visitList v.defaultResult tuple
  | .uoper _ _ _ operand => do
      let result ← visit operand
      return v.aggregateResult v.defaultResult result
  | .binOper _ _ _ _ leftOperand rightOperand => do
      let left ← visit leftOperand
      let right ← visit rightOperand
      return v.aggregateResult (v.aggregateResult v.defaultResult left) right
  | .inValues _ arg valueList => do
      let result ← visit arg
      visitList result valueList
  | .inIntegerSet _ arg _ => visit arg
  | .charLengthExpr _ arg _ => do
      let result ← visit arg
      return v.aggregateResult v.defaultResult result
  | .likeExpr _ arg like escapeExpr _ _ => do
      let arg ← visit arg
      let like ← visit like
      visitEscape (v.aggregateResult (v.aggregateResult v.defaultResult arg) like) escapeExpr
  | .regexpExpr _ arg patternExpr escapeExpr => do
      let arg ← visit arg
      let pattern ← visit patternExpr
      visitEscape (v.aggregateResult (v.aggregateResult v.defaultResult arg) pattern) escapeExpr
  | .caseExpr _ _ exprPairList elseExpr => do
      let result ← visitPairs v.defaultResult exprPairList
      let elseResult ← visitElse elseExpr
      return v.aggregateResult result elseResult
  | .datetruncExpr _ _ _ fromExpr => do
      let result ← visit fromExpr
      return v.aggregateResult v.defaultResult result
  | .extractExpr _ _ _ fromExpr => do
      let result ← visit fromExpr
      return v.aggregateResult v.defaultResult result
  | .functionOper _ _ args => visitList v.defaultResult args
  | .functionOperWithCustomTypeHandling _ _ args => visitList v.defaultResult args
  | .datediffExpr _ _ start stop => do
      let start ← visit start
      let stop ← visit stop
      return v.aggregateResult (v.aggregateResult v.defaultResult start) stop
  | .dateaddExpr _ _ number datetime => do
      let number ← visit number
      let datetime ← visit datetime
      return v.aggregateResult (v.aggregateResult v.defaultResult number) datetime
  | .likelihoodExpr _ arg _ => visit arg
  | .aggExpr _ _ args _ _ => do
      let result ← visitArg args
      return v.aggregateResult v.defaultResult result
  | .var .. | .constant .. | .iterExpr .. | .subquery .. | .ndvEstimator .. => .ok v.defaultResult

/-- A loop over expressions. -/
def visitList (result : T) : List Expr → Except Fault T
  | [] => .ok result
  | e :: es => do
      let next ← visit e
      visitList (v.aggregateResult result next) es

/-- The loop over the branches of a CASE. -/
def visitPairs (result : T) : List (Expr × Expr) → Except Fault T
  | [] => .ok result
  | (e₁, e₂) :: pairs => do
      let first ← visit e₁
      let second ← visit e₂
      visitPairs (v.aggregateResult (v.aggregateResult result first) second) pairs

def visitEscape (result : T) : Option (Addr × Expr) → Except Fault T
  | none => .ok result
  | some (_, e) => do
      let next ← visit e
      return v.aggregateResult result next

def visitElse : Option Expr → Except Fault T
  | none => .error .check
  | some e => visit e

/-- `get_arg` of an aggregate: its first argument, or null. -/
def visitArg : List (Addr × Expr) → Except Fault T
  | [] => .error .check
  | (_, e) :: _ => visit e

end

end ScalarExprVisitor

/-- `MaxRangeTableIndexVisitor`. -/
def maxRangeTableIndexVisitor : ScalarExprVisitor Int where
  visitColumnVar rteIdx := rteIdx
  aggregateResult := max
  defaultResult := 0

/-- `AllRangeTableIndexVisitor`. -/
def allRangeTableIndexVisitor : ScalarExprVisitor (Finset Int) where
  visitColumnVar rteIdx := {rteIdx}
  aggregateResult := (· ∪ ·)
  defaultResult := ∅

end Compass.JoinQuals

namespace Compass.JoinQuals

open Analyzer

def gMaximumConditionsToCoalesce : Nat := 8

def removeCast : Expr → Expr
  | .uoper _ _ .kCAST operand => operand
  | expr => expr

/-- A `dynamic_cast` to ColumnVar: its table and its index in the range
table. -/
def columnVarOf : Expr → Option (Int × Int)
  | .columnVar _ tableId _ rteIdx | .var _ tableId _ rteIdx _ _ => some (tableId, rteIdx)
  | _ => none

/-- `can_combine_with`. -/
def canCombineWith : (crt prev : Expr) → Except Fault Bool
  | .binOper _ _ crtOptype crtQualifier crtLeft crtRight,
    .binOper _ _ prevOptype prevQualifier prevLeft prevRight =>
      if !crtOptype.isEquivalence || crtQualifier ≠ .kONE || !prevOptype.isEquivalence
          || prevQualifier ≠ .kONE || crtOptype ≠ prevOptype then .ok false
      else do
        let crtInner := columnVarOf (removeCast crtRight)
        let prevInner := columnVarOf (removeCast prevRight)
        let crtOuterRteSet ← allRangeTableIndexVisitor.visit crtLeft
        let prevOuterRteSet ← allRangeTableIndexVisitor.visit prevLeft
        if crtOuterRteSet.card ≠ 1 || prevOuterRteSet.card ≠ 1
            || crtOuterRteSet ≠ prevOuterRteSet then
          return false
        if crtInner.isNone || prevInner.isNone || crtInner ≠ prevInner then return false
        return true
  | _, _ => .ok false

/-- The loop of `make_composite_equals_impl`: `not_null` and the two
tuples. -/
def compositeSides : (crtCoalescedQuals : List Expr) → Except Fault (Bool × List Expr × List Expr)
  | [] => .ok (true, [], [])
  | .binOper ti _ _ _ leftOperand rightOperand :: rest => do
      let (notNull, lhsTuple, rhsTuple) ← compositeSides rest
      return (ti.notnull && notNull, removeCast leftOperand :: lhsTuple,
        removeCast rightOperand :: rhsTuple)
  | _ :: _ => .error .check

def makeCompositeEqualsImpl (crtCoalescedQuals : List Expr) : Except Fault Expr := do
  let (notNull, lhsTuple, rhsTuple) ← compositeSides crtCoalescedQuals
  match crtCoalescedQuals with
  | .binOper _ _ optype _ _ _ :: _ =>
    return .binOper (.plain .kBOOLEAN notNull) false optype .kONE
      (.expressionTuple .null lhsTuple) (.expressionTuple .null rhsTuple)
  | _ => .error .check

def makeCompositeEquals : (crtCoalescedQuals : List Expr) → Except Fault Expr
  | [qual] => .ok qual
  | crtCoalescedQuals => makeCompositeEqualsImpl crtCoalescedQuals

/-- The loop of `combine_equi_join_conditions`. -/
def combineLoop (crtCoalescedQuals : List Expr) : (joinQuals : List Expr) →
    Except Fault (List Expr)
  | [] =>
    if crtCoalescedQuals.isEmpty then .ok []
    else do
      let qual ← makeCompositeEquals crtCoalescedQuals
      return [qual]
  | simpleJoinQual :: rest =>
    match crtCoalescedQuals.getLast? with
    | none => combineLoop [simpleJoinQual] rest
    | some back => do
        let full := crtCoalescedQuals.length ≥ gMaximumConditionsToCoalesce
        let combine ← if full then .ok false else canCombineWith simpleJoinQual back
        if combine then combineLoop (crtCoalescedQuals ++ [simpleJoinQual]) rest
        else do
          let qual ← makeCompositeEquals crtCoalescedQuals
          let coalescedQuals ← combineLoop [simpleJoinQual] rest
          return qual :: coalescedQuals

def combineEquiJoinConditions (joinQuals : List Expr) : Except Fault (List Expr) :=
  combineLoop [] joinQuals

end Compass.JoinQuals

namespace Compass.JoinQuals

open Compass.Analyzer
open Compass.LeftDeep (JoinType RelLeftDeepInnerJoin)
open Compass.PushDown (Rex)

/-- `JoinCondition`: the qualifiers of one nesting level. -/
structure LevelJoinCondition (P : Type) where
  quals : List P
  type : JoinType
deriving DecidableEq

variable {D P : Type} [DecidableEq P] (makeJoinQuals : Rex D → List P) (deref : P → Expr)

/-- The loop over the inner qualifiers on one level: those placed, and
`visited_quals`. -/
def placeQuals (rteIdx : Nat) : (joinConditionQuals visitedQuals : List P) →
    Except Fault (List P × List P)
  | [], visitedQuals => .ok ([], visitedQuals)
  | qual :: rest, visitedQuals =>
    if qual ∈ visitedQuals then placeQuals rteIdx rest visitedQuals
    else do
      let qualRteIdx ← maxRangeTableIndexVisitor.visit (deref qual)
      if 0 ≤ qualRteIdx ∧ qualRteIdx ≤ rteIdx then
        let (quals, visitedQuals) ← placeQuals rteIdx rest (qual :: visitedQuals)
        return (qual :: quals, visitedQuals)
      else placeQuals rteIdx rest visitedQuals

/-- The CHECKs on the type of a level. -/
def checkType (joinTypes : List JoinType) (rteIdx : Nat) (type : JoinType) : Except Fault Unit :=
  if joinTypes[rteIdx - 1]? = some type then .ok () else .error .check

/-- The loop over the levels. -/
def translateLevels (join : RelLeftDeepInnerJoin D) (joinConditionQuals : List P) :
    (rteIdxs : List Nat) → (visitedQuals : List P) → Except Fault (List (LevelJoinCondition P))
  | [], _ => .ok []
  | rteIdx :: rest, visitedQuals =>
    match join.getOuterCondition rteIdx with
    | some outerCondition => do
        checkType join.leftDeepJoinTypes rteIdx .LEFT
        let result ← translateLevels join joinConditionQuals rest visitedQuals
        return ⟨makeJoinQuals outerCondition, .LEFT⟩ :: result
    | none => do
        let (quals, visitedQuals) ← placeQuals deref rteIdx joinConditionQuals visitedQuals
        checkType join.leftDeepJoinTypes rteIdx .INNER
        let result ← translateLevels join joinConditionQuals rest visitedQuals
        return ⟨quals, .INNER⟩ :: result

/-- `translateLeftDeepJoinFilter`, for so many input descriptors. -/
def translateLeftDeepJoinFilter (join : RelLeftDeepInnerJoin D) (inputDescs : Nat) :
    Except Fault (List (LevelJoinCondition P)) :=
  translateLevels makeJoinQuals deref join (makeJoinQuals join.condition)
    (List.range' 1 (inputDescs - 1)) []

end Compass.JoinQuals
