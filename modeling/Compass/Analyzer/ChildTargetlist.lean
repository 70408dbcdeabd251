/-
`rewrite_with_child_targetlist` (Analyzer.cpp, Analyzer.h): the columns of
an expression become Vars that read the row which a target list produces.

Every class has a function of its own; the default of the base class is
`deep_copy`. The null pointer among the arguments of an aggregate is the
address 0, and there is nothing at it. `abort` ends the process as a CHECK
does.

An expression is evaluated as a tree of nodes (`toTree`), of which only the
label counts and what the children are. The label leaves out the types that
a constructor of the class works out again from the children. Below a
target list the columns and the rows of the plan there have values; above
it a column has none, and the outer row is what the entries of the target
list are below. A Var with a table id reads the column that it comes from.
-/
import Compass.Analyzer.Expr
import Compass.Lib.NodeTree

namespace Compass.Analyzer

namespace Expr

-- ======== rewriting

def nullptr : Addr := 0

/-- An element of a vector that was made with a size. -/
def nullArg : Addr × Expr :=
  (nullptr, expressionTuple .null [])

/-- `ColumnVar::rewrite_with_child_targetlist`, from an entry on. -/
def rewriteColumnVar (tableId columnId varno : Int) : List Expr → Except Fault Expr
  | [] => .error (.runtimeError "Internal error: cannot find ColumnVar in child targetlist.")
  | columnVar ti tableId' columnId' rteIdx :: tlist
  | var ti tableId' columnId' rteIdx _ _ :: tlist =>
    if tableId = tableId' ∧ columnId = columnId' then
      .ok (var ti tableId' columnId' rteIdx .kINPUT_OUTER varno)
    else rewriteColumnVar tableId columnId (varno + 1) tlist
  | _ :: _ =>
    .error (.runtimeError
      "Internal Error: targetlist in rewrite_with_child_targetlist is not all columns.")

section

variable (alloc : Addr → Addr) (tlist : List Expr)

mutual

def rewriteWithChildTargetlist : Expr → Except Fault Expr
  | columnVar _ tableId columnId _ => rewriteColumnVar tableId columnId 1 tlist
  | uoper ti containsAgg optype operand => do
      let operand ← rewriteWithChildTargetlist operand
      return uoper ti containsAgg optype operand
  | binOper ti containsAgg optype qualifier leftOperand rightOperand => do
      let leftOperand ← rewriteWithChildTargetlist leftOperand
      let rightOperand ← rewriteWithChildTargetlist rightOperand
      return binOper ti containsAgg optype qualifier leftOperand rightOperand
  | subquery _ _ => .error .check
  | inValues _ arg valueList => do
      let newValueList ← deepCopyList alloc valueList
      let arg ← rewriteWithChildTargetlist arg
      return inValues (.plain .kBOOLEAN !isInValuesNullable arg newValueList) arg newValueList
  | charLengthExpr _ arg calcEncodedLength => do
      let arg ← rewriteWithChildTargetlist arg
      return charLengthExpr (.plain .kINT arg.typeInfo.notnull) arg calcEncodedLength
  | likeExpr _ arg like escapeExpr isIlike isSimple => do
      let arg ← rewriteWithChildTargetlist arg
      let like ← deepCopy alloc like
      let escapeExpr ← deepCopyEscape alloc escapeExpr
      return likeExpr (.plain .kBOOLEAN arg.typeInfo.notnull) arg like escapeExpr isIlike isSimple
  | regexpExpr _ arg patternExpr escapeExpr => do
      let arg ← rewriteWithChildTargetlist arg
      let patternExpr ← deepCopy alloc patternExpr
      let escapeExpr ← deepCopyEscape alloc escapeExpr
      return regexpExpr (.plain .kBOOLEAN arg.typeInfo.notnull) arg patternExpr escapeExpr
  | likelihoodExpr _ arg likelihood => do
      let arg ← rewriteWithChildTargetlist arg
      return likelihoodExpr (.plain .kBOOLEAN arg.typeInfo.notnull) arg likelihood
  | aggExpr ti aggtype args isDistinct errorRate => do
      -- `args_new(args.size())` has as many null pointers already
      let argsNew ← rewriteArgs args
      return aggExpr ti aggtype (List.replicate args.length nullArg ++ argsNew) isDistinct errorRate
  | caseExpr ti containsAgg exprPairList elseExpr => do
      let epairList ← rewritePairs exprPairList
      let elseExpr ← rewriteElse elseExpr
      return caseExpr ti containsAgg epairList elseExpr
  | extractExpr ti containsAgg field fromExpr => do
      let fromExpr ← rewriteWithChildTargetlist fromExpr
      return extractExpr ti containsAgg field fromExpr
  | dateaddExpr ti field number datetime => do
      let number ← rewriteWithChildTargetlist number
      let datetime ← rewriteWithChildTargetlist datetime
      return dateaddExpr ti field number datetime
  | datediffExpr ti field start stop => do
      let start ← rewriteWithChildTargetlist start
      let stop ← rewriteWithChildTargetlist stop
      return datediffExpr ti field start stop
  | datetruncExpr ti containsAgg field fromExpr => do
      let fromExpr ← rewriteWithChildTargetlist fromExpr
      return datetruncExpr ti containsAgg field fromExpr
  -- the others, and Var, do what the base class does
  | e => deepCopy alloc e

def rewriteArgs : List (Addr × Expr) → Except Fault (List (Addr × Expr))
  | [] => .ok []
  | (addr, e) :: args => do
      let e ← rewriteWithChildTargetlist e
      let args ← rewriteArgs args
      return (alloc addr, e) :: args

def rewritePairs : List (Expr × Expr) → Except Fault (List (Expr × Expr))
  | [] => .ok []
  | (e₁, e₂) :: pairs => do
      let e₁ ← rewriteWithChildTargetlist e₁
      let e₂ ← rewriteWithChildTargetlist e₂
      let pairs ← rewritePairs pairs
      return (e₁, e₂) :: pairs

def rewriteElse : Option Expr → Except Fault (Option Expr)
  | none => .ok none
  | some e => do
      let e ← rewriteWithChildTargetlist e
      return some e

end

example (ti : SQLTypeInfo) (parsetree : Addr) :
    rewriteWithChildTargetlist alloc tlist (subquery ti parsetree) = .error .check := by
  rw [rewriteWithChildTargetlist]

end

end Expr

-- ======== trees

/-- A node without children. A constant has no datum if it is NULL. -/
inductive Leaf where
  | column (tableId columnId rteIdx : Int)
  | var (tableId columnId rteIdx : Int) (whichRow : WhichRow) (varno : Int)
  | constant (ti : SQLTypeInfo) (constval : Option Datum)
  | subquery (parsetree : Addr)
  | iter (tableId rteIdx : Int)

/-- What a node with children is. -/
inductive Head where
  | expressionTuple
  | uoper (ti : SQLTypeInfo) (containsAgg : Bool) (optype : SQLOps)
  | binOper (ti : SQLTypeInfo) (containsAgg : Bool) (optype : SQLOps) (qualifier : SQLQualifier)
  | inValues
  | inIntegerSet (valueList : List Int)
  | charLengthExpr (calcEncodedLength : Bool)
  | likeExpr (isIlike isSimple : Bool)
  | regexpExpr
  | likelihoodExpr (likelihood : BitVec 32)
  | aggExpr (ti : SQLTypeInfo) (aggtype : SQLAgg) (isDistinct : Bool) (errorRate : Option ErrorRate)
  | caseExpr (ti : SQLTypeInfo) (containsAgg : Bool)
  | extractExpr (ti : SQLTypeInfo) (containsAgg : Bool) (field : ExtractField)
  | dateaddExpr (ti : SQLTypeInfo) (field : DateField)
  | datediffExpr (ti : SQLTypeInfo) (field : DateField)
  | datetruncExpr (ti : SQLTypeInfo) (containsAgg : Bool) (field : DateField)
  | functionOper (ti : SQLTypeInfo) (name : String)
  | functionOperWithCustomTypeHandling (ti : SQLTypeInfo) (name : String)
  | ndvEstimator

abbrev ExprTree := NodeTree Leaf Head

namespace Expr

mutual

def toTree : Expr → ExprTree
  | columnVar _ tableId columnId rteIdx => .leaf (.column tableId columnId rteIdx)
  | var _ tableId columnId rteIdx whichRow varno =>
    .leaf (.var tableId columnId rteIdx whichRow varno)
  | expressionTuple _ tuple => .node .expressionTuple (childrenList tuple)
  | constant ti isNull constval => .leaf (.constant ti (if isNull then none else some constval))
  | uoper ti containsAgg optype operand =>
    .node (.uoper ti containsAgg optype) [some (toTree operand)]
  | binOper ti containsAgg optype qualifier leftOperand rightOperand =>
    .node (.binOper ti containsAgg optype qualifier)
      [some (toTree leftOperand), some (toTree rightOperand)]
  | subquery _ parsetree => .leaf (.subquery parsetree)
  | inValues _ arg valueList => .node .inValues (some (toTree arg) :: childrenList valueList)
  | inIntegerSet _ arg valueList => .node (.inIntegerSet valueList) [some (toTree arg)]
  | charLengthExpr _ arg calcEncodedLength =>
    .node (.charLengthExpr calcEncodedLength) [some (toTree arg)]
  | likeExpr _ arg like escapeExpr isIlike isSimple =>
    .node (.likeExpr isIlike isSimple)
      (some (toTree arg) :: some (toTree like) :: childrenEscape escapeExpr)
  | regexpExpr _ arg patternExpr escapeExpr =>
    .node .regexpExpr
      (some (toTree arg) :: some (toTree patternExpr) :: childrenEscape escapeExpr)
  | likelihoodExpr _ arg likelihood => .node (.likelihoodExpr likelihood) [some (toTree arg)]
  | aggExpr ti aggtype args isDistinct errorRate =>
    .node (.aggExpr ti aggtype isDistinct errorRate) (childrenArgs args)
  | caseExpr ti containsAgg exprPairList elseExpr =>
    .node (.caseExpr ti containsAgg) (childrenPairs exprPairList ++ childrenElse elseExpr)
  | extractExpr ti containsAgg field fromExpr =>
    .node (.extractExpr ti containsAgg field) [some (toTree fromExpr)]
  | dateaddExpr ti field number datetime =>
    .node (.dateaddExpr ti field) [some (toTree number), some (toTree datetime)]
  | datediffExpr ti field start stop =>
    .node (.datediffExpr ti field) [some (toTree start), some (toTree stop)]
  | datetruncExpr ti containsAgg field fromExpr =>
    .node (.datetruncExpr ti containsAgg field) [some (toTree fromExpr)]
  | functionOper ti name args => .node (.functionOper ti name) (childrenList args)
  | functionOperWithCustomTypeHandling ti name args =>
    .node (.functionOperWithCustomTypeHandling ti name) (childrenList args)
  | iterExpr _ tableId rteIdx => .leaf (.iter tableId rteIdx)
  | ndvEstimator _ exprTuple => .node .ndvEstimator (childrenList exprTuple)

def childrenList : List Expr → List (Option ExprTree)
  | [] => []
  | e :: es => some (toTree e) :: childrenList es

def childrenArgs : List (Addr × Expr) → List (Option ExprTree)
  | [] => []
  | (addr, e) :: args => (if addr = nullptr then none else some (toTree e)) :: childrenArgs args

def childrenEscape : Option (Addr × Expr) → List (Option ExprTree)
  | none => []
  | some (_, e) => [some (toTree e)]

def childrenPairs : List (Expr × Expr) → List (Option ExprTree)
  | [] => []
  | (e₁, e₂) :: pairs => some (toTree e₁) :: some (toTree e₂) :: childrenPairs pairs

def childrenElse : Option Expr → List (Option ExprTree)
  | none => []
  | some e => [some (toTree e)]

end

example (ti : SQLTypeInfo) (parsetree : Addr) :
    toTree (subquery ti parsetree) = .leaf (.subquery parsetree) := by
  rw [toTree]

end Expr

-- ======== values

/-- What has a value of its own. -/
inductive Atom where
  | column (tableId columnId rteIdx : Int)
  /-- A place in a row that does not come from a column. -/
  | slot (whichRow : WhichRow) (varno : Int)
  | constant (ti : SQLTypeInfo) (constval : Option Datum)
  | subquery (parsetree : Addr)
  | iter (tableId rteIdx : Int)

/-- "The table_id will be set to 0 if the Var does not correspond to an
original column value." -/
def lineage (tableId columnId rteIdx : Int) (whichRow : WhichRow) (varno : Int) : Atom :=
  if tableId = 0 then .slot whichRow varno else .column tableId columnId rteIdx

def Leaf.atom : Leaf → Atom
  | column tableId columnId rteIdx => .column tableId columnId rteIdx
  | var tableId columnId rteIdx whichRow varno => lineage tableId columnId rteIdx whichRow varno
  | constant ti constval => .constant ti constval
  | subquery parsetree => .subquery parsetree
  | iter tableId rteIdx => .iter tableId rteIdx

/-- An entry of a target list, by its number from 1 on. -/
def entry (tlist : List Expr) (varno : Int) : Option Expr :=
  if 1 ≤ varno then tlist[(varno - 1).toNat]? else none

section

variable {V : Type} (atomValue : Atom → Option V) (nodeValue : Head → List V → V)

def valueBelow (e : Expr) : Option V :=
  e.toTree.eval (fun l => atomValue l.atom) nodeValue

def Leaf.valueAbove (tlist : List Expr) : Leaf → Option V
  | column .. => none
  | var _ _ _ .kINPUT_OUTER varno => (entry tlist varno).bind (valueBelow atomValue nodeValue)
  | l => atomValue l.atom

def valueAbove (tlist : List Expr) (e : Expr) : Option V :=
  e.toTree.eval (Leaf.valueAbove atomValue nodeValue tlist) nodeValue

end

-- ======== the claim

def Leaf.isColumn : Leaf → Bool
  | column .. | var .. => true
  | _ => false

/-- The same leaf, or two columns. -/
def SameLeaf (l l' : Leaf) : Prop :=
  l = l' ∨ (l.isColumn = true ∧ l'.isColumn = true)

section

variable (alloc : Addr → Addr) (tlist : List Expr) (e : Expr)

/-- The rewritten expression has the structure of the original one and, above
the target list, its value. -/
def RewritePreserves : Prop :=
  ∃ e', e.rewriteWithChildTargetlist alloc tlist = .ok e' ∧
    e.toTree.SameStructure SameLeaf e'.toTree ∧
    ∀ (V : Type) (atomValue : Atom → Option V) (nodeValue : Head → List V → V),
      valueAbove atomValue nodeValue tlist e' = valueBelow atomValue nodeValue e

def CopyPreserves : Prop :=
  ∃ e', e.deepCopy alloc = .ok e' ∧
    e.toTree.SameStructure SameLeaf e'.toTree ∧
    ∀ (V : Type) (atomValue : Atom → Option V) (nodeValue : Head → List V → V),
      valueBelow atomValue nodeValue e' = valueBelow atomValue nodeValue e

end

-- ======== the condition

/-- A subquery has no copy, and a string must be there if it is not NULL. -/
def Leaf.Copyable : Leaf → Prop
  | constant ti none => ∃ d, nullValue ti.type = .ok d
  | constant ti (some d) => ti.isString = true → d.stringval.isSome = true
  | subquery _ => False
  | _ => True

mutual

/-- An expression that can be copied, no argument of which is missing. -/
def Copyable : ExprTree → Prop
  | .leaf l => l.Copyable
  | .node h children =>
    match h with
    | .ndvEstimator => False
    -- the argument is shared
    | .inIntegerSet _ => NodeTree.AllList (fun _ => True) children
    | .expressionTuple => ∀ c ∈ children, ∃ l : Leaf, c = some (.leaf l) ∧ l.isColumn = true
    | _ => CopyableAll children

def CopyableAll : List (Option ExprTree) → Prop
  | [] => True
  | none :: _ => False
  | some t :: ts => Copyable t ∧ CopyableAll ts

end

def Expr.columnIds : Expr → Option (Int × Int)
  | columnVar _ tableId columnId _ | var _ tableId columnId .. => some (tableId, columnId)
  | _ => none

def Expr.columnAtom : Expr → Option Atom
  | columnVar _ tableId columnId rteIdx => some (.column tableId columnId rteIdx)
  | var _ tableId columnId rteIdx whichRow varno =>
    some (lineage tableId columnId rteIdx whichRow varno)
  | _ => none

/-- The first entry with the ids of a column is that column, and those before
are columns. -/
def Found (tlist : List Expr) (tableId columnId rteIdx : Int) : Prop :=
  ∃ front e back, tlist = front ++ e :: back ∧
    (∀ e' ∈ front, ∃ ids, e'.columnIds = some ids ∧ ids ≠ (tableId, columnId)) ∧
    e.columnIds = some (tableId, columnId) ∧
    e.columnAtom = some (.column tableId columnId rteIdx)

/-- A leaf that means the same above a target list: no column, and no place in
the outer row but one with the same content. -/
def Leaf.Kept (tlist : List Expr) : Leaf → Prop
  | column .. => False
  | var tableId columnId rteIdx whichRow varno =>
    whichRow = .kINPUT_OUTER → ∃ e, entry tlist varno = some e ∧
      e.columnAtom = some (lineage tableId columnId rteIdx whichRow varno)
  | _ => True

def Leaf.Rewritable (tlist : List Expr) : Leaf → Prop
  | column tableId columnId rteIdx => Found tlist tableId columnId rteIdx
  | l => l.Copyable ∧ l.Kept tlist

/-- A tree that is copied, and means the same above a target list. -/
def Copied (tlist : List Expr) (t : ExprTree) : Prop :=
  Copyable t ∧ t.All (Leaf.Kept tlist)

def CopiedAll (tlist : List Expr) (ts : List (Option ExprTree)) : Prop :=
  CopyableAll ts ∧ NodeTree.AllList (Leaf.Kept tlist) ts

/-- What a class does with its children. -/
inductive Role where
  /-- All of them are rewritten. -/
  | every
  /-- The first one is rewritten, the others are copied. -/
  | first
  | copied
  /-- They are rewritten, behind as many null pointers. -/
  | aggregate

def Head.role : Head → Role
  | expressionTuple | inIntegerSet _ | functionOper .. | functionOperWithCustomTypeHandling ..
  | ndvEstimator => .copied
  | inValues | likeExpr .. | regexpExpr => .first
  | aggExpr .. => .aggregate
  | uoper .. | binOper .. | charLengthExpr _ | likelihoodExpr _ | caseExpr .. | extractExpr ..
  | dateaddExpr .. | datediffExpr .. | datetruncExpr .. => .every

section

variable (tlist : List Expr)

mutual

/-- An aggregate has no arguments, and whatever is copied reads no column. -/
def Rewritable : ExprTree → Prop
  | .leaf l => l.Rewritable tlist
  | .node h children =>
    match h.role with
    | .every => RewritableAll children
    | .first => RewritableFirst children
    | .copied => Copied tlist (.node h children)
    | .aggregate => children = []

def RewritableAll : List (Option ExprTree) → Prop
  | [] => True
  | none :: _ => False
  | some t :: ts => Rewritable t ∧ RewritableAll ts

def RewritableFirst : List (Option ExprTree) → Prop
  | some t :: ts => Rewritable t ∧ CopiedAll tlist ts
  | _ => False

end

end

end Compass.Analyzer
