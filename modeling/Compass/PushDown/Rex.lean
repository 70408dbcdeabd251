/-
The part of a query plan below its filter, and its schema
(`buildSchemaFromSource`, FilterPushDownSketch.cpp).

A RexInput names a node of the plan and an output column of that node.
The nodes are known here by their ids, which are unique and start at 1.
The schema of a node lists the tables it is joined from, each with its
number of columns, and the names of the columns; a derived table goes by
the id of the leftmost scan below it (`findBaseTableId`). A push-down puts
a compound over a scan, which keeps the id of the scan and only some of
its columns.

Nodes below a derived table or below a compound are hidden: no input of
the filter names them.

Scalar expressions of the plan (RelAlgAbstractInterpreter.h) and their
value on a row.

`RexFunctionOperator` is a `RexOperator`; it has its own constructor,
since the modelled functions test for it first. A value is NULL, a
boolean or a scalar. AND, OR, NOT, IS NULL and IS NOT NULL have their
meaning in three-valued logic; comparisons, arithmetic, casts, functions,
references and subqueries are those of an arbitrary interpretation.

The visitors of RexVisitor.h over scalar expressions.

Every rewriting of the plan that only changes where columns come from is
a `RexDeepCopyVisitor` with its own `visitInput`. `Rex.deepCopy` is that
visitor: it copies an expression and asks `visitInput` for every input.
A failed CHECK of `visitInput` fails the whole visit.
-/
import Compass.Lib.Kleene
import Compass.Sql.Types

namespace Compass.PushDown

/-- An index of a column in its table, and its name. -/
abbrev ColInfo := Nat × String

/-- A node with its inputs. `derived` is a RelProject, RelAggregate or
RelCompound of the query, `compound` the RelCompound of
`makeAndInsertCompound`, `through` a RelFilter or RelSort. -/
inductive RelNode where
  | scan (id : Nat) (fields : List String)
  | derived (id : Nat) (fields : List String) (input : RelNode)
  | compound (id : Nat) (cols : List ColInfo) (input : RelNode)
  | through (id : Nat) (input : RelNode)
  | join (id : Nat) (lhs rhs : RelNode)
deriving DecidableEq, Repr

namespace RelNode

def id : RelNode → Nat
  | .scan i _ => i
  | .derived i _ _ => i
  | .compound i _ _ => i
  | .through i _ => i
  | .join i _ _ => i

def findBaseTableId : RelNode → Nat
  | .scan i _ => i
  | .derived _ _ input => input.findBaseTableId
  | .compound _ _ input => input.findBaseTableId
  | .through _ input => input.findBaseTableId
  | .join _ lhs _ => lhs.findBaseTableId

-- ======== schemas

/-- The first half of `buildSchemaFromSource`: table ids with their
numbers of columns. -/
def tNumCols : RelNode → List (Nat × Nat)
  | .scan i fields => [(i, fields.length)]
  | .derived _ fields input => [(input.findBaseTableId, fields.length)]
  | .compound _ cols input => [(input.findBaseTableId, cols.length)]
  | .through _ input => input.tNumCols
  | .join _ lhs rhs => lhs.tNumCols ++ rhs.tNumCols

/-- The second half: the column names. -/
def schema : RelNode → List String
  | .scan _ fields => fields
  | .derived _ fields _ => fields
  | .compound _ cols _ => cols.map Prod.snd
  | .through _ input => input.schema
  | .join _ lhs rhs => lhs.schema ++ rhs.schema

/-- The ids of the tables a node is joined from. -/
def tables (n : RelNode) : List Nat :=
  n.tNumCols.map Prod.fst

/-- What the output columns are: the table and the column of it. -/
def outputs : RelNode → List (Nat × Nat)
  | .scan i fields => (List.range fields.length).map fun c => (i, c)
  | .derived _ fields input =>
    (List.range fields.length).map fun c => (input.findBaseTableId, c)
  | .compound _ cols input => cols.map fun col => (input.findBaseTableId, col.1)
  | .through _ input => input.outputs
  | .join _ lhs rhs => lhs.outputs ++ rhs.outputs

-- ======== nodes

/-- The visible node of this id. -/
def find? (n : RelNode) (i : Nat) : Option RelNode :=
  if n.id = i then some n
  else
    match n with
    | .through _ input => input.find? i
    | .join _ lhs rhs => (lhs.find? i).or (rhs.find? i)
    | _ => none

/-- The ids of all nodes of the tree. -/
def ids : RelNode → List Nat
  | .scan i _ => [i]
  | .derived i _ input => i :: input.ids
  | .compound i _ input => i :: input.ids
  | .through i input => i :: input.ids
  | .join i lhs rhs => i :: lhs.ids ++ rhs.ids

/-- `hasConnection(lhs, rhs)`: the node `lhs` is in the tree of `rhs`. -/
def hasConnection (lhs : Nat) (rhs : RelNode) : Bool :=
  rhs.ids.contains lhs

-- ======== column lookups

/-- `findColumnNameByIndex`: the table id and the column id of an index.
An index beyond the schema leaves the default tuple. -/
def findColumnByIndex (cId : Nat) : List (Nat × Nat) → Nat → Nat × Nat
  | [], _ => (0, 0)
  | (t, w) :: rest, numColsSoFar =>
    if cId < numColsSoFar + w then (t, cId - numColsSoFar)
    else findColumnByIndex cId rest (numColsSoFar + w)

/-- The loop of `getColumnInfoFromScan`. -/
def locateInScan (cId scanId : Nat) : List (Nat × Nat) → Nat → Option Nat
  | [], _ => none
  | (t, w) :: rest, numColsSoFar =>
    if t = scanId then
      if cId < numColsSoFar + w ∧ numColsSoFar ≤ cId then
        some (cId - numColsSoFar)
      else none
    else locateInScan cId scanId rest (numColsSoFar + w)

end RelNode

/-- A plan: the tables it joins are distinct, and no id is 0. -/
structure Plan where
  root : RelNode
  tables_nodup : root.tables.Nodup
  tables_pos : 0 ∉ root.tables

namespace Plan

variable (P : Plan)

def tNumColsOf (source : Nat) : List (Nat × Nat) :=
  match P.root.find? source with
  | some n => n.tNumCols
  | none => []

def schemaOf (source : Nat) : List String :=
  match P.root.find? source with
  | some n => n.schema
  | none => []

/-- The table id of `findColumnNameByIndex`. -/
def tableOf (source cId : Nat) : Nat :=
  (RelNode.findColumnByIndex cId (P.tNumColsOf source) 0).1

/-- `getColumnInfoFromScan`; (-1, "") for an input of another table. -/
def getColumnInfoFromScan (source cId scanId : Nat) : ColInfo :=
  match RelNode.locateInScan cId scanId (P.tNumColsOf source) 0 with
  | some c => (c, (P.schemaOf source).getD cId "")
  | none => (2 ^ 32 - 1, "")

/-- The table and the column an input stands for. -/
def columnOf (source cId : Nat) : Option (Nat × Nat) :=
  (P.root.find? source).bind fun n => n.outputs[cId]?

end Plan


-- ======== values

inductive Value (D : Type) where
  | null
  | bool (b : Bool)
  | scalar (d : D)
deriving DecidableEq, Repr

variable {D : Type}

/-- The truth of a value; only booleans are true or false. -/
def Value.truth : Value D → Truth
  | .bool true => .yes
  | .bool false => .no
  | _ => .unknown

def Value.ofTruth : Truth → Value D
  | .yes => .bool true
  | .no => .bool false
  | .unknown => .null

@[simp] theorem Value.truth_ofTruth (t : Truth) :
    (Value.ofTruth t : Value D).truth = t := by
  cases t <;> rfl

def Value.isNull : Value D → Bool
  | .null => true
  | _ => false

-- ======== expressions

inductive Rex (D : Type) where
  | input (source index : Nat)
  | literal (v : Value D)
  | func (name : String) (operands : List (Rex D)) (ti : SQLTypeInfo)
  | oper (op : SQLOps) (operands : List (Rex D)) (ti : SQLTypeInfo)
  | case (branches : List (Rex D × Rex D)) (els : Rex D)
  | ref (index : Nat)
  | subQuery (query : Nat)

/-- Induction with a hypothesis for every operand and every branch. -/
theorem Rex.operand_induction {P : Rex D → Prop}
    (input : ∀ s i, P (.input s i)) (literal : ∀ v, P (.literal v))
    (func : ∀ name es ti, (∀ e ∈ es, P e) → P (.func name es ti))
    (oper : ∀ op es ti, (∀ e ∈ es, P e) → P (.oper op es ti))
    (case : ∀ bs els, (∀ b ∈ bs, P b.1 ∧ P b.2) → P els → P (.case bs els))
    (ref : ∀ i, P (.ref i)) (subQuery : ∀ q, P (.subQuery q)) :
    ∀ e, P e := by
  intro e
  refine @Rex.rec D P (fun es => ∀ e ∈ es, P e) (fun bs => ∀ b ∈ bs, P b.1 ∧ P b.2)
    (fun b => P b.1 ∧ P b.2) input literal func oper case ref subQuery
    ?_ ?_ ?_ ?_ ?_ e
  · intro e he
    cases he
  · intro e es ih ihs x hx
    cases hx with
    | head => exact ih
    | tail _ hx => exact ihs x hx
  · intro b hb
    cases hb
  · intro b bs ih ihs x hx
    cases hx with
    | head => exact ih
    | tail _ hx => exact ihs x hx
  · intro w t hw ht
    exact ⟨hw, ht⟩

/-- `dynamic_cast` to RexOperator or RexCase succeeds. -/
def Rex.isOperOrCase : Rex D → Bool
  | .func _ _ _ => true
  | .oper _ _ _ => true
  | .case _ _ => true
  | _ => false

-- ======== evaluation

/-- What the logic leaves open. -/
structure Interp (D : Type) where
  apply : SQLOps → SQLTypeInfo → List (Value D) → Value D
  func : String → SQLTypeInfo → List (Value D) → Value D
  ref : Nat → Value D
  subQuery : Nat → Value D

/-- The value of an operator on the values of its operands. -/
def Interp.operValue (I : Interp D) (op : SQLOps) (ti : SQLTypeInfo)
    (vs : List (Value D)) : Value D :=
  match op, vs with
  | .kAND, vs => .ofTruth (Truth.all (vs.map Value.truth))
  | .kOR, vs => .ofTruth (Truth.any (vs.map Value.truth))
  | .kNOT, [v] => .ofTruth v.truth.neg
  | .kISNULL, [v] => .bool v.isNull
  | .kISNOTNULL, [v] => .bool !v.isNull
  | op, vs => I.apply op ti vs

/-- The value of a CASE on the values of its branches. -/
def caseValue (els : Value D) : List (Value D × Value D) → Value D
  | [] => els
  | (w, t) :: bs => if w.truth = .yes then t else caseValue els bs

/-- A row: the value of each column of each table. -/
abbrev Assignment (D : Type) := Nat × Nat → Value D

mutual

/-- The value of an expression whose inputs are read by `col`. -/
def Rex.evalWith (I : Interp D) (col : Nat → Nat → Value D) : Rex D → Value D
  | .input s i => col s i
  | .literal v => v
  | .func name es ti => I.func name ti (Rex.evalsWith I col es)
  | .oper op es ti => I.operValue op ti (Rex.evalsWith I col es)
  | .case bs els => caseValue (els.evalWith I col) (Rex.evalBranches I col bs)
  | .ref i => I.ref i
  | .subQuery q => I.subQuery q

def Rex.evalsWith (I : Interp D) (col : Nat → Nat → Value D) :
    List (Rex D) → List (Value D)
  | [] => []
  | e :: es => e.evalWith I col :: Rex.evalsWith I col es

def Rex.evalBranches (I : Interp D) (col : Nat → Nat → Value D) :
    List (Rex D × Rex D) → List (Value D × Value D)
  | [] => []
  | (w, t) :: bs =>
    (w.evalWith I col, t.evalWith I col) :: Rex.evalBranches I col bs

end

/-- The value of an input of the plan on a row. -/
def Plan.inputValue (P : Plan) (row : Assignment D) (source index : Nat) : Value D :=
  match P.columnOf source index with
  | some c => row c
  | none => .null

/-- The value of an expression of the plan on a row. -/
def Plan.eval (P : Plan) (I : Interp D) (row : Assignment D) (e : Rex D) : Value D :=
  e.evalWith I (P.inputValue row)

/-- Its truth. -/
def Plan.truth (P : Plan) (I : Interp D) (row : Assignment D) (e : Rex D) : Truth :=
  (P.eval I row e).truth

end Compass.PushDown

namespace Compass.PushDown.Rex

variable {D : Type}

-- ======== deep copy

section

variable (visitInput : Nat → Nat → Option (Rex D))

mutual

/-- `RexDeepCopyVisitor::visit`. -/
def deepCopy : Rex D → Option (Rex D)
  | .input source index => visitInput source index
  | .literal v => some (.literal v)
  | .func name es ti => (deepCopyAll es).map fun es' => .func name es' ti
  | .oper op es ti => (deepCopyAll es).map fun es' => .oper op es' ti
  | .case bs els => do
      let bs' ← deepCopyBranches bs
      let els' ← deepCopy els
      some (.case bs' els')
  | .ref i => some (.ref i)
  | .subQuery q => some (.subQuery q)

def deepCopyAll : List (Rex D) → Option (List (Rex D))
  | [] => some []
  | e :: es => do
      let e' ← deepCopy e
      let es' ← deepCopyAll es
      some (e' :: es')

def deepCopyBranches : List (Rex D × Rex D) → Option (List (Rex D × Rex D))
  | [] => some []
  | (w, t) :: bs => do
      let w' ← deepCopy w
      let t' ← deepCopy t
      let bs' ← deepCopyBranches bs
      some ((w', t') :: bs')

end

end

-- ======== inputs

mutual

/-- The inputs of an expression, source and index, in visiting order. -/
def inputs : Rex D → List (Nat × Nat)
  | .input source index => [(source, index)]
  | .literal _ => []
  | .func _ es _ => inputsAll es
  | .oper _ es _ => inputsAll es
  | .case bs els => inputsBranches bs ++ inputs els
  | .ref _ => []
  | .subQuery _ => []

def inputsAll : List (Rex D) → List (Nat × Nat)
  | [] => []
  | e :: es => inputs e ++ inputsAll es

def inputsBranches : List (Rex D × Rex D) → List (Nat × Nat)
  | [] => []
  | (w, t) :: bs => inputs w ++ inputs t ++ inputsBranches bs

end

end Compass.PushDown.Rex
