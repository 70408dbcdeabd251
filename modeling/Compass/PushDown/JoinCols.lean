/-
The join columns of a query (`extractHashJoinCol`, FilterPushDownSketch.cpp).

The condition of the filter over the join is searched for operators whose
two operands are columns of different scans. Each gives an edge of the join
graph, with a join column at both of its ends; the nodes of the graph are
the composite keys of the scans. The search goes through the operands of
every operator, from left to right, and ends at the first subquery, for
which it returns false.

A failed CHECK, and a key that `std::stoi` refuses, is `none`.
-/
import Compass.PushDown.Rex
import Compass.JoinOrder.Estimate
import Compass.JoinOrder.Traversal

namespace Compass.PushDown

open Compass.JoinOrder (ScanId JoinCol JoinCols Graph)

-- ======== the maps of the executor

structure JoinInfo where
  /-- `getJoinGraph()`. -/
  joinGraph : Graph
  /-- `getNodeJoinColumns()`. -/
  nodeJoinColumns : JoinCols
  /-- `getTableIndexInfo()`: the table id of a node and the place of its
  scan among the scans. -/
  tableIndexInfo : List (Nat × Nat × Nat)

namespace JoinInfo

def empty : JoinInfo := ⟨⟨∅, fun _ => ∅⟩, fun _ => [], []⟩

/-- One end of an edge: a node that is not in the graph gets an empty
entry in both maps first. -/
def addEnd (info : JoinInfo) (node : Nat) (j : JoinCol) : JoinInfo :=
  let isNew := node ∉ info.joinGraph.nodes
  let adjacent := if isNew then ∅ else info.joinGraph.adj node
  let columns := if isNew then [] else info.nodeJoinColumns node
  { info with
    joinGraph :=
      { nodes := insert node info.joinGraph.nodes
        adj := Function.update info.joinGraph.adj node (insert j.otherNode adjacent) }
    nodeJoinColumns := Function.update info.nodeJoinColumns node (columns ++ [j]) }

/-- `getTableIndexInfo().emplace`, when the node has no entry. -/
def addTableIndex (info : JoinInfo) (node tableId tOrder : Nat) : JoinInfo :=
  if info.tableIndexInfo.any (fun entry => entry.1 == node) then info
  else { info with tableIndexInfo := info.tableIndexInfo ++ [(node, tableId, tOrder)] }

/-- Every edge has both its ends, with mirrored columns, and the graph
has the edges of the join columns. -/
def Mirrored (info : JoinInfo) : Prop :=
  (∀ node, ∀ j ∈ info.nodeJoinColumns node,
    ⟨j.otherTableId, j.otherColumnId, node, j.tableId, j.columnId⟩
      ∈ info.nodeJoinColumns j.otherNode)
  ∧ ∀ node other, other ∈ info.joinGraph.adj node ↔
    ∃ j ∈ info.nodeJoinColumns node, j.otherNode = other

end JoinInfo

-- ======== the search

/-- A column of a scan: what the search knows about an operand. -/
structure ScanCol where
  scan : ScanId
  /-- `t_order`: the place of the scan among the scans. -/
  tOrder : Nat
  columnId : Nat

/-- The join column at the end `x` of the edge from `x` to `y`. -/
def ScanCol.joinCol (x y : ScanCol) (otherNode : Nat) : JoinCol where
  tableId := x.scan.tableId.toNat
  columnId := x.columnId
  otherNode := otherNode
  otherTableId := y.scan.tableId.toNat
  otherColumnId := y.columnId

section

variable {D : Type} (P : Plan) (scans : List ScanId)

/-- The first of the scans with the id of the column's table. -/
def findScan (col : Nat × Nat) : Option ScanCol := do
  let tOrder ← scans.findIdx? fun scan => scan.nodeId = (col.1 : Int)
  let scan ← scans[tOrder]?
  some ⟨scan, tOrder, col.2⟩

/-- `findColumnNameByIndex` of an input: the table and the column. -/
def inputColumn (input : Nat × Nat) : Nat × Nat :=
  RelNode.findColumnByIndex input.2 (P.tNumColsOf input.1) 0

/-- `node_lhs`, `node_rhs`. -/
def ScanCol.node (x : ScanCol) : Option Nat :=
  x.scan.key.toOption.map Int.toNat

/-- The edge between two columns. -/
def addJoin (x y : ScanCol) (info : JoinInfo) : Option JoinInfo := do
  let nodeLhs ← x.node
  let nodeRhs ← y.node
  let info := info.addEnd nodeLhs (x.joinCol y nodeRhs)
  let info := info.addEnd nodeRhs (y.joinCol x nodeLhs)
  let info := info.addTableIndex nodeLhs x.scan.tableId.toNat x.tOrder
  some (info.addTableIndex nodeRhs y.scan.tableId.toNat y.tOrder)

/-- The two operands, when both are inputs. -/
def columnPair : List (Rex D) → Option ((Nat × Nat) × (Nat × Nat))
  | [.input s i, .input s' i'] => some ((s, i), (s', i'))
  | _ => none

/-- The columns that the operator joins, if there are any: its operands
are two inputs, and their scans are different ones. -/
def joinOf (es : List (Rex D)) : Option (Option (ScanCol × ScanCol)) :=
  match columnPair es with
  | some (lhs, rhs) => do
      let x ← findScan scans (inputColumn P lhs)
      let y ← findScan scans (inputColumn P rhs)
      some (if x.tOrder ≠ y.tOrder then some (x, y) else none)
  | none => some none

mutual

def extractHashJoinCol : Rex D → JoinInfo → Option (JoinInfo × Bool)
  | .oper _ es _, info => do
      match ← joinOf P scans es with
      | some (x, y) => some (← addJoin x y info, true)
      | none => extractFromOperands es info
  | .func _ es _, info => do
      match ← joinOf P scans es with
      | some (x, y) => some (← addJoin x y info, true)
      | none => extractFromOperands es info
  | .subQuery _, info => some (info, false)
  | _, info => some (info, true)

def extractFromOperands : List (Rex D) → JoinInfo → Option (JoinInfo × Bool)
  | [], info => some (info, true)
  | e :: es, info => do
      let (info, ret) ← extractHashJoinCol e info
      if ret then extractFromOperands es info else some (info, false)

end

end

-- ======== what a join edge is

variable {D : Type}

/-- The output columns of a node, where they are columns of a scan. -/
def RelNode.scanOutputs : RelNode → List (Option (Nat × Nat))
  | .scan i fields => (List.range fields.length).map fun c => some (i, c)
  | .derived _ fields _ => fields.map fun _ => none
  | .compound _ cols _ => cols.map fun _ => none
  | .through _ input => input.scanOutputs
  | .join _ lhs rhs => lhs.scanOutputs ++ rhs.scanOutputs

/-- The column of a scan that an input stands for, if it is one. -/
def Plan.scanColumn (P : Plan) (source index : Nat) : Option (Nat × Nat) :=
  (P.root.find? source).bind fun n => n.scanOutputs[index]?.join

mutual

/-- The top-level conjuncts of a condition. -/
def Rex.conjuncts : Rex D → List (Rex D)
  | .oper .kAND es _ => Rex.conjunctsOf es
  | e => [e]

def Rex.conjunctsOf : List (Rex D) → List (Rex D)
  | [] => []
  | e :: es => e.conjuncts ++ Rex.conjunctsOf es

end

/-- The expression is `x = y`. -/
def Equates (P : Plan) (e : Rex D) (x y : Nat × Nat) : Prop :=
  ∃ s i s' i' ti, e = .oper .kEQ [.input s i, .input s' i'] ti
    ∧ P.scanColumn s i = some x ∧ P.scanColumn s' i' = some y

/-- A top-level conjunct is the equality of two columns of different
scans, in either order. -/
def JoinEquality (P : Plan) (condition : Rex D) (x y : Nat × Nat) : Prop :=
  x.1 ≠ y.1 ∧ ∃ c ∈ condition.conjuncts, Equates P c x y ∨ Equates P c y x

/-- A condition over a plan: its inputs are columns of the plan, and the
tables of the plan are among the scans of the node list. -/
structure JoinCondition (D : Type) where
  plan : Plan
  scans : List ScanId
  condition : Rex D
  scans_nodup : (scans.map ScanId.nodeId).Nodup
  tables_scanned : ∀ t ∈ plan.root.tables, ∃ scan ∈ scans, scan.nodeId = (t : Int)
  inputs_bound : ∀ x ∈ condition.inputs, (plan.columnOf x.1 x.2).isSome = true

namespace JoinCondition

/-- The maps have a join column for the edge between `x` and `y` at the
node of `x`. -/
def Records (c : JoinCondition D) (info : JoinInfo) (x y : Nat × Nat) : Prop :=
  ∃ sx ∈ c.scans, ∃ sy ∈ c.scans, sx.nodeId = (x.1 : Int) ∧ sy.nodeId = (y.1 : Int)
    ∧ ∃ kx ky : Int, sx.key = .ok kx ∧ sy.key = .ok ky
      ∧ ⟨sx.tableId.toNat, x.2, ky.toNat, sy.tableId.toNat, y.2⟩
        ∈ info.nodeJoinColumns kx.toNat

/-- The extraction has a result, with exactly the join equalities for its
edges, and every edge has both its ends. -/
def ExactEdges (c : JoinCondition D) : Prop :=
  ∃ info ret, extractHashJoinCol c.plan c.scans c.condition .empty = some (info, ret)
      ∧ (∀ x y, c.Records info x y ↔ JoinEquality c.plan c.condition x y)
      ∧ info.Mirrored

end JoinCondition

-- ======== what the search meets

section

variable (P : Plan)

/-- The columns of two tables that are the operands. -/
def tablePair (es : List (Rex D)) : Option ((Nat × Nat) × (Nat × Nat)) :=
  match columnPair es with
  | some (lhs, rhs) =>
    if (inputColumn P lhs).1 ≠ (inputColumn P rhs).1 then
      some (inputColumn P lhs, inputColumn P rhs)
    else none
  | none => none

mutual

/-- The column pairs of the operators over two tables, whatever the
operators are, from left to right and in front of the first subquery; and
whether there is no subquery. CASE expressions are not looked into. -/
def tablePairs : Rex D → List ((Nat × Nat) × (Nat × Nat)) × Bool
  | .oper _ es _ =>
    match tablePair P es with
    | some p => ([p], true)
    | none => tablePairsOf es
  | .func _ es _ =>
    match tablePair P es with
    | some p => ([p], true)
    | none => tablePairsOf es
  | .subQuery _ => ([], false)
  | _ => ([], true)

def tablePairsOf : List (Rex D) → List ((Nat × Nat) × (Nat × Nat)) × Bool
  | [] => ([], true)
  | e :: es =>
    if (tablePairs e).2 then
      ((tablePairs e).1 ++ (tablePairsOf es).1, (tablePairsOf es).2)
    else ((tablePairs e).1, false)

end

end

end Compass.PushDown
