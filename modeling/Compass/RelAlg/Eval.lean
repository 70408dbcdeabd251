/-
Relational algebra nodes (RelAlgAbstractInterpreter.h) and the list of
them that the passes of the optimizer rewrite.

Nodes are known by their ids, in place of the addresses the program
compares. A node names its inputs, and a `RexInput` its source, by id; an
input of a join condition, or of a node over a join, names one of the two
sides of the join (`get_node_output`). Output columns of a join are those
of its left side, then those of its right side.

The rows that every node of a plan computes.

A relation is the list of its rows. Scans and value lists read theirs
from the database; the other nodes compute theirs from those of their
inputs. What the logic leaves open is in the engine: the functions and
comparisons of expressions, the aggregates, and the order of the values
of a sort field.

A compound is evaluated as the executor translates it
(RelAlgExecutor.cpp): the filter first, then, where it aggregates, groups
by its first scalar sources, with the operands of an aggregate and the
references of a target taken from the sources as well.
-/
import Compass.Lib.Graph
import Compass.Lib.Grouping
import Compass.LeftDeep.Join

namespace Compass.RelAlg

open Compass.PushDown
open Compass.LeftDeep (JoinType)

-- ======== parts

/-- `SQLAgg` of sqldefs.h. -/
inductive SQLAgg where
  | kAVG | kMIN | kMAX | kSUM | kCOUNT | kAPPROX_COUNT_DISTINCT
  | kFAGMS_SKETCH
deriving DecidableEq, Repr

/-- `RexAgg`: the operands are output columns of the input. -/
structure RexAgg where
  kind : SQLAgg
  isDistinct : Bool
  type : SQLTypeInfo
  operands : List Nat
deriving DecidableEq, Repr

inductive SortDirection where
  | Ascending | Descending
deriving DecidableEq, Repr

inductive NullSortedPosition where
  | First | Last
deriving DecidableEq, Repr

structure SortField where
  field : Nat
  sortDir : SortDirection
  nullsPosition : NullSortedPosition
deriving DecidableEq, Repr

variable {D : Type}

/-- One of the `target_exprs_` of a compound. -/
inductive Target (D : Type) where
  | scalar (e : Rex D)
  | agg (a : RexAgg)

/-- `RelCompound`. -/
structure RelCompound (D : Type) where
  filterExpr : Option (Rex D)
  targetExprs : List (Target D)
  groupbyCount : Nat
  fields : List String
  scalarSources : List (Rex D)
  isAgg : Bool

-- ======== nodes

/-- The classes of nodes, each with its inputs. -/
inductive Body (D : Type) where
  | scan (size : Nat)
  | logicalValues (size : Nat)
  | project (input : Nat) (exprs : List (Rex D)) (fields : List String)
  | filter (input : Nat) (condition : Rex D)
  | aggregate (input : Nat) (groupbyCount : Nat) (aggExprs : List RexAgg)
      (fields : List String)
  | join (joinType : JoinType) (lhs rhs : Nat) (condition : Rex D)
  | sort (input : Nat) (collation : List SortField) (limit offset : Nat)
  | compound (input : Nat) (c : RelCompound D)

structure RelAlgNode (D : Type) where
  id : Nat
  body : Body D

namespace RelAlgNode

/-- The inputs of a node. -/
def inputs (n : RelAlgNode D) : List Nat :=
  match n.body with
  | .scan _ => []
  | .logicalValues _ => []
  | .project input _ _ => [input]
  | .filter input _ => [input]
  | .aggregate input _ _ _ => [input]
  | .join _ lhs rhs _ => [lhs, rhs]
  | .sort input _ _ _ => [input]
  | .compound input _ => [input]

/-- `size`, from the sizes of the inputs. -/
def size (n : RelAlgNode D) (sizes : Nat → Nat) : Nat :=
  match n.body with
  | .scan size => size
  | .logicalValues size => size
  | .project _ exprs _ => exprs.length
  | .filter input _ => sizes input
  | .aggregate _ groupbyCount aggExprs _ => groupbyCount + aggExprs.length
  | .join _ lhs rhs _ => sizes lhs + sizes rhs
  | .sort input _ _ _ => sizes input
  | .compound _ c => c.targetExprs.length

def isScan (n : RelAlgNode D) : Bool :=
  match n.body with
  | .scan _ => true
  | _ => false

def isJoin (n : RelAlgNode D) : Bool :=
  match n.body with
  | .join _ _ _ _ => true
  | _ => false

end RelAlgNode

-- ======== the plan

abbrev Plan (D : Type) := List (RelAlgNode D)

namespace Plan

variable (P : Plan D)

def node? (i : Nat) : Option (RelAlgNode D) :=
  P.find? fun n => decide (n.id = i)

/-- The number of output columns of every node. -/
def sizes : Nat → Nat :=
  Tabulate.tabulate RelAlgNode.id (fun n s => n.size s) (fun _ => 0) P

/-- `build_du_web`: the nodes that have a node among their inputs. -/
def users (i : Nat) : List Nat :=
  (P.filter fun n => n.inputs.contains i).map RelAlgNode.id

/-- The two sides of a node that is a join. -/
def sides (i : Nat) : Option (Nat × Nat) :=
  match P.node? i with
  | some ⟨_, .join _ lhs rhs _⟩ => some (lhs, rhs)
  | _ => none

/-- The two sides of the inner join under a filter. -/
def filterSides (i : Nat) : Option (Nat × Nat) :=
  match P.node? i with
  | some ⟨_, .filter input _⟩ =>
    match P.node? input with
    | some ⟨_, .join .INNER lhs rhs _⟩ => some (lhs, rhs)
    | _ => none
  | _ => none

/-- Nodes come after their inputs. -/
abbrev Ordered : Prop :=
  Tabulate.Ordered RelAlgNode.id RelAlgNode.inputs P

end Plan

end Compass.RelAlg

namespace Compass.RelAlg

open Compass.PushDown
open Compass.LeftDeep (JoinType Row Database column holds)

-- ======== engine

structure Engine (D : Type) extends Interp D where
  aggregate : SQLAgg → Bool → SQLTypeInfo → List (List (Value D)) → Value D
  precedes : SortDirection → NullSortedPosition → Value D → Value D → Bool

variable {D : Type}

-- ======== columns

/-- What an input reads in a row of a join. -/
def sideColumn (sizes : Nat → Nat) (lhs rhs : Nat) (row : Row D) (source index : Nat) : Value D :=
  if source = lhs then column row index
  else if source = rhs then column row (sizes lhs + index)
  else .null

/-- What an input reads in a row of a node's input. A filter over an
inner join goes by its own name or, since it is flattened with the join
before it is executed, by those of the sides. -/
def inputColumn (P : Plan D) (input : Nat) (row : Row D) (source index : Nat) :
    Value D :=
  match P.sides input with
  | some (lhs, rhs) => sideColumn P.sizes lhs rhs row source index
  | none =>
    if source = input then column row index
    else
      match P.filterSides input with
      | some (lhs, rhs) => sideColumn P.sizes lhs rhs row source index
      | none => .null

-- ======== operations

/-- The groups of an aggregation: without keys, all rows are one group. -/
def groupRows [DecidableEq D] {α : Type} (groupbyCount : Nat)
    (key : α → List (Value D)) (rows : List α) :
    List (List (Value D) × List α) :=
  if groupbyCount = 0 then [([], rows)] else Grouping.groups key rows

/-- The value of an aggregate on the rows of a group. -/
def aggValue (E : Engine D) (a : RexAgg) (rows : List (Row D)) : Value D :=
  E.aggregate a.kind a.isDistinct a.type
    (rows.map fun row => a.operands.map (column row))

def aggregateRows [DecidableEq D] (E : Engine D) (groupbyCount : Nat)
    (aggExprs : List RexAgg) (rows : List (Row D)) : List (Row D) :=
  (groupRows groupbyCount (fun row => row.take groupbyCount) rows).map
    fun g => g.1 ++ aggExprs.map fun a => aggValue E a g.2

/-- The row comes before another by the first field that tells them
apart. -/
def sortsBefore (E : Engine D) : List SortField → Row D → Row D → Bool
  | [], _, _ => false
  | f :: fs, r, s =>
    if E.precedes f.sortDir f.nullsPosition (column r f.field) (column s f.field)
      then true
    else if E.precedes f.sortDir f.nullsPosition (column s f.field)
        (column r f.field) then false
    else sortsBefore E fs r s

/-- Sorted, then cut; a limit of 0 is none. -/
def sortRows (E : Engine D) (collation : List SortField) (limit offset : Nat)
    (rows : List (Row D)) : List (Row D) :=
  let sorted := rows.mergeSort fun r s => !sortsBefore E collation s r
  if limit = 0 then sorted.drop offset else (sorted.drop offset).take limit

/-- A target of a compound that aggregates, on a group of source rows. -/
def groupTarget (E : Engine D) (key : List (Value D)) (rows : List (Row D)) :
    Target D → Value D
  | .agg a => aggValue E a rows
  | .scalar (.ref i) => key.getD (i - 1) .null
  | .scalar _ => .null

/-- A target of a compound that does not aggregate, on a row. -/
def rowTarget (E : Engine D) (col : Nat → Nat → Value D) : Target D → Value D
  | .agg _ => .null
  | .scalar e => e.evalWith E.toInterp col

def compoundRows [DecidableEq D] (E : Engine D) (c : RelCompound D)
    (col : Row D → Nat → Nat → Value D) (rows : List (Row D)) : List (Row D) :=
  let kept := match c.filterExpr with
    | some e => rows.filter fun row => holds E.toInterp (col row) e
    | none => rows
  if c.isAgg then
    let sources := kept.map fun row =>
      c.scalarSources.map (·.evalWith E.toInterp (col row))
    (groupRows c.groupbyCount (fun src => src.take c.groupbyCount) sources).map
      fun g => c.targetExprs.map (groupTarget E g.1 g.2)
  else kept.map fun row => c.targetExprs.map (rowTarget E (col row))

-- ======== nodes

/-- The rows of a node, from those of its inputs. -/
def nodeRows [DecidableEq D] (P : Plan D) (E : Engine D) (db : Database D)
    (n : RelAlgNode D) (table : Nat → List (Row D)) : List (Row D) :=
  match n.body with
  | .scan _ => db n.id
  | .logicalValues _ => db n.id
  | .project input exprs _ =>
    (table input).map fun row =>
      exprs.map (·.evalWith E.toInterp (inputColumn P input row))
  | .filter input condition =>
    (table input).filter fun row =>
      holds E.toInterp (inputColumn P input row) condition
  | .aggregate input groupbyCount aggExprs _ =>
    aggregateRows E groupbyCount aggExprs (table input)
  | .join .INNER lhs rhs condition =>
    NestedLoop.innerJoin (· ++ ·)
      (fun row => holds E.toInterp (sideColumn P.sizes lhs rhs row) condition)
      (table lhs) (table rhs)
  | .join .LEFT lhs rhs condition =>
    NestedLoop.leftJoin (· ++ ·)
      (fun row => row ++ List.replicate (P.sizes rhs) .null)
      (fun row => holds E.toInterp (sideColumn P.sizes lhs rhs row) condition)
      (table lhs) (table rhs)
  | .sort input collation limit offset =>
    sortRows E collation limit offset (table input)
  | .compound input c => compoundRows E c (inputColumn P input) (table input)

/-- The rows of every node of the plan. -/
def Plan.rows [DecidableEq D] (P : Plan D) (E : Engine D) (db : Database D) :
    Nat → List (Row D) :=
  Tabulate.tabulate RelAlgNode.id (nodeRows P E db) (fun _ => []) P

-- ======== well-formed

/-- A column of one of two sides. -/
def SideScope (sizes : Nat → Nat) (lhs rhs : Nat) (p : Nat × Nat) : Prop :=
  (p.1 = lhs ∧ p.2 < sizes lhs) ∨ (p.1 = rhs ∧ p.2 < sizes rhs)

/-- A column that an expression over the node can name. -/
def Plan.InScope (P : Plan D) (input : Nat) (p : Nat × Nat) : Prop :=
  match P.sides input with
  | some (lhs, rhs) => SideScope P.sizes lhs rhs p
  | none => p.1 = input ∧ p.2 < P.sizes input

/-- A compound also reads through a filter over an inner join. -/
def Plan.InCompoundScope (P : Plan D) (input : Nat) (p : Nat × Nat) : Prop :=
  P.InScope input p ∨ ∃ lhs rhs, P.filterSides input = some (lhs, rhs)
    ∧ SideScope P.sizes lhs rhs p

/-- What the binding of inputs (`bind_inputs`) makes sure of: inputs name
what they can name, and indices are within the input. -/
def RelAlgNode.Scoped (P : Plan D) (n : RelAlgNode D) : Prop :=
  match n.body with
  | .scan _ => True
  | .logicalValues _ => True
  | .project input exprs _ => ∀ e ∈ exprs, ∀ p ∈ e.inputs, P.InScope input p
  | .filter input condition => ∀ p ∈ condition.inputs, P.InScope input p
  | .aggregate input groupbyCount aggExprs _ => groupbyCount ≤ P.sizes input
      ∧ ∀ a ∈ aggExprs, ∀ i ∈ a.operands, i < P.sizes input
  | .join _ lhs rhs condition => lhs ≠ rhs
      ∧ ∀ p ∈ condition.inputs, P.InScope n.id p
  | .sort input collation _ _ => ∀ f ∈ collation, f.field < P.sizes input
  | .compound input c =>
    (∀ e ∈ c.filterExpr, ∀ p ∈ e.inputs, P.InCompoundScope input p)
      ∧ (∀ e ∈ c.scalarSources, ∀ p ∈ e.inputs, P.InCompoundScope input p)
      ∧ ∀ e, .scalar e ∈ c.targetExprs → ∀ p ∈ e.inputs, P.InCompoundScope input p

structure Plan.WellFormed (P : Plan D) : Prop where
  ordered : P.Ordered
  inScope : ∀ n ∈ P, n.Scoped P
  nonempty : ∀ n ∈ P, 0 < P.sizes n.id

/-- Every row of a scan or a value list has its columns. -/
def Plan.Fits (P : Plan D) (db : Database D) : Prop :=
  ∀ n ∈ P, n.inputs = [] → ∀ row ∈ db n.id, row.length = P.sizes n.id

end Compass.RelAlg
