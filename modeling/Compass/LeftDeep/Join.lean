/-
`RelLeftDeepInnerJoin` (RelLeftDeepInnerJoin.cpp): a left-deep tree of
joins, with an optional filter on top, flattened into one node.

# The flattening

The joins are collected from the outermost one inwards
(`collect_left_deep_join_inputs`), their inputs from left to right. The
constructor moves the conditions of INNER joins and of the filter into
one conjunction and those of LEFT joins into an array with a place for
each join. A condition that is the literal TRUE is not stored at all.
`getOuterCondition` numbers the places from the innermost join, and
`left_deep_join_types` (RelAlgExecutor.cpp) takes a level for a LEFT join
exactly when there is a condition in its place.

The inputs of the stored conditions still name joins of the tree;
`rebind_inputs_from_left_deep_join` turns them into inputs of the
flattened node, by the prefix sums of the input sizes.

# Failures

`RexLiteral::getVal<bool>` throws on a literal that is no boolean, the
constructor CHECKs that a filter over a stored INNER condition is an
operator, and the rebinding CHECKs that an index is within the inputs.
All three are `none` here.

# Evaluation

What a tree of joins and its flattened node compute.

A relation is the list of its rows, a row the list of its values. The
nested joins are evaluated as the tree says: an INNER join keeps the
pairs whose condition is true, a LEFT join also keeps a left row without
a partner, followed by NULLs. The filter selects from the rows of the
outermost join. The inputs of a condition name the two sides of its join,
and so do those of the filter (`get_node_output` of a join).

The flattened node is evaluated as the executor reads it: one loop per
input, in order, a LEFT level with the outer condition stored for it, an
INNER level without one, and the inner condition on the rows that come
out. Its inputs name the flattened inputs.
-/
import Compass.Lib.NestedLoop
import Compass.PushDown.Rex

namespace Compass.LeftDeep

open Compass.PushDown

-- ======== the tree

inductive JoinType where
  | INNER | LEFT
deriving DecidableEq, Repr

/-- An input that is no join: its id and its number of columns. -/
structure Node where
  id : Nat
  size : Nat
deriving DecidableEq, Repr

/-- A left-deep tree of `RelJoin`s. The right side is never a join. -/
inductive JoinTree (D : Type) where
  | input (node : Node)
  | join (id : Nat) (joinType : JoinType) (condition : Rex D)
      (lhs : JoinTree D) (rhs : Node)

/-- The `RelFilter` on top. -/
structure Filter (D : Type) where
  id : Nat
  condition : Rex D

variable {D : Type}

namespace JoinTree

def id : JoinTree D → Nat
  | .input n => n.id
  | .join i _ _ _ _ => i

/-- `RelJoin::size`. -/
def size : JoinTree D → Nat
  | .input n => n.size
  | .join _ _ _ lhs rhs => lhs.size + rhs.size

end JoinTree

-- ======== collecting

/-- One of `original_joins`. -/
structure OriginalJoin (D : Type) where
  id : Nat
  joinType : JoinType
  condition : Rex D

/-- The inputs of `collect_left_deep_join_inputs`. -/
def JoinTree.inputs : JoinTree D → List Node
  | .input n => [n]
  | .join _ _ _ lhs rhs => lhs.inputs ++ [rhs]

/-- The joins it collects, the outermost first. -/
def JoinTree.originalJoins : JoinTree D → List (OriginalJoin D)
  | .input _ => []
  | .join i ty c lhs _ => ⟨i, ty, c⟩ :: lhs.originalJoins

-- ======== constructor

/-- The condition is the literal TRUE. A literal that is no boolean makes
`getVal<bool>` throw. -/
def conditionTrue : Rex D → Option Bool
  | .literal (.bool b) => some b
  | .literal _ => none
  | _ => some false

/-- `dynamic_cast<const RexOperator*>` and the type of what it finds. -/
def operatorType : Rex D → Option SQLTypeInfo
  | .oper _ _ ti => some ti
  | .func _ _ ti => some ti
  | _ => none

/-- What the loop over the joins accumulates. -/
structure Accumulated (D : Type) where
  operands : List (Rex D)
  isNotnull : Bool
  outerConditionsPerLevel : List (Option (Rex D))

/-- The body of the loop. -/
def Accumulated.add (acc : Accumulated D) (join : OriginalJoin D) :
    Option (Accumulated D) := do
  let isTrue ← conditionTrue join.condition
  if isTrue then
    return { acc with
      outerConditionsPerLevel := acc.outerConditionsPerLevel ++ [none] }
  let isNotnull := match operatorType join.condition with
    | some ti => acc.isNotnull && ti.notnull
    | none => acc.isNotnull
  match join.joinType with
  | .INNER =>
    return { operands := acc.operands ++ [join.condition]
             isNotnull := isNotnull
             outerConditionsPerLevel := acc.outerConditionsPerLevel ++ [none] }
  | .LEFT =>
    return { operands := acc.operands
             isNotnull := isNotnull
             outerConditionsPerLevel :=
               acc.outerConditionsPerLevel ++ [some join.condition] }

/-- `new RexOperator(kAND, operands, ...)`, or the one operand there is. -/
def conjunction (operands : List (Rex D)) (isNotnull : Bool) : Rex D :=
  match operands with
  | [operand] => operand
  | _ => .oper .kAND operands
      { type := .kBOOLEAN, notnull := isNotnull, size := 0 }

/-- The inner condition from the accumulated operands and the filter. -/
def innerCondition (acc : Accumulated D) (filter : Option (Rex D)) :
    Option (Rex D) :=
  if acc.operands.isEmpty then some (filter.getD (.literal (.bool true)))
  else
    match filter with
    | none => some (conjunction acc.operands acc.isNotnull)
    | some condition =>
      match operatorType condition with
      | some ti => some (conjunction (acc.operands ++ [condition])
          (acc.isNotnull && ti.notnull))
      | none => none

/-- `RelLeftDeepInnerJoin`. -/
structure RelLeftDeepInnerJoin (D : Type) where
  condition : Rex D
  originalFilter : Option Nat
  originalJoins : List Nat
  outerConditionsPerLevel : List (Option (Rex D))
  inputs : List Node

/-- Its constructor. -/
def RelLeftDeepInnerJoin.construct (filter : Option (Filter D))
    (inputs : List Node) (joins : List (OriginalJoin D)) :
    Option (RelLeftDeepInnerJoin D) := do
  let acc ← joins.foldlM Accumulated.add
    { operands := [], isNotnull := true, outerConditionsPerLevel := [] }
  let condition ← innerCondition acc (filter.map Filter.condition)
  return { condition := condition
           originalFilter := filter.map Filter.id
           originalJoins := joins.map OriginalJoin.id
           outerConditionsPerLevel := acc.outerConditionsPerLevel
           inputs := inputs }

namespace RelLeftDeepInnerJoin

/-- `coversOriginalNode`. -/
def coversOriginalNode (j : RelLeftDeepInnerJoin D) (source : Nat) : Bool :=
  j.originalFilter == some source || j.originalJoins.contains source

/-- `getOuterCondition` of a level from 1 to the number of joins. -/
def getOuterCondition (j : RelLeftDeepInnerJoin D) (nestingLevel : Nat) :
    Option (Rex D) :=
  (j.outerConditionsPerLevel.getD
    (j.outerConditionsPerLevel.length - nestingLevel) none)

/-- `left_deep_join_types`: the type of each level from 1 on. -/
def leftDeepJoinTypes (j : RelLeftDeepInnerJoin D) : List JoinType :=
  (List.range (j.inputs.length - 1)).map fun l =>
    if (j.getOuterCondition (l + 1)).isSome then .LEFT else .INNER

end RelLeftDeepInnerJoin

-- ======== rebinding

/-- `input_size_prefix_sums_`. -/
def inputSizePrefixSums (inputs : List Node) : List Nat :=
  (List.range inputs.length).map fun k =>
    ((inputs.take (k + 1)).map Node.size).sum

/-- The input that holds a flattened column, and the column there: the
first prefix sum above the index is found by `std::lower_bound`. -/
def locate (inputs : List Node) (index : Nat) : Option (Nat × Nat) := do
  let k ← (inputSizePrefixSums inputs).findIdx? fun sum => decide (index < sum)
  let node ← inputs[k]?
  return (node.id, index - ((inputs.take k).map Node.size).sum)

/-- `RebindRexInputsFromLeftDeepJoin::visitInput`. -/
def rebindInput (j : RelLeftDeepInnerJoin D) (source index : Nat) :
    Option (Rex D) :=
  if j.coversOriginalNode source then
    (locate j.inputs index).map fun p => .input p.1 p.2
  else some (.input source index)

/-- `rebind_inputs_from_left_deep_join`. -/
def rebindInputsFromLeftDeepJoin (j : RelLeftDeepInnerJoin D) (e : Rex D) :
    Option (Rex D) :=
  e.deepCopy (rebindInput j)

/-- The rebinding of a place of the array, if there is a condition. -/
def rebindOuter (j : RelLeftDeepInnerJoin D) :
    Option (Rex D) → Option (Option (Rex D))
  | none => some none
  | some e => (rebindInputsFromLeftDeepJoin j e).map some

/-- `create_left_deep_join`: the node with its conditions rebound. -/
def createLeftDeepJoin (filter : Option (Filter D)) (tree : JoinTree D) :
    Option (RelLeftDeepInnerJoin D) := do
  let j ← RelLeftDeepInnerJoin.construct filter tree.inputs tree.originalJoins
  let outer ← j.outerConditionsPerLevel.mapM (rebindOuter j)
  let condition ← rebindInputsFromLeftDeepJoin j j.condition
  return { j with condition := condition, outerConditionsPerLevel := outer }

end Compass.LeftDeep

namespace Compass.LeftDeep

open Compass.PushDown

variable {D : Type}

abbrev Row (D : Type) := List (Value D)

/-- The rows of every input, by its id. -/
abbrev Database (D : Type) := Nat → List (Row D)

def column (row : Row D) (i : Nat) : Value D := row.getD i .null

/-- A condition holds where it is true, not where it is unknown. -/
def holds (I : Interp D) (col : Nat → Nat → Value D) (e : Rex D) : Bool :=
  decide ((e.evalWith I col).truth = .yes)

/-- A left row without a partner. -/
def nullExtend (rhs : Node) (row : Row D) : Row D :=
  row ++ List.replicate rhs.size .null

-- ======== nested

/-- The columns that a condition of a join of these two sides reads. -/
def joinColumn (lhs : JoinTree D) (rhs : Node) (row : Row D) (source index : Nat) : Value D :=
  if source = lhs.id then column row index
  else if source = rhs.id then column row (lhs.size + index)
  else .null

/-- The rows of a tree of joins. -/
def JoinTree.rows (I : Interp D) (db : Database D) :
    JoinTree D → List (Row D)
  | .input n => db n.id
  | .join _ .INNER c lhs rhs =>
    NestedLoop.innerJoin (· ++ ·)
      (fun row => holds I (joinColumn lhs rhs row) c)
      (lhs.rows I db) (db rhs.id)
  | .join _ .LEFT c lhs rhs =>
    NestedLoop.leftJoin (· ++ ·) (nullExtend rhs)
      (fun row => holds I (joinColumn lhs rhs row) c)
      (lhs.rows I db) (db rhs.id)

/-- The rows that a filter over the tree lets through. -/
def filteredRows (I : Interp D) (db : Database D) (filter : Option (Filter D)) :
    JoinTree D → List (Row D)
  | .input n => db n.id
  | .join i ty c lhs rhs =>
    let rows := (JoinTree.join i ty c lhs rhs).rows I db
    match filter with
    | none => rows
    | some f => rows.filter fun row =>
      holds I (joinColumn lhs rhs row) f.condition

-- ======== flattened

/-- Where the columns of an input start. -/
def offsetOf (inputs : List Node) (source : Nat) : Option Nat :=
  match inputs with
  | [] => none
  | n :: rest =>
    if n.id = source then some 0
    else (offsetOf rest source).map (n.size + ·)

/-- The columns that a condition of the flattened node reads. -/
def flatColumn (inputs : List Node) (row : Row D) (source index : Nat) :
    Value D :=
  match offsetOf inputs source with
  | some o => column row (o + index)
  | none => .null

namespace RelLeftDeepInnerJoin

variable (j : RelLeftDeepInnerJoin D) (I : Interp D) (db : Database D)

/-- The loop of one level. -/
def loopLevel (level : Nat) (rhs : Node) (rows : List (Row D)) :
    List (Row D) :=
  match j.leftDeepJoinTypes.getD (level - 1) .INNER, j.getOuterCondition level with
  | .LEFT, some c =>
    NestedLoop.leftJoin (· ++ ·) (nullExtend rhs)
      (fun row => holds I (flatColumn j.inputs row) c) rows (db rhs.id)
  | _, _ => NestedLoop.innerJoin (· ++ ·) (fun _ => true) rows (db rhs.id)

/-- The loops from a level on, over the inputs that are left. -/
def loops : Nat → List Node → List (Row D) → List (Row D)
  | _, [], rows => rows
  | level, rhs :: rest, rows =>
    loops (level + 1) rest (j.loopLevel I db level rhs rows)

/-- The rows of the flattened node. -/
def rows : List (Row D) :=
  match j.inputs with
  | [] => []
  | first :: rest =>
    (j.loops I db 1 rest (db first.id)).filter fun row =>
      holds I (flatColumn j.inputs row) j.condition

end RelLeftDeepInnerJoin

/-- The types of the joins of a tree, the innermost first. -/
def JoinTree.joinTypes : JoinTree D → List JoinType
  | .input _ => []
  | .join _ ty _ lhs _ => lhs.joinTypes ++ [ty]

-- ======== well-formed

namespace JoinTree

/-- The ids of the inputs and of the joins. -/
def ids : JoinTree D → List Nat
  | .input n => [n.id]
  | .join i _ _ lhs rhs => i :: rhs.id :: lhs.ids

/-- The input is a column of one of the two sides. -/
def InScope (lhs : JoinTree D) (rhs : Node) (p : Nat × Nat) : Prop :=
  (p.1 = lhs.id ∧ p.2 < lhs.size) ∨ (p.1 = rhs.id ∧ p.2 < rhs.size)

/-- Every condition reads columns of the two sides of its join. -/
def Scoped : JoinTree D → Prop
  | .input _ => True
  | .join _ _ c lhs rhs => (∀ p ∈ c.inputs, lhs.InScope rhs p) ∧ lhs.Scoped

end JoinTree

/-- A tree as the binding of inputs leaves it: the nodes are different
objects, and conditions read what their sides have. -/
structure WellFormed (tree : JoinTree D) : Prop where
  nodup : tree.ids.Nodup
  inScope : tree.Scoped

/-- The filter reads columns of the two sides of the outermost join. -/
def Filter.Scoped (f : Filter D) : JoinTree D → Prop
  | .input _ => False
  | .join i ty c lhs rhs => (∀ p ∈ f.condition.inputs, lhs.InScope rhs p)
      ∧ f.id ∉ (JoinTree.join i ty c lhs rhs).ids

/-- Every row of an input has the columns of the input. -/
def Database.Fits (db : Database D) (tree : JoinTree D) : Prop :=
  ∀ n ∈ tree.inputs, ∀ row ∈ db n.id, row.length = n.size

end Compass.LeftDeep
