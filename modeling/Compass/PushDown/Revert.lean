/-
The push-down that is taken back (`evaluateAndPushDown`,
`makeAndInsertCompound`, FilterPushDownSketch.cpp; `RelJoin::replaceInput`,
RelAlgAbstractInterpreter.cpp).

To try a filter on a scan, the filter goes into the node vector behind the
scan and between the scan and a join, a compound takes the filter's place,
and the compound is executed. When too many rows are left, or none, the
compound is taken out again. Nodes are known by their ids; the vector has
for each node what these steps read and change. A join rebinds the inputs
of its condition when an input of its own is replaced.

Executing the compound records its complexity, but not if its filter is a
`rowid` lookup; the way back then looks for an entry of the scan, and
writes at the last place when there is none. `none` is a failed CHECK or a
memory access that is undefined.
-/
import Compass.JoinOrder.Estimate
import Compass.PushDown.Rex

namespace Compass.PushDown

open JoinOrder (nodeKey)

variable {D : Type}

-- ======== rebinding

mutual

/-- `RexRebindInputsVisitor`. -/
def Rex.rebind (old new : Nat) : Rex D → Rex D
  | .input source index => .input (if source = old then new else source) index
  | .literal v => .literal v
  | .func name es ti => .func name (Rex.rebindAll old new es) ti
  | .oper op es ti => .oper op (Rex.rebindAll old new es) ti
  | .case bs els => .case (Rex.rebindBranches old new bs) (els.rebind old new)
  | .ref i => .ref i
  | .subQuery q => .subQuery q

def Rex.rebindAll (old new : Nat) : List (Rex D) → List (Rex D)
  | [] => []
  | e :: es => e.rebind old new :: Rex.rebindAll old new es

def Rex.rebindBranches (old new : Nat) : List (Rex D × Rex D) → List (Rex D × Rex D)
  | [] => []
  | (w, t) :: bs => (w.rebind old new, t.rebind old new) :: Rex.rebindBranches old new bs

end

-- ======== nodes

structure JoinNode (D : Type) where
  id : Nat
  lhs : Nat
  rhs : Nat
  condition : Option (Rex D)

inductive PlanNode (D : Type) where
  | scan (id tableId : Nat)
  | join (j : JoinNode D)
  | filter (id input : Nat) (condition : Rex D)
  | compound (id input : Nat) (filter : Rex D) (cols : List ColInfo)
  /-- A node that no step here reads or changes. -/
  | other (id : Nat) (inputs : List Nat)

def PlanNode.isJoin : PlanNode D → Bool
  | .join _ => true
  | _ => false

/-- `getAndOwnInput`. -/
def JoinNode.input (j : JoinNode D) (inputIdx : Nat) : Nat :=
  if inputIdx = 0 then j.lhs else j.rhs

/-- `RelJoin::replaceInput`: the first of the inputs that is the old one, and
all inputs of the condition. -/
def JoinNode.replaceInput (old new : Nat) (j : JoinNode D) : JoinNode D :=
  { j with
    lhs := if j.lhs = old then new else j.lhs
    rhs := if j.lhs ≠ old ∧ j.rhs = old then new else j.rhs
    condition := j.condition.map (Rex.rebind old new) }

def joinAt (nodes : List (PlanNode D)) (i : Nat) : Option (JoinNode D) :=
  match nodes[i]? with
  | some (.join j) => some j
  | _ => none

-- ======== the insertion

/-- `dist` and `input_idx`. -/
def findOutput (nodes : List (PlanNode D)) (i : Nat) : Option (Nat × Nat) :=
  match nodes[i + 1]? with
  -- the current node is the left input of the next join
  | some (.scan _ _) => ((nodes.drop (i + 2)).findIdx? PlanNode.isJoin).map fun k => (k + 2, 0)
  -- the current node is the right input of the next join
  | some (.join _) => some (1, 1)
  | _ => none

def makeAndInsertCompound (nodes : List (PlanNode D)) (filterIdx outputIdx compoundId : Nat)
    (colsToProject : List ColInfo) : Option (List (PlanNode D)) :=
  match nodes[filterIdx]? with
  | some (.filter id input condition) => do
      let j ← joinAt nodes outputIdx
      let nodes := nodes.set outputIdx (.join (j.replaceInput id compoundId))
      some ((nodes.eraseIdx filterIdx).insertIdx filterIdx
        (.compound compoundId input condition colsToProject))
  | _ => none

/-- The vector with the compound, and what the way back knows. -/
structure Inserted (D : Type) where
  nodes : List (PlanNode D)
  dist : Nat
  inputIdx : Nat
  oldInput : Nat

/-- The steps up to the execution, for the scan at position `i`. -/
def insertOver (nodes : List (PlanNode D)) (i scanId filterId compoundId : Nat)
    (filterExprNew : Rex D) (colsToProject : List ColInfo) : Option (Inserted D) := do
  let (dist, inputIdx) ← findOutput nodes i
  let j ← joinAt nodes (i + dist)
  let oldInput := j.input inputIdx
  let nodes := nodes.set (i + dist) (.join (j.replaceInput oldInput filterId))
  let nodes := nodes.insertIdx (i + 1) (.filter filterId scanId filterExprNew)
  let nodes ← makeAndInsertCompound nodes (i + 1) (i + dist + 1) compoundId colsToProject
  some ⟨nodes, dist + 1, inputIdx, oldInput⟩

-- ======== the execution

/-- What executing the compound finds. -/
structure Execution where
  /-- `isRowidLookup` -/
  rowidLookup : Bool
  /-- `getNumColsToUpdate` -/
  noColumns : Nat
  /-- `filter_count_all` -/
  filterCountAll : Int
  fpdMaxCount : Int
  /-- The rows of the result. -/
  rowCount : Nat

/-- A value of type `unsigned int`. -/
def complexityOf (x : Int) : Nat := (x % 2 ^ 32).toNat

/-- `executeFilterAndEvaluate`: the complexities recorded, and the number of
rows, or -1 for too many. -/
def executeFilterAndEvaluate (e : Execution) (nodeValue : Int) (complexity : List (Int × Nat)) :
    List (Int × Nat) × Int :=
  if e.rowidLookup then (complexity, e.rowCount)
  else
    let complexity := complexity ++ [(nodeValue, complexityOf (e.noColumns * e.filterCountAll))]
    if e.fpdMaxCount < e.filterCountAll then (complexity, -1) else (complexity, e.rowCount)

-- ======== the undo

/-- The node vector taken back. -/
def removeCompound (ins : Inserted D) (i : Nat) : Option (List (PlanNode D)) := do
  let j ← joinAt ins.nodes (i + ins.dist)
  let nodeToErase := j.input ins.inputIdx
  let nodes := ins.nodes.set (i + ins.dist) (.join (j.replaceInput nodeToErase ins.oldInput))
  some (nodes.eraseIdx (i + 1))

/-- The loop that looks for the entry of a node: `idx_val`, which is the last
index if there is none. -/
def findEntry (nodeValue : Int) : (idxVal : Int) → List (Int × Nat) → Int
  | idxVal, [] => idxVal
  | idxVal, it :: rest =>
    if it.1 = nodeValue then idxVal + 1 else findEntry nodeValue (idxVal + 1) rest

/-- What the steps read and change. -/
structure RunState (D : Type) where
  nodes : List (PlanNode D)
  /-- `getSketchComplexity` -/
  complexity : List (Int × Nat)
  /-- `getJoinGraph`, the sizes of its sets -/
  joinGraph : Int → Option Nat

/-- The way back. -/
def revert (st : RunState D) (ins : Inserted D) (i : Nat) (nodeValue : Int) (tableSize : Nat) :
    Option (RunState D) := do
  let nodes ← removeCompound ins i
  let noColumns ← st.joinGraph nodeValue
  let idxVal := findEntry nodeValue (-1) st.complexity
  if 0 ≤ idxVal then
    some { st with
      nodes
      complexity :=
        st.complexity.set idxVal.toNat (nodeValue, complexityOf (noColumns * tableSize)) }
  else none

/-- A scan that is tried, with the new nodes over it and what the execution
finds. -/
structure Attempt (D : Type) where
  i : Nat
  scanId : Nat
  tableId : Nat
  tableSize : Nat
  filterId : Nat
  compoundId : Nat
  filterExprNew : Rex D
  colsToProject : List ColInfo
  execution : Execution

/-- The turn of the loop for a scan whose push-down is taken back; `none` if
it is not. -/
def revertedTurn (st : RunState D) (a : Attempt D) : Option (RunState D) := do
  let ins ← insertOver st.nodes a.i a.scanId a.filterId a.compoundId a.filterExprNew
    a.colsToProject
  let nodeValue ← (nodeKey a.tableId a.scanId).toOption
  let (complexity, numTuplesFiltered) :=
    executeFilterAndEvaluate a.execution nodeValue st.complexity
  if 0 < numTuplesFiltered then none
  else revert { st with nodes := ins.nodes, complexity } ins a.i nodeValue a.tableSize

-- ======== what it should leave

/-- The sources of the inputs of an expression. -/
def Rex.sources (e : Rex D) : List Nat := e.inputs.map Prod.fst

/-- The ids that a node has or names, in the condition of a join too. -/
def PlanNode.mentions : PlanNode D → List Nat
  | .scan id _ => [id]
  | .join j => j.id :: j.lhs :: j.rhs :: (j.condition.elim [] Rex.sources)
  | .filter id input _ => [id, input]
  | .compound id input _ _ => [id, input]
  | .other id inputs => id :: inputs

/-- The new nodes of an attempt are new, and the scan is where it should be. -/
structure Attempt.Sound (a : Attempt D) (nodes : List (PlanNode D)) : Prop where
  scan : nodes[a.i]? = some (.scan a.scanId a.tableId)
  filter_new : ∀ n ∈ nodes, a.filterId ∉ n.mentions
  compound_new : ∀ n ∈ nodes, a.compoundId ∉ n.mentions
  ne : a.filterId ≠ a.compoundId

/-- The compound is put in and its push-down is not carried out. -/
structure Attempt.Reverted (a : Attempt D) (st : RunState D) (nodeValue : Int) : Prop where
  key : nodeKey a.tableId a.scanId = .ok nodeValue
  inserted : (insertOver st.nodes a.i a.scanId a.filterId a.compoundId a.filterExprNew
    a.colsToProject).isSome
  refused : (executeFilterAndEvaluate a.execution nodeValue st.complexity).2 ≤ 0

/-- The nodes are as before, and so are the complexities of other scans. -/
structure Restores (before after : RunState D) (nodeValue : Int) (value : Nat) : Prop where
  nodes : after.nodes = before.nodes
  others : after.complexity.filter (·.1 ≠ nodeValue) = before.complexity.filter (·.1 ≠ nodeValue)
  own : (nodeValue, value) ∈ after.complexity

/-- The turn leaves everything as it was but for the complexity of the scan. -/
def Attempt.TakenBack (a : Attempt D) (st : RunState D) (nodeValue : Int) : Prop :=
  ∃ after noColumns, revertedTurn st a = some after ∧ st.joinGraph nodeValue = some noColumns ∧
    Restores st after nodeValue (complexityOf (noColumns * a.tableSize))

/-- When it does: the join, if it is the next node, has two different inputs;
the scan is in the join graph; and its complexity is recorded, now or
before. -/
def Attempt.CanBeTakenBack (a : Attempt D) (st : RunState D) (nodeValue : Int) : Prop :=
  (∀ j, st.nodes[a.i + 1]? = some (.join j) → j.lhs ≠ j.rhs) ∧
    (st.joinGraph nodeValue).isSome ∧
    (a.execution.rowidLookup = false ∨ nodeValue ∈ st.complexity.map Prod.fst)

end Compass.PushDown
