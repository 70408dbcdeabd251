/-
The composite key of a join-graph node.

Every map of the join ordering (the join graph, the join columns of a
node, the sketches, the sketch complexities, the table indices) is keyed
by one integer per scan, put together from the physical table id and the
id of the scan in the plan: both in decimal, with "88" between them, read
back by `std::stoi`. The expression is repeated at eight places of
FilterPushDownSketch.cpp and RelAlgExecutor.cpp; the node id is the
scan's `getId()` in `extractHashJoinCol` and `pushDownFilterPredicates`,
its position plus one in `evaluateAndPushDown`, and the second component
of `table_id_phy` in `executeRelAlgQueryFPD`.

`std::stoi` throws when the text is above INT_MAX, and nothing on the
way catches it, so a query whose keys are not all defined is lost.

`estimate_join_size` of RelAlgExecutor.cpp.

The estimate of a partial join order is memoised in `bottom_up_table`
under the sorted node keys of the order, printed with a blank after each.
On a miss it is computed from the sketches: two nodes are estimated from
the one column each has for the other, more than two from the per-cell
minimum over all columns a node has for other nodes of the order. Both
ways first overwrite the working array of every sketch involved, and the
sketches live on in `fagms_sketches`, so the whole map is state here.

`base_sketch` is a pointer into the same map: every caller passes
`sketch_instances` of the first node of the order. It is looked up after
the updates, as the pointer sees them. `base_sketch_columns` and
`table_index_infos` are only printed and are left out.
-/
import Compass.Lib.Decimal
import Compass.Sketch.Runtime

namespace Compass.JoinOrder

open Decimal

/-- `std::stoi(std::to_string(tableId) + "88" + std::to_string(nodeId))`. -/
def nodeKey (tableId nodeId : Int) : Except StoiError Int :=
  stoi (toDecimal tableId ++ '8' :: '8' :: toDecimal nodeId)

/-- A scan of a query: the catalog's table id and the id of the node in
the plan, positive 32-bit integers both. -/
structure ScanId where
  tableId : Int
  nodeId : Int
  table_pos : 0 < tableId
  table_le : tableId ≤ intMax
  node_pos : 0 < nodeId
  node_le : nodeId ≤ intMax
deriving DecidableEq

def ScanId.key (s : ScanId) : Except StoiError Int :=
  nodeKey s.tableId s.nodeId

/-- The keys of the scans of a query, in plan order. The first one that
`std::stoi` refuses ends the query. -/
def keysOfQuery (scans : List ScanId) : Except StoiError (List Int) :=
  scans.mapM ScanId.key

end Compass.JoinOrder

namespace Compass.JoinOrder

open Compass.Sketch

/-- One entry of `join_cols_info[node]`: the node's table and column, the
other node, its table and its column. -/
structure JoinCol where
  tableId : Nat
  columnId : Nat
  otherNode : Nat
  otherTableId : Nat
  otherColumnId : Nat
deriving Repr, DecidableEq

abbrev JoinCols := Nat → List JoinCol

structure EstimateState where
  bottomUpTable : List Char → Option ℚ
  fagmsSketches : Nat → FagmsSketch

/-- The memo key: the node keys in ascending order, each with a blank. -/
def joinTables (traversal : List Nat) : List Char :=
  (traversal.mergeSort (· ≤ ·)).flatMap fun n =>
    Nat.toDigits 10 n ++ [' ']

/-- The position of the first join of a node that leads to `other`. -/
def joinIdx (joinNodes : List JoinCol) (other : Nat) : Option Nat :=
  joinNodes.findIdx? fun j => j.otherNode = other

def setSketch (sketches : Nat → FagmsSketch) (node : Nat) (s : FagmsSketch) : Nat → FagmsSketch :=
  Function.update sketches node s

variable (dims : FagmsDims) (joinCols : JoinCols)

/-- `Add_Sketch_Values` of the column that `node` has for `other`, if it
has one; otherwise the working array stays as an earlier estimate left
it. -/
def addJoinColumn (sketches : Nat → FagmsSketch) (node other : Nat) :
    Nat → FagmsSketch :=
  match joinIdx (joinCols node) other with
  | some idx => setSketch sketches node
      ((sketches node).addSketchValues dims idx)
  | none => sketches

/-- `Choose_Sketch_Min_Val` of the column that `node` has for `other`, if
it has one. -/
def chooseJoinColumn (node : Nat) (s : FagmsSketch) (other : Nat) :
    FagmsSketch :=
  match joinIdx (joinCols node) other with
  | some idx => s.chooseSketchMinVal dims idx
  | none => s

/-- The merged sketch of a node: the minimum over its columns for the
nodes of the traversal, taken in the order of the traversal. -/
def mergeColumns (traversal : List Nat) (node : Nat) (s : FagmsSketch) :
    FagmsSketch :=
  (traversal.foldl (chooseJoinColumn dims joinCols node)
    (s.setSketchWithMax dims)).mergeZero dims

/-- The loop over the nodes of the traversal that merges each one's
columns into its working array. -/
def mergeNodeSketches (traversal : List Nat) (sketches : Nat → FagmsSketch) :
    Nat → FagmsSketch :=
  traversal.foldl (fun sketches node => setSketch sketches node
    (mergeColumns dims joinCols traversal node (sketches node))) sketches

def estimateJoinSize (traversal : List Nat) (st : EstimateState) :
    ℚ × EstimateState :=
  let key := joinTables traversal
  match st.bottomUpTable key with
  | some v => (v, st)
  | none =>
    match traversal with
    | [] => (0, st)
    | [_] => (0, st)
    | [n0, n1] =>
      let sketches := addJoinColumn dims joinCols st.fagmsSketches n0 n1
      let sketches := addJoinColumn dims joinCols sketches n1 n0
      let est := (sketches n0).sizeOfJoin dims (sketches n1)
      (est, ⟨Function.update st.bottomUpTable key (some est), sketches⟩)
    | base :: rest =>
      let sketches := mergeNodeSketches dims joinCols (base :: rest)
        st.fagmsSketches
      let est := (sketches base).sizeOfJoins dims (rest.map sketches)
      (est, ⟨Function.update st.bottomUpTable key (some est), sketches⟩)

end Compass.JoinOrder
