/-
`exclude_sparse_sketches` of RelAlgExecutor.cpp.

A join edge is dropped from the working graph when the sketch of one of
its columns has too few non-zero buckets, and a node is dropped when all
its edges are. The maps are changed in place while they are being read:
the join list of a node is copied before the loop and erased from
afterwards, with the positions of the copy; `operator[]` brings an erased
key back with an empty value.

Vectors are erased by position without a check. A position outside the
vector is undefined behaviour, and the model has no value there: the
stages return `none`.

Join graphs with their column pairs, and what an exclusion should leave of
them.

A pair of nodes may be joined on several columns; every pair of columns is
in the lists of both nodes. The exclusion drops edges whole. It works by
positions, and a position is right only as long as a node loses at most
one join in its turn, and no other join of the same two nodes is left
behind; `SafeTurn` says so of a turn, `SafeRun` of all of them.

`get_node_input_permutation` of RelAlgExecutor.cpp and the nest levels
made from it.

The stages are those of the source: sparse sketches are excluded from a
working copy of the join connections and from the join graph itself; the
base node is the one with the largest complexity that is left; the
enumeration runs once from there, with a bound of one traversal
(`bound_limits = {1}`); the excluded nodes are put back into a copy of the
plan, which is printed and then overwritten with the plan of the
enumeration; that plan is adjusted against the initial graph and mapped to
input positions.

What the model leaves out is printed only: the table names and sizes, the
timings, the re-estimation of the chosen plan, and the two-way minimum of
the base search, whose every outcome is followed by the same assignment
to `temp_node`. The estimator, its memo reset and the sorts are
parameters.

`none` stands for undefined behaviour: an erase outside a vector, the
first element of an empty traversal, a node without an index entry; and
for the loop over the excluded nodes when it never ends.
-/
import Compass.JoinOrder.Estimate
import Compass.JoinOrder.Traversal

namespace Compass.JoinOrder

open Compass.Sketch

-- ======== containers in place

/-- `v.erase(v.begin() + i)`. -/
def eraseAt {β : Type} (v : List β) (i : Nat) : Option (List β) :=
  if i < v.length then some (v.eraseIdx i) else none

namespace Graph

/-- `graph[n].erase(m)`: the key is created when it is missing. -/
def eraseEdge (g : Graph) (n m : Nat) : Graph :=
  { nodes := insert n g.nodes
    adj := Function.update g.adj n
      (if n ∈ g.nodes then (g.adj n).erase m else ∅) }

/-- `graph.erase(n)`. -/
def eraseNode (g : Graph) (n : Nat) : Graph :=
  { g with nodes := g.nodes.erase n }

end Graph

structure Exclusion where
  joinGraph : Graph
  joinConnections : JoinCols
  /-- `excluded_edges`; `none` for a key that is not there. -/
  excludedEdges : Nat → Option (Finset Nat)
  excludedNodes : Finset Nat

namespace Exclusion

/-- `excluded_edges[n].emplace(m)`. -/
def addEdge (x : Exclusion) (n m : Nat) : Exclusion :=
  { x with
    excludedEdges := Function.update x.excludedEdges n
      (some (insert m ((x.excludedEdges n).getD ∅))) }

/-- The node has no edge left: it leaves both maps. -/
def dropNode (x : Exclusion) (n : Nat) : Exclusion :=
  { x with excludedNodes := insert n x.excludedNodes
           joinGraph := x.joinGraph.eraseNode n
           joinConnections := Function.update x.joinConnections n [] }

/-- Whether the sketch has as many columns as `n` has excluded edges. -/
def allEdgesExcluded (x : Exclusion) (keysNo n : Nat) : Bool :=
  match x.excludedEdges n with
  | some edges => keysNo = edges.card
  | none => false

end Exclusion

-- ======== exclusion

/-- `other_column_id_idx`: the first join that leads back to `node`, or
the last join of the list when none does. -/
def otherColumnIdx (node : Nat) (otherJoins : List JoinCol) : Option Nat :=
  match otherJoins.findIdx? fun j => j.otherNode = node with
  | some i => some i
  | none => if otherJoins = [] then none else some (otherJoins.length - 1)

variable (dims : FagmsDims) (sketches : Nat → FagmsSketch)
variable (sketchSparsityBound : Nat)

/-- The body of the loop over the joins of `node`, at join number `idx`:
the edge is dropped when the column's sketch is sparse. -/
def excludeJoin (node : Nat) (acc : Exclusion × List Nat)
    (join : JoinCol × Nat) : Option (Exclusion × List Nat) := do
  let (x, joinIndices) := acc
  let (j, idx) := join
  if (sketches node).maxNonZeroBuckets dims idx < sketchSparsityBound then
    let other := j.otherNode
    let otherIdx ← otherColumnIdx node (x.joinConnections other)
    let x := (x.addEdge node other).addEdge other node
    let otherJoins ← eraseAt (x.joinConnections other) otherIdx
    let x : Exclusion := { x with
      joinConnections := Function.update x.joinConnections other otherJoins
      joinGraph := (x.joinGraph.eraseEdge node other).eraseEdge other node }
    let x := if x.allEdgesExcluded (sketches other).keysNo other then
      x.dropNode other else x
    return (x, joinIndices ++ [idx])
  else return (x, joinIndices)

/-- One node of `sketch_complexities`. -/
def excludeNode (x : Exclusion) (node : Nat) : Option Exclusion :=
  if node ∈ x.excludedNodes then some x
  else do
    let (x, joinIndices) ← (x.joinConnections node).zipIdx.foldlM
      (excludeJoin dims sketches sketchSparsityBound node) (x, [])
    let joins ← joinIndices.foldlM eraseAt (x.joinConnections node)
    let x := { x with
      joinConnections := Function.update x.joinConnections node joins }
    return if x.allEdgesExcluded (sketches node).keysNo node then
      x.dropNode node else x

/-- An excluded node moves from the complexities to the excluded ones.
When it is not among them, the last entry is erased instead. -/
def moveExcluded (acc : List (Nat × Nat) × List (Nat × Nat)) (node : Nat) :
    Option (List (Nat × Nat) × List (Nat × Nat)) := do
  let (complexities, excluded) := acc
  match complexities.findIdx? fun c => c.1 = node with
  | some i => do
      let rest ← eraseAt complexities i
      return (rest, excluded ++ complexities[i]?.toList)
  | none => do
      let rest ← eraseAt complexities (complexities.length - 1)
      return (rest, excluded)

/-- The comparison of the complexity sorts: `left.second < right.second`. -/
def byComplexity (left right : Nat × Nat) : Prop :=
  left.2 ≤ right.2

instance : DecidableRel byComplexity :=
  fun x y => inferInstanceAs (Decidable (x.2 ≤ y.2))

instance : Std.Total byComplexity := ⟨fun x y => le_total x.2 y.2⟩

instance : IsTrans (Nat × Nat) byComplexity :=
  ⟨fun _ _ _ hxy hyz => le_trans (α := Nat) hxy hyz⟩

structure Excluded where
  exclusion : Exclusion
  sketchComplexities : List (Nat × Nat)
  excludedNodes : List (Nat × Nat)

def excludeSparseSketches (sort : StdSort (Nat × Nat) byComplexity)
    (sketchComplexities : List (Nat × Nat)) (joinGraph : Graph)
    (joinConnections : JoinCols) : Option Excluded := do
  let x ← (sketchComplexities.map Prod.fst).foldlM
    (excludeNode dims sketches sketchSparsityBound)
    ⟨joinGraph, joinConnections, fun _ => none, ∅⟩
  let (complexities, excluded) ←
    (StdSort.ascending x.excludedNodes).foldlM moveExcluded
      (sketchComplexities, [])
  return ⟨x, complexities, sort.run excluded⟩

end Compass.JoinOrder

namespace Compass.JoinOrder

open Compass.Sketch

/-- The same join, seen from the other node. -/
def JoinCol.flip (j : JoinCol) (node : Nat) : JoinCol :=
  ⟨j.otherTableId, j.otherColumnId, node, j.tableId, j.columnId⟩

/-- The joins of a list with one node. -/
def joinsWith (joins : List JoinCol) (other : Nat) : List JoinCol :=
  joins.filter fun j => j.otherNode = other

/-- The graph and the lists say the same, from both sides. -/
structure Coherent (g : Graph) (cols : JoinCols) : Prop where
  nodes : ∀ n, cols n ≠ [] → n ∈ g.nodes
  adj : ∀ n ∈ g.nodes, ∀ m, m ∈ g.adj n ↔ ∃ j ∈ cols n, j.otherNode = m
  loopless : ∀ n, ∀ j ∈ cols n, j.otherNode ≠ n
  symm : ∀ n m, ((joinsWith (cols n) m).map fun j => j.flip n).Perm (joinsWith (cols m) n)

/-- The neighbours that a node has lost. -/
def Exclusion.excludedFrom (x : Exclusion) (n : Nat) : Finset Nat :=
  (x.excludedEdges n).getD ∅

-- ======== turns

variable (dims : FagmsDims) (sketches : Nat → FagmsSketch) (sketchSparsityBound : Nat)

/-- The joins that a node drops in its turn, with their positions. -/
def sparseJoins (x : Exclusion) (node : Nat) : List (JoinCol × Nat) :=
  (x.joinConnections node).zipIdx.filter fun join =>
    (sketches node).maxNonZeroBuckets dims join.2 < sketchSparsityBound

/-- At most one join is dropped, and it is the only one with its node. -/
def SafeTurn (x : Exclusion) (node : Nat) : Prop :=
  node ∈ x.excludedNodes ∨ (sparseJoins dims sketches sketchSparsityBound x node).length ≤ 1
    ∧ ∀ join ∈ sparseJoins dims sketches sketchSparsityBound x node,
      (joinsWith (x.joinConnections node) join.1.otherNode).length = 1

/-- All turns of the loop over the nodes are safe. -/
def SafeRun (x : Exclusion) : List Nat → Prop
  | [] => True
  | node :: nodes =>
    SafeTurn dims sketches sketchSparsityBound x node
      ∧ ∀ x', excludeNode dims sketches sketchSparsityBound x node = some x' →
        SafeRun x' nodes

instance (x : Exclusion) (node : Nat) :
    Decidable (SafeTurn dims sketches sketchSparsityBound x node) :=
  inferInstanceAs (Decidable (_ ∨ _))

instance decidableSafeRun (nodes : List Nat) :
    ∀ x, Decidable (SafeRun dims sketches sketchSparsityBound x nodes) :=
  match nodes with
  | [] => fun _ => .isTrue True.intro
  | node :: nodes => fun x =>
    match h : excludeNode dims sketches sketchSparsityBound x node with
    | none =>
      decidable_of_iff (SafeTurn dims sketches sketchSparsityBound x node)
        ⟨fun hsafe => ⟨hsafe, fun x' hx' => by rw [h] at hx'; cases hx'⟩, fun hrun => hrun.1⟩
    | some x₁ =>
      have := decidableSafeRun nodes x₁
      decidable_of_iff (SafeTurn dims sketches sketchSparsityBound x node
          ∧ SafeRun dims sketches sketchSparsityBound x₁ nodes)
        ⟨fun hsafe => ⟨hsafe.1, fun x' hx' => by
            rw [h, Option.some.injEq] at hx'
            exact hx' ▸ hsafe.2⟩,
          fun hrun => ⟨hrun.1, hrun.2 x₁ h⟩⟩

/-- What is left: the edges that were not excluded, with all their column
pairs, between the nodes that have one. -/
structure Remaining (g : Graph) (cols : JoinCols) (complexities : List (Nat × Nat))
    (r : Excluded) : Prop where
  coherent : Coherent r.exclusion.joinGraph r.exclusion.joinConnections
  joins : ∀ n, r.exclusion.joinConnections n
    = (cols n).filter fun j => j.otherNode ∉ r.exclusion.excludedFrom n
  edges : ∀ n m, m ∈ r.exclusion.excludedFrom n ↔ n ∈ r.exclusion.excludedFrom m
  nodes : r.exclusion.joinGraph.nodes = g.nodes \ r.exclusion.excludedNodes
  adj : ∀ n ∈ r.exclusion.joinGraph.nodes,
    r.exclusion.joinGraph.adj n = g.adj n \ r.exclusion.excludedFrom n
  /-- A node is excluded when it has lost an edge and has none left. -/
  dropped : ∀ n, n ∈ r.exclusion.excludedNodes
    ↔ r.exclusion.excludedFrom n ≠ ∅ ∧ r.exclusion.joinConnections n = []
  once : (r.excludedNodes.map Prod.fst).Nodup
  listed : ∀ c, c ∈ r.excludedNodes ↔ c ∈ complexities ∧ c.1 ∈ r.exclusion.excludedNodes
  all : ∀ n ∈ r.exclusion.excludedNodes, n ∈ r.excludedNodes.map Prod.fst
  rest : ∀ c, c ∈ r.sketchComplexities ↔ c ∈ complexities ∧ c.1 ∉ r.exclusion.excludedNodes

end Compass.JoinOrder

namespace Compass.JoinOrder

open Compass.Sketch

structure PlanInput where
  /-- `getNumTuples()` of every input table. -/
  tableInfos : List Nat
  /-- Node key to table id and input position. -/
  tableIndexInfos : Nat → Option (Nat × Nat)
  sketchComplexities : List (Nat × Nat)
  joinGraph : Graph
  sketchInstances : Nat → FagmsSketch
  joinKeys : Finset Nat
  joinConnections : JoinCols

/-- `left.second > right.second`. -/
def byLargest (left right : Nat × Nat) : Prop :=
  right.2 ≤ left.2

/-- The comparison of the branch without push-down: larger tables
first. -/
def byTuples (tableInfos : List Nat) (lhs rhs : Nat) : Prop :=
  tableInfos.getD rhs 0 ≤ tableInfos.getD lhs 0

/-- The sorts of the function, each any implementation of `std::sort`. -/
structure Sorts (α : Type) [LinearOrder α] (tableInfos : List Nat) where
  candidates : StdSort (Nat × α) bySize
  complexity : StdSort (Nat × Nat) byComplexity
  largest : StdSort (Nat × Nat) byLargest
  tuples : StdSort Nat (byTuples tableInfos)

/-- A join-size estimator: its values, and the reset of its memo. -/
structure Estimator (σ α : Type) where
  estimate : List Nat → σ → α × σ
  clear : σ → σ

/-- The loop that puts the excluded nodes back: round and round over the
list, each node before the first plan node that joins it. -/
def reinsertExcluded (joinConnections : JoinCols) (excluded : List Nat) :
    (fuel pos : Nat) → (added : Finset Nat) → (plan : List Nat) →
    Option (List Nat)
  | 0, _, _, _ => none
  | fuel + 1, pos, added, plan =>
    if excluded.length = added.card then some plan
    else
      let pos := if pos = excluded.length then 0 else pos
      match excluded[pos]? with
      | none => none
      | some ex =>
        if ex ∈ added then
          reinsertExcluded joinConnections excluded fuel (pos + 1)
            added plan
        else
          match plan.findIdx? fun node =>
              (joinConnections node).any fun j => j.otherNode = ex with
          | some i => reinsertExcluded joinConnections excluded fuel
              (pos + 1) (insert ex added) (plan.insertIdx i ex)
          | none => reinsertExcluded joinConnections excluded fuel
              (pos + 1) added plan

/-- A round over the excluded nodes that adds none of them is repeated
for ever, so as many rounds as there are nodes are enough. -/
def reinsertFuel (excluded : List Nat) : Nat :=
  (excluded.length + 1) * (excluded.length + 1)

variable {σ α : Type} [LinearOrder α] [AddZeroClass α]
variable (dims : FagmsDims) (sketchSparsityBound : Nat)
variable (est : Estimator σ α) (dblMax : α) (inp : PlanInput)
variable (sorts : Sorts α inp.tableInfos)

/-- The exclusion, on the complexities in ascending order. -/
def excludedInput : Option Excluded :=
  excludeSparseSketches dims inp.sketchInstances sketchSparsityBound
    sorts.complexity (sorts.complexity.run inp.sketchComplexities)
    inp.joinGraph inp.joinConnections

/-- The base of the enumeration: the largest complexity that is left. -/
def baseNode (x : Excluded) : Option Nat :=
  (sorts.largest.run x.sketchComplexities).head?.map Prod.fst

/-- The two-way estimates of the base, taken before the memo is reset. -/
def prepareBase (base : Nat) (s : σ) : σ :=
  est.clear ((inp.joinConnections base).foldl (fun s j =>
    (est.estimate [base, j.otherNode] s).2) s)

def getNodeInputPermutation (s : σ) : Option (List Nat) :=
  if inp.joinKeys = ∅ then
    some (sorts.tuples.run (List.range inp.tableInfos.length))
  else do
    let x ← excludedInput dims sketchSparsityBound inp sorts
    let base ← baseNode inp sorts x
    let e := enumerate x.exclusion.joinGraph est.estimate sorts.candidates 1
      dblMax base (prepareBase est inp base s)
    if e.optimalTraversal = [] then none
    else do
      let _ ← reinsertExcluded inp.joinConnections
        (x.excludedNodes.map Prod.fst)
        (reinsertFuel (x.excludedNodes.map Prod.fst)) 0 ∅ e.optimalTraversal
      let plan ← adjustPlanForMapD inp.joinGraph e.optimalTraversal
      plan.mapM fun node => (inp.tableIndexInfos node).map Prod.snd

-- ======== nest levels

/-- One input of `get_input_nest_levels`; its `CHECK` refuses an input
that already has a level. -/
def addNestLevel (inputPermutation : List Nat) (levels : List (Nat × Nat)) (inputIdx : Nat) :
    Option (List (Nat × Nat)) := do
  let node ← if inputPermutation = [] then some inputIdx
    else inputPermutation[inputIdx]?
  if node ∈ levels.map Prod.fst then none
  else some (levels ++ [(node, inputIdx)])

/-- `get_input_nest_levels`: the level of every input, by its position
in the permutation. -/
def getInputNestLevels (inputCount : Nat) (inputPermutation : List Nat) :
    Option (List (Nat × Nat)) :=
  (List.range inputCount).foldlM (addNestLevel inputPermutation) []

end Compass.JoinOrder
