/-
`get_distinct_graph_traversals` of RelAlgExecutor.cpp: the depth-first
enumeration of join orders.

Everything the recursion passes by reference is one record here: the
stack of joined nodes, the set of visited nodes, the traversals found so
far, the best one with its cost, the number of complete traversals, and
the state of the estimator (its memo and the sketches). What is passed by
value, `all_adjacent_nodes` and the running sum, are arguments.

The estimator is a parameter: any function from a partial order and a
state to a value and a new state. `estimate_join_size` is one. Sums are
taken in any type with an addition and a linear order, `double` among
them. `std::sort` may put candidates with equal estimates in any order,
so the sort is a parameter as well.

The recursion gets deeper with every node it joins and returns when the
stack is as long as the graph is large, so the size of the graph is
enough fuel.

`adjustPlanForMapD` of RelAlgExecutor.cpp: leaves of the join graph are
kept in place, and the nodes behind the last leaf are moved next to the
latest neighbour they have in the plan.

The first loop walks over the plan and may swap its first two nodes on
the way, when a leaf comes before its only neighbour; what it remembers is
the position behind the last leaf. `last_leaf_idx` starts at the largest
unsigned value and one is added to it afterwards, so a plan without a
leaf has `cut` zero. The second loop rebuilds the plan from the nodes
before the cut. A node behind the cut that has no neighbour in the new
plan is not inserted at all.

Looking up a node that is not in the graph, or swapping in a plan of one
node, is undefined behaviour: `none` here.
-/
import Mathlib.Algebra.Order.Field.Rat
import Compass.Lib.Graph
import Compass.Lib.Sorting

namespace Compass.JoinOrder

/-- `std::unordered_map<size_t, std::set<size_t>>`. -/
structure Graph where
  nodes : Finset Nat
  adj : Nat → Finset Nat

def Graph.size (g : Graph) : Nat :=
  g.nodes.card

structure Enumeration (σ α : Type) where
  traversalNodes : List Nat
  visitedNodes : Finset Nat
  traversals : List (List Nat)
  optimalTraversal : List Nat
  minJoinSizeEstimation : α
  traverseBound : Nat
  estimator : σ

variable {σ α : Type} [LinearOrder α] [AddZeroClass α]

/-- `std::numeric_limits<double>::max()`. -/
def doubleMax : ℚ := (2 ^ 53 - 1) * 2 ^ 971

/-- The comparison of the candidate sort: `lhs.second < rhs.second`. -/
def bySize (lhs rhs : Nat × α) : Prop :=
  lhs.2 ≤ rhs.2

namespace Enumeration

/-- `traversal_nodes.emplace_back(node); visited_nodes.emplace(node)`. -/
def enter (node : Nat) (e : Enumeration σ α) : Enumeration σ α :=
  { e with traversalNodes := e.traversalNodes ++ [node]
           visitedNodes := insert node e.visitedNodes }

/-- `traversal_nodes.pop_back(); visited_nodes.erase(node)`. -/
def leave (node : Nat) (e : Enumeration σ α) : Enumeration σ α :=
  { e with traversalNodes := e.traversalNodes.dropLast
           visitedNodes := e.visitedNodes.erase node }

/-- A complete traversal: recorded as the best one when it is cheaper,
and counted. -/
def complete (temp : α) (e : Enumeration σ α) : Enumeration σ α :=
  let e := if temp < e.minJoinSizeEstimation then
      { e with minJoinSizeEstimation := temp
               optimalTraversal := e.traversalNodes }
    else e
  { e with traversals := e.traversals ++ [e.traversalNodes]
           traverseBound := e.traverseBound + 1 }

end Enumeration

variable (g : Graph) (est : List Nat → σ → α × σ)
variable (sort : StdSort (Nat × α) bySize) (nodeTraverseBound : Nat)

/-- One candidate: estimated as if it were joined next. -/
def estimateCandidate (acc : Enumeration σ α × List (Nat × α)) (v : Nat) :
    Enumeration σ α × List (Nat × α) :=
  let e := acc.1
  if v ∈ e.visitedNodes then acc
  else
    let t := e.traversalNodes ++ [v]
    if 1 < t.length ∧ t.length ≤ g.size then
      let r := est t e.estimator
      ({ e with estimator := r.2 }, acc.2 ++ [(v, r.1)])
    else ({ e with traversalNodes := t }, acc.2)

/-- The nodes adjacent to `node` and those adjacent to earlier nodes that
are not visited yet, in the ascending order of `std::set`. -/
def newAdjacentNodes (node : Nat) (visited : Finset Nat)
    (allAdjacent : List (Nat × α)) : List Nat :=
  StdSort.ascending
    (g.adj node ∪ ((allAdjacent.map Prod.fst).toFinset \ visited))

/-- The estimate of the current stack, unless it is a single node or the
whole graph. -/
def estimateStack (e : Enumeration σ α) : α × Enumeration σ α :=
  if 1 < e.traversalNodes.length ∧ e.traversalNodes.length < g.size then
    let r := est e.traversalNodes e.estimator
    (r.1, { e with estimator := r.2 })
  else (0, e)

def getDistinctGraphTraversals : (fuel : Nat) → (node : Nat) →
    (allAdjacent : List (Nat × α)) → (temp : α) → Enumeration σ α →
    Enumeration σ α
  | 0, _, _, _, e => e
  | fuel + 1, node, allAdjacent, temp, e =>
    if nodeTraverseBound ≤ e.traverseBound then e
    else
      let e := e.enter node
      if e.traversalNodes.length = g.size then
        -- the estimate is taken for the memo; the last join is not counted
        let e := { e with estimator :=
          (est e.traversalNodes e.estimator).2 }
        (e.complete temp).leave node
      else
        let r := estimateStack g est e
        let e := r.2
        if nodeTraverseBound ≠ 1 ∧ temp + r.1 > e.minJoinSizeEstimation
            ∧ 1 < e.traversalNodes.length then
          e.leave node
        else
          let c := (newAdjacentNodes g node e.visitedNodes
            allAdjacent).foldl (estimateCandidate g est) (e, [])
          let e := (sort.run c.2).foldl (fun e v =>
            if v.1 ∈ e.visitedNodes then e
            else getDistinctGraphTraversals fuel v.1 c.2 (temp + r.1) e) c.1
          e.leave node

/-- The state before the first call: nothing joined, and
`numeric_limits<double>::max()` as the cost to beat. -/
def Enumeration.start (dblMax : α) (s : σ) : Enumeration σ α :=
  { traversalNodes := [], visitedNodes := ∅, traversals := [],
    optimalTraversal := [], minJoinSizeEstimation := dblMax,
    traverseBound := 0, estimator := s }

/-- The enumeration from a base node, on a fresh state. -/
def enumerate (dblMax : α) (base : Nat) (s : σ) : Enumeration σ α :=
  getDistinctGraphTraversals g est sort nodeTraverseBound g.size base [] 0
    (Enumeration.start dblMax s)

end Compass.JoinOrder

namespace Compass.JoinOrder

/-- `graph.find(node)->second`. -/
def Graph.find (g : Graph) (node : Nat) : Option (Finset Nat) :=
  if node ∈ g.nodes then some (g.adj node) else none

/-- The first two nodes of the plan in each other's place. -/
def swapFirst : List Nat → Option (List Nat)
  | a :: b :: rest => some (b :: a :: rest)
  | _ => none

structure LeafScan where
  plan : List Nat
  connectedNodes : Finset Nat
  /-- `last_leaf_idx + 1`. -/
  cut : Nat

/-- One step of the first loop, at position `i`. -/
def scanLeaf (graph : Graph) (s : LeafScan) (i : Nat) : Option LeafScan := do
  let node ← s.plan[i]?
  let adjacent ← graph.find node
  if adjacent.card = 1 then
    let conn ← (StdSort.ascending adjacent).head?
    let plan ← if conn ∈ s.connectedNodes then some s.plan
      else swapFirst s.plan
    let current ← plan[i]?
    return ⟨plan, insert current s.connectedNodes, i + 1⟩
  else return { s with connectedNodes := insert node s.connectedNodes }

/-- `closest_adj_node`: the last position in the new plan of a connected
neighbour. -/
def closestAdjNode (adjacent connectedNodes : Finset Nat) (plan : List Nat) : Option Nat :=
  (plan.zipIdx.filter fun n =>
    n.1 ∈ connectedNodes ∧ n.1 ∈ adjacent).getLast?.map Prod.snd

/-- One step of the second loop: the node is inserted behind its closest
neighbour. -/
def insertNode (graph : Graph) (acc : List Nat × Finset Nat) (node : Nat) :
    Option (List Nat × Finset Nat) := do
  let adjacent ← graph.find node
  let plan := if adjacent.card ≠ 1 then
      match closestAdjNode adjacent acc.2 acc.1 with
      | some i => acc.1.insertIdx (i + 1) node
      | none => acc.1
    else acc.1
  return (plan, insert node acc.2)

def adjustPlanForMapD (graph : Graph) (optimalTraversal : List Nat) :
    Option (List Nat) := do
  let s ← (List.range optimalTraversal.length).foldlM (scanLeaf graph)
    ⟨optimalTraversal, ∅, 0⟩
  let kept := s.plan.take s.cut
  let r ← (s.plan.drop s.cut).foldlM (insertNode graph) (kept, kept.toFinset)
  return r.1

end Compass.JoinOrder
