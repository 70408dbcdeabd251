/-
The vector of nodes through the passes of the interpreter
(RelAlgAbstractInterpreter::run, RelAlgOptimizer.cpp), and the two keys
that the push-down makes of a scan in it.

A node takes its id from a counter when it is made. The nodes of a query
are made in their order, each after the nodes of the subqueries in its own
expressions; the counter starts at one for a main query, and goes on for a
subquery. The passes then rewrite nodes in place, drop nodes
(`simplify_sort`, and `cleanup_dead_nodes` at the end of
`eliminate_identical_copy` and `fold_filters`) and put new projects behind
filters (`try_insert_coalesceable_proj` in `eliminate_dead_columns`).

`simplify_sort` is as in the source. Of the other passes the model has
what they do to the vector, whichever nodes they choose: `Run` has every
choice of nodes to drop, and every choice of filters that get a project.
With a run goes the drift of every node, the number of nodes that came in
front of it less those that went.

When `simplify_sort` (RelAlgOptimizer.cpp) may drop a sort and a project
under an equal sort.

The pass looks at three nodes that stand next to each other. Three things
it does not ask. The nodes need not be inputs of one another.
`RelProject::isIdentity` compares the number of columns and not the
columns, so that a project which permutes its input is taken for an
identity; a comment there says so. And two sorts that are equal skip
their OFFSET twice where one skips it once.

`get_equiv_cols` takes a column through a project over a join by its
index alone, so columns of the two sides with one index are taken for one
column. `SameColumn` tells them apart.
-/
import Compass.JoinOrder.Estimate
import Compass.Optimizer.Hoist

namespace Compass.Optimizer

open Compass.PushDown
open Compass.RelAlg
open Compass.JoinOrder (nodeKey)

variable {D : Type}

-- ======== simplify_sort

/-- `RelProject::isSimple`. -/
def isSimple (exprs : List (Rex D)) : Bool :=
  exprs.all isInput

/-- `RelProject::isIdentity` of a project with the given input. -/
def isIdentity (P : Plan D) (input : Nat) (exprs : List (Rex D)) : Bool :=
  isSimple exprs && !(P.sides input).isSome && P.sizes input = exprs.length

/-- `get_equiv_cols`: the columns that a column comes from, down to a scan
or a join. A failed CHECK is `none`; a walk is not longer than the plan. -/
def getEquivCols (P : Plan D) : (fuel node col : Nat) → Option (List (Nat × Nat))
  | 0, _, _ => none
  | fuel + 1, node, col =>
    match (P.node? node).map RelAlgNode.body with
    | some (.scan _) | some (.join _ _ _ _) => some [(node, col)]
    | some (.project input exprs _) =>
      match exprs[col]? with
      | some (.input _ index) => do
          return (node, col) :: (← getEquivCols P fuel input index)
      | some _ => some [(node, col)]
      | none => none
    | some (.aggregate input groupbyCount _ _) =>
      if groupbyCount ≤ col then some [(node, col)]
      else do return (node, col) :: (← getEquivCols P fuel input col)
    | some (.filter input _) | some (.sort input _ _ _) | some (.compound input _) => do
        return (node, col) :: (← getEquivCols P fuel input col)
    | some (.logicalValues _) | none => none

/-- The fields of two sorts at the same place. -/
def equivField (P : Plan D) (this that : Nat) (x y : SortField) : Option Bool :=
  if x.sortDir ≠ y.sortDir ∨ x.nullsPosition ≠ y.nullsPosition then some false
  else do
    let thisKeys ← getEquivCols P (P.length + 1) this x.field
    let thatKeys ← getEquivCols P (P.length + 1) that y.field
    return thisKeys.any (thatKeys.contains ·)

/-- `hasEquivCollationOf`. -/
def hasEquivCollationOf (P : Plan D) (this that : Nat) :
    List SortField → List SortField → Option Bool
  | [], [] => some true
  | x :: xs, y :: ys => do
      if ← equivField P this that x y then hasEquivCollationOf P this that xs ys
      else return false
  | _, _ => some false

/-- The first sort, when the three nodes are a sort, an identity and an
equal sort: the input it has. -/
def simplifiable (P : Plan D) (first project second : Nat) : Option (Option Nat) :=
  match (P.node? first).map RelAlgNode.body, (P.node? project).map RelAlgNode.body,
      (P.node? second).map RelAlgNode.body with
  | some (.sort input fields limit offset), some (.project source exprs _),
      some (.sort _ fields' limit' offset') =>
      if isIdentity P source exprs ∧ limit = limit' ∧ offset = offset' then do
        if ← hasEquivCollationOf P first second fields fields' then return some input
        else return none
      else some none
  | _, _, _ => some none

/-- `replaceInput` of a sort. -/
def setSortInput (P : Plan D) (id input : Nat) : Plan D :=
  P.map fun n =>
    match n.body with
    | .sort _ fields limit offset =>
      if n.id = id then ⟨n.id, .sort input fields limit offset⟩ else n
    | _ => n

/-- The loop of `simplify_sort`: all nodes as they are now, and the ids
that are left in the vector. -/
def simplifySortLoop : Plan D → List Nat → Option (Plan D × List Nat)
  | P, i :: j :: k :: ids => do
      match ← simplifiable P i j k with
      | some input =>
        let (P, kept) ← simplifySortLoop (setSortInput P k input) ids
        return (P, k :: kept)
      | none =>
        let (P, kept) ← simplifySortLoop P (j :: k :: ids)
        return (P, i :: kept)
  | P, ids => some (P, ids)
termination_by structural _ ids => ids

def simplifySort (P : Plan D) : Option (Plan D) := do
  let (P, kept) ← simplifySortLoop P (P.map RelAlgNode.id)
  return P.filter fun n => n.id ∈ kept

-- ======== the vector

/-- A node of the query: the number of nodes that are made for the
subqueries in it, and what it is, from the ids of the nodes before it. -/
structure Rel (D : Type) where
  subqueryNodes : Nat
  body : List Nat → Body D

/-- `dispatchNodes`, with the counter of the ids before and after. -/
def dispatchNodes (crtId : Nat) (ids : List Nat) : List (Rel D) → Plan D × Nat
  | [] => ([], crtId)
  | rel :: rels =>
    let id := crtId + rel.subqueryNodes
    let (nodes, crtId) := dispatchNodes (id + 1) (ids ++ [id]) rels
    (⟨id, rel.body ids⟩ :: nodes, crtId)

/-- What does not change when a node is rewritten. -/
def tag (n : RelAlgNode D) : Nat × Bool := (n.id, n.isScan)

/-- `try_insert_coalesceable_proj`, for the filters that it chooses. -/
def insertProjects (proj : RelAlgNode D → Option (List (Rex D) × List String)) :
    Plan D → Nat → Plan D × Nat
  | [], crtId => ([], crtId)
  | n :: nodes, crtId =>
    match n.body, proj n with
    | .filter _ _, some (exprs, fields) =>
      let (rest, last) := insertProjects proj nodes (crtId + 1)
      (n :: ⟨crtId, .project n.id exprs fields⟩ :: rest, last)
    | _, _ =>
      let (rest, last) := insertProjects proj nodes crtId
      (n :: rest, last)

/-- Whether a node gets a project. -/
def getsProject (proj : RelAlgNode D → Option (List (Rex D) × List String))
    (n : RelAlgNode D) : Bool :=
  match n.body, proj n with
  | .filter _ _, some _ => true
  | _, _ => false

/-- The number of nodes of a kind in front of the one with an id. -/
def countBefore (p : RelAlgNode D → Bool) (P : Plan D) (id : Nat) : Nat :=
  (P.takeWhile fun n => n.id ≠ id).countP p

/-- The vectors of nodes there can be, with the counter and the drift of
every node. -/
inductive Run (firstId : Nat) (rels : List (Rel D)) :
    Plan D → Nat → (Nat → Int) → Prop where
  | dispatch : Run firstId rels (dispatchNodes firstId [] rels).1
      (dispatchNodes firstId [] rels).2 fun _ => 0
  | rewrite {P P' : Plan D} {crtId crtId' : Nat} {drift : Nat → Int} :
      Run firstId rels P crtId drift → P'.map tag = P.map tag → crtId ≤ crtId' →
      Run firstId rels P' crtId' drift
  | erase {P : Plan D} {crtId : Nat} {drift : Nat → Int} (dead : RelAlgNode D → Bool) :
      Run firstId rels P crtId drift →
      Run firstId rels (P.filter fun n => !dead n) crtId
        fun id => drift id - countBefore dead P id
  | insert {P : Plan D} {crtId : Nat} {drift : Nat → Int}
      (proj : RelAlgNode D → Option (List (Rex D) × List String)) :
      Run firstId rels P crtId drift →
      Run firstId rels (insertProjects proj P crtId).1 (insertProjects proj P crtId).2
        fun id => drift id + countBefore (getsProject proj) P id

/-- The ids that were given before the node with an id was made, to
something else than the nodes in front of it. -/
def skippedIds (firstId : Nat) (rels : List (Rel D)) (id : Nat) : Int :=
  (id : Int) - 1 - countBefore (fun _ => true) (dispatchNodes firstId [] rels).1 id

-- ======== the keys

/-- The key of `evaluateAndPushDown`, from the position. -/
def positionKey (tableId position : Nat) : Except Decimal.StoiError Int :=
  nodeKey tableId (position + 1)

/-- The key of `extractHashJoinCol`, from `getId`. -/
def idKey (tableId : Nat) (n : RelAlgNode D) : Except Decimal.StoiError Int :=
  nodeKey tableId n.id

/-- `std::stoi` takes the text. -/
def HasKey (tableId nodeId : Int) : Prop :=
  ∃ key, nodeKey tableId nodeId = .ok key

/-- The two keys of every scan are the same. Where `std::stoi` throws there
is no key, and the query ends. -/
def KeysAgree (tableId : Nat → Nat) (P : Plan D) : Prop :=
  ∀ i n key key', P[i]? = some n → n.isScan = true →
    positionKey (tableId n.id) i = .ok key → idKey (tableId n.id) n = .ok key' → key = key'

end Compass.Optimizer

namespace Compass.Optimizer

open Compass.PushDown
open Compass.RelAlg
open Compass.LeftDeep (Row column)

variable {D : Type}

/-- The engine orders the values of every kind of sort field: of two at
most one comes first, and one that comes first comes before or after any
third. -/
structure Orders (E : Engine D) : Prop where
  asymm : ∀ {dir pos x y}, E.precedes dir pos x y = true → E.precedes dir pos y x = false
  between : ∀ {dir pos x y z}, E.precedes dir pos x z = true →
    E.precedes dir pos x y = true ∨ E.precedes dir pos y z = true

/-- The two columns of the node come from one column. -/
inductive SameColumn (P : Plan D) : (node col col' : Nat) → Prop
  | refl (node col : Nat) : SameColumn P node col col
  | filter {node input col col' : Nat} {condition : Rex D}
      (hnode : ⟨node, .filter input condition⟩ ∈ P) (h : SameColumn P input col col') :
      SameColumn P node col col'
  | sort {node input col col' limit offset : Nat} {fields : List SortField}
      (hnode : ⟨node, .sort input fields limit offset⟩ ∈ P) (h : SameColumn P input col col') :
      SameColumn P node col col'
  | aggregate {node input col col' groupbyCount : Nat} {aggs : List RexAgg}
      {names : List String} (hnode : ⟨node, .aggregate input groupbyCount aggs names⟩ ∈ P)
      (hcol : col < groupbyCount) (hcol' : col' < groupbyCount)
      (h : SameColumn P input col col') : SameColumn P node col col'
  | project {node input col col' index index' : Nat} {exprs : List (Rex D)}
      {names : List String} (hnode : ⟨node, .project input exprs names⟩ ∈ P)
      (hjoin : P.sides input = none) (hcol : exprs[col]? = some (.input input index))
      (hcol' : exprs[col']? = some (.input input index'))
      (h : SameColumn P input index index') : SameColumn P node col col'
  | sameInput {node input col col' source index : Nat} {exprs : List (Rex D)}
      {names : List String} (hnode : ⟨node, .project input exprs names⟩ ∈ P)
      (hcol : exprs[col]? = some (.input source index))
      (hcol' : exprs[col']? = some (.input source index)) : SameColumn P node col col'

/-- The fields of the two collations sort by the same columns. -/
def SameFields (P : Plan D) (input : Nat) : List SortField → List SortField → Prop :=
  List.Forall₂ fun x y => x.sortDir = y.sortDir ∧ x.nullsPosition = y.nullsPosition
    ∧ SameColumn P input x.field y.field

/-- The project that gives every column of a node. -/
def identityExprs (input size : Nat) : List (Rex D) :=
  (List.range size).map (.input input)

/-- The first sort and the project do nothing for the second sort: each
node is the input of the next, the project is the identity, nothing is
skipped, and the sorts are by the same columns. -/
def Redundant (P : Plan D) (first project second : Nat) : Prop :=
  ∃ input fields fields' limit names, ⟨first, .sort input fields limit 0⟩ ∈ P
      ∧ ⟨project, .project first (identityExprs first (P.sizes first)) names⟩ ∈ P
      ∧ ⟨second, .sort project fields' limit 0⟩ ∈ P
      ∧ SameFields P input fields fields'

/-- No CHECK of the loop fails, and whatever it drops is redundant at that
time. -/
def DropsRedundant : Plan D → List Nat → Prop
  | P, i :: j :: k :: ids =>
    match simplifiable P i j k with
    | some (some input) => Redundant P i j k ∧ DropsRedundant (setSortInput P k input) ids
    | some none => DropsRedundant P (j :: k :: ids)
    | none => False
  | _, _ => True
termination_by structural _ ids => ids

/-- The same rows, in an order that is the same up to the sort fields. -/
def SameOutput (fields : List SortField) (rows rows' : List (Row D)) : Prop :=
  rows.Perm rows'
    ∧ rows.map (fun row => fields.map fun f => column row f.field)
      = rows'.map fun row => fields.map fun f => column row f.field

end Compass.Optimizer
