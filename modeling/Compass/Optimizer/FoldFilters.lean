/-
`fold_filters` (RelAlgOptimizer.cpp): a filter directly over a filter that
no other node reads is put into that one.

The pass visits the vector from its end. It keeps the users of every node
in a map of its own (`web`), gives the lower filter the conjunction of the
two conditions, makes the users of the upper filter users of the lower
one (`replace_all_usages`) and takes the upper filter out.

A CHECK that fails, and a read outside the vector, is `none`. There are
three of interest. The condition of the upper filter may be anything, and
the pair is passed over when it is no operator; that of the lower filter
must be an operator of type BOOLEAN. And when the last node of the vector
has been folded, the search for the last one that is left starts behind
the end of the reversed vector. `cleanup_dead_nodes` only closes the gaps:
the nodes that are left are all held by `deconst_mapping` as well.

An expression over a join names the sides of the join. When a side is
folded, `replaceInput` of the join gives its condition the new name, but
nothing does so for the nodes over the join (`Foldable.overJoin`).
-/
import Compass.Optimizer.Hoist

namespace Compass.Optimizer

open Compass.PushDown
open Compass.RelAlg
open Compass.LeftDeep (Row column holds)

variable {D : Type}

-- ======== visitors

/-- `RexInputRedirector::visitInput`. -/
def redirectInput (P : Plan D) (oldSrc newSrc : Nat) (source index : Nat) : Option (Rex D) :=
  if source = oldSrc ∧ oldSrc ≠ newSrc then
    match P.sides newSrc with
    | some (lhs, rhs) =>
      if P.sizes lhs ≤ index then some (.input rhs (index - P.sizes lhs))
      else some (.input lhs index)
    | none => some (.input newSrc index)
  else none

/-- `RexRebindInputsVisitor::visitInput`. -/
def rebindInput (oldInput newInput : Nat) (source index : Nat) : Option (Rex D) :=
  some (.input (if source = oldInput then newInput else source) index)

/-- The visitor changes inputs in place, and never fails. -/
def rebind (oldInput newInput : Nat) (e : Rex D) : Rex D :=
  (e.deepCopy (rebindInput oldInput newInput)).getD e

/-- `replaceInput` of the classes of nodes. A join has one of its inputs
replaced. The targets of a compound are among its sources. -/
def replaceInput (oldInput newInput : Nat) (n : RelAlgNode D) : RelAlgNode D :=
  let swap (i : Nat) := if i = oldInput then newInput else i
  let rebind := rebind oldInput newInput
  match n.body with
  | .project input exprs fields => ⟨n.id, .project (swap input) (exprs.map rebind) fields⟩
  | .filter input condition => ⟨n.id, .filter (swap input) (rebind condition)⟩
  | .aggregate input groupbyCount aggs fields =>
    ⟨n.id, .aggregate (swap input) groupbyCount aggs fields⟩
  | .join ty lhs rhs condition =>
    if lhs = oldInput then ⟨n.id, .join ty newInput rhs (rebind condition)⟩
    else ⟨n.id, .join ty lhs (swap rhs) (rebind condition)⟩
  | .sort input collation limit offset => ⟨n.id, .sort (swap input) collation limit offset⟩
  | .compound input c =>
    ⟨n.id, .compound (swap input)
      { c with
        filterExpr := c.filterExpr.map rebind
        scalarSources := c.scalarSources.map rebind
        targetExprs := c.targetExprs.map fun
          | .scalar e => .scalar (rebind e)
          | .agg a => .agg a }⟩
  | .scan _ => n
  | .logicalValues _ => n

-- ======== the pass

structure FoldState (D : Type) where
  nodes : Plan D
  web : Nat → List Nat

/-- The condition of the folded filter, with the CHECKs on the types. -/
def foldedCondition (oldCondition otherCondition : Rex D) : Option (Rex D) := do
  let oldType ← operatorType oldCondition
  let otherType ← operatorType otherCondition
  if oldType.type = .kBOOLEAN ∧ otherType.type = .kBOOLEAN then
    some (.oper .kAND [oldCondition, otherCondition]
      { type := .kBOOLEAN, notnull := oldType.notnull && otherType.notnull, size := 0 })
  else none

/-- The new condition, `replace_all_usages`, and the upper filter taken
out of the vector and of the map. -/
def foldInto (s : FoldState D) (filter folded : Nat) (condition : Rex D) : FoldState D :=
  { nodes := ((setCondition s.nodes folded condition).map fun n =>
        if n.id ∈ s.web filter then replaceInput filter folded n else n).filter
          fun n => n.id ≠ filter
    web := fun i =>
      if i = filter then []
      else if i = folded then
        ((s.web folded) ++ (s.web filter).filter fun u => u ∉ s.web folded).filter
          fun u => u ≠ filter
      else s.web i }

/-- One turn of the loop. -/
def foldNode (s : FoldState D) (id : Nat) : Option (FoldState D) :=
  match s.nodes.node? id with
  | some ⟨_, .filter source condition⟩ =>
    match s.nodes.node? source with
    | some ⟨_, .filter input oldCondition⟩ =>
      if (s.web source).length ≠ 1 then some s
      else if (operatorType condition).isNone then some s
      else do
        let other ← condition.deepCopy (redirectInput s.nodes source input)
        let newCondition ← foldedCondition oldCondition other
        some (foldInto s id source newCondition)
    | _ => some s
  | _ => some s

def isCompound (n : RelAlgNode D) : Bool :=
  match n.body with
  | .compound _ _ => true
  | _ => false

/-- `fold_filters`. `build_du_web` has no case for a compound. -/
def foldFilters (P : Plan D) : Option (Plan D) := do
  if P.any isCompound then none
  else
    let s ← (P.map RelAlgNode.id).reverse.foldlM foldNode ⟨P, P.users⟩
    match (P.map RelAlgNode.id).getLast? with
    | none => some []
    | some last => if last ∈ s.nodes.map RelAlgNode.id then some s.nodes else none

-- ======== the chains

/-- The filter is folded into the one below it. -/
def folds (P : Plan D) (id : Nat) : Bool :=
  match P.node? id with
  | some ⟨_, .filter source condition⟩ =>
    match P.node? source with
    | some ⟨_, .filter _ _⟩ => (P.users source).length = 1 && (operatorType condition).isSome
    | _ => false
  | _ => false

/-- Filters that are folded, each directly over the one before. -/
def Stacked (P : Plan D) : Nat → List Nat → Prop
  | _, [] => True
  | g, f :: fs => folds P f = true ∧ (∃ c, ⟨f, .filter g c⟩ ∈ P) ∧ Stacked P f fs

/-- The last of the filters that have been put together. -/
def top (merged : Nat → List Nat) (i : Nat) : Nat :=
  (merged i).getLastD i

/-- The condition of the filter is true of the row. -/
def HoldsAt (P : Plan D) (E : Engine D) (f : Nat) (row : Row D) : Prop :=
  ∃ input c, ⟨f, .filter input c⟩ ∈ P ∧ holds E.toInterp (inputColumn P input row) c = true

/-- What the pass must make of a plan. A node stands for itself and the
filters that were folded into it, all there are above it; a filter is true
of the rows of which all of these are; the inputs of a node stand for
those it had; and every node has the rows of the last filter it stands
for. -/
structure Folded [DecidableEq D] (P P' : Plan D) (merged : Nat → List Nat) : Prop where
  wellFormed : P'.WellFormed
  ids : P'.map RelAlgNode.id = (P.map RelAlgNode.id).filter fun i => !folds P i
  stacked : ∀ n ∈ P', ∃ above, merged n.id = n.id :: above ∧ Stacked P n.id above
  maximal : ∀ n ∈ P', ∀ h c, ⟨h, .filter (top merged n.id) c⟩ ∈ P → folds P h = false
  condition : ∀ i x c, ⟨i, .filter x c⟩ ∈ P' → ∀ E row,
    holds E.toInterp (inputColumn P' x row) c = true ↔ ∀ f ∈ merged i, HoldsAt P E f row
  inputs : ∀ n ∈ P', ∃ m ∈ P, m.id = n.id ∧ n.inputs.map (top merged) = m.inputs
  rows : ∀ E db, ∀ n ∈ P', P'.rows E db n.id = P.rows E db (top merged n.id)

-- ======== what it needs

def IsBoolean (e : Rex D) : Prop :=
  ∃ ti, operatorType e = some ti ∧ ti.type = .kBOOLEAN

/-- The inputs that the expressions of a node read. -/
def exprInputs (n : RelAlgNode D) : List (Nat × Nat) :=
  match n.body with
  | .project _ exprs _ => exprs.flatMap Rex.inputs
  | .filter _ c => c.inputs
  | .join _ _ _ c => c.inputs
  | _ => []

/-- The condition of the filter reads the column. -/
def ReadsColumn (P : Plan D) (h k : Nat) : Prop :=
  ∃ x c, ⟨h, .filter x c⟩ ∈ P ∧ ∃ p ∈ c.inputs, p.2 = k

/-- The side of a join that a column of its rows is on. -/
def columnSide (P : Plan D) (lhs rhs index : Nat) : Nat :=
  if P.sizes lhs ≤ index then rhs else lhs

/-- A node over a join reads the side, itself or in a filter that is
folded into it. -/
def ReadsSide (P : Plan D) (lhs rhs : Nat) (n : RelAlgNode D) (side : Nat) : Prop :=
  (∃ p ∈ exprInputs n, p.1 = side)
    ∨ ∃ above, Stacked P n.id above
        ∧ ∃ h ∈ above, ∃ k, ReadsColumn P h k ∧ columnSide P lhs rhs k = side

/-- The plans that can be folded. -/
structure Foldable (P : Plan D) : Prop where
  noCompound : ∀ n ∈ P, isCompound n = false
  boolean : ∀ f g c x c', folds P f = true → ⟨f, .filter g c⟩ ∈ P → ⟨g, .filter x c'⟩ ∈ P →
    IsBoolean c ∧ IsBoolean c'
  notLast : ∀ f, folds P f = true → (P.map RelAlgNode.id).getLast? ≠ some f
  overJoin : ∀ j ty lhs rhs c, ⟨j, .join ty lhs rhs c⟩ ∈ P → ∀ f, f = lhs ∨ f = rhs →
    folds P f = true → ∀ n ∈ P, n.isJoin = false → j ∈ n.inputs → ¬ ReadsSide P lhs rhs n f

end Compass.Optimizer
