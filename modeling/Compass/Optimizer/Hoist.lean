/-
`hoist_filter_cond_to_cross_join` (RelAlgOptimizer.cpp): conditions of a
filter that a cross join below it can check move into the join.

From a cross join the pass walks up through joins, as long as each has a
single user, to a filter. The parts of the filter's condition that read
columns of the cross join only (`find_hoistable_conditions`) become its
condition, in terms of its own inputs (`JoinTargetRebaser`), and the
filter has TRUE in their place (`SubConditionRemover`).

Conditions are compared by address. A pointer into a condition is here
the path to it, from operand to operand, with the expression that stands
there; nullptr is `none`. A failed CHECK, and the visit of nullptr, which
ends in one, is `none` as well.

What of a filter condition can be checked below, and where the pass does
check it.

A condition is whole when each of its conjuncts is an equality of two
columns of the range, or a column of the range; the pieces of a condition
are the largest whole conditions among its conjuncts. They are what
hoisting is meant to find. The pass infers that an AND is whole from the
number of conditions its operands gave, so `clean` asks that no AND looks
whole by this count and is not, and that no side of an equality gives a
single column without being one.

The rest is about the way up: the columns of the join are found where the
pass expects them when every join after the first has the way as its left
side (`onTheLeft`), and a row of the join reaches every join above only
when no LEFT join fills it up with NULLs.
-/
import Compass.RelAlg.Eval

namespace Compass.Optimizer

open Compass.PushDown
open Compass.RelAlg
open Compass.LeftDeep (JoinType)

variable {D : Type}

-- ======== the visitor of ANDs

/-- A pointer into a condition. -/
structure CondPtr (D : Type) where
  path : List Nat
  rex : Rex D

def isInput : Rex D → Bool
  | .input _ _ => true
  | _ => false

/-- The only pointer there is, when it points to a RexInput. -/
def isLoneInput : List (Option (CondPtr D)) → Bool
  | [some c] => isInput c.rex
  | _ => false

/-- The branches of the switch, from what the operands gave. An AND that
got one condition from each operand counts as hoistable itself. -/
def findInOper (path : List Nat) (op : SQLOps) (es : List (Rex D)) (ti : SQLTypeInfo)
    (conds : List (List (Option (CondPtr D)))) : List (Option (CondPtr D)) :=
  match op with
  | .kAND =>
    if conds.countP (fun cs => cs.length == 1) = es.length then
      [some ⟨path, .oper op es ti⟩]
    else conds.flatten
  | .kEQ =>
    if isLoneInput (conds.getD 0 []) && isLoneInput (conds.getD 1 []) then
      [some ⟨path, .oper op es ti⟩]
    else []
  | _ => []

section

variable (source firstColIdx lastColIdx : Nat)

mutual

def findHoistableConditions : List Nat → Rex D → List (Option (CondPtr D))
  | path, .oper op es ti => findInOper path op es ti (findInOperands path 0 es)
  | path, .input s i =>
    if s = source then
      [if firstColIdx ≤ i ∧ i ≤ lastColIdx then some ⟨path, .input s i⟩ else none]
    else []
  | _, _ => []

def findInOperands : List Nat → Nat → List (Rex D) → List (List (Option (CondPtr D)))
  | _, _, [] => []
  | path, k, e :: es =>
    findHoistableConditions (path ++ [k]) e :: findInOperands path (k + 1) es

end

end

-- ======== rewriting

/-- `JoinTargetRebaser::visitInput`. It does not look at the source. -/
def rebaseInput (lhs rhs oldBase src1Base targetCount : Nat) (_source index : Nat) :
    Option (Rex D) :=
  if oldBase ≤ index ∧ index < targetCount then
    let currIdx := index - oldBase
    if src1Base ≤ currIdx then some (.input rhs (currIdx - src1Base))
    else some (.input lhs currIdx)
  else none

/-- The type of what is an operator. -/
def operatorType : Rex D → Option SQLTypeInfo
  | .oper _ _ ti => some ti
  | .func _ _ ti => some ti
  | _ => none

/-- The loop over several conditions: the rebased operands, and whether
all of them are NOT NULL. -/
def rebaseAll (visitInput : Nat → Nat → Option (Rex D)) :
    List (Option (CondPtr D)) → Option (List (Rex D) × Bool)
  | [] => some ([], true)
  | none :: _ => none
  | some c :: cs => do
      let operand ← c.rex.deepCopy visitInput
      let ti ← operatorType c.rex
      if ti.type = .kBOOLEAN then
        let (operands, notnull) ← rebaseAll visitInput cs
        some (operand :: operands, ti.notnull && notnull)
      else none

/-- The new condition of the join. -/
def newJoinCondition (visitInput : Nat → Nat → Option (Rex D))
    (conds : List (Option (CondPtr D))) : Option (Rex D) :=
  match conds with
  | [none] => none
  | [some c] => c.rex.deepCopy visitInput
  | _ => (rebaseAll visitInput conds).map fun r =>
    .oper .kAND r.1 { type := .kBOOLEAN, notnull := r.2, size := 0 }

section

variable (subConditions : List (List Nat))

mutual

/-- `SubConditionRemover`. -/
def removeSubConditions : List Nat → Rex D → Rex D
  | path, .oper op es ti =>
    if subConditions.contains path then .literal (.bool true)
    else .oper op (removeInOperands path 0 es) ti
  | path, .func name es ti =>
    if subConditions.contains path then .literal (.bool true)
    else .func name (removeInOperands path 0 es) ti
  | path, .case bs els =>
    .case (removeInBranches path 0 bs)
      (removeSubConditions (path ++ [2 * bs.length]) els)
  | _, .input s i => .input s i
  | _, .literal v => .literal v
  | _, .ref i => .ref i
  | _, .subQuery q => .subQuery q

def removeInOperands : List Nat → Nat → List (Rex D) → List (Rex D)
  | _, _, [] => []
  | path, k, e :: es =>
    removeSubConditions (path ++ [k]) e :: removeInOperands path (k + 1) es

def removeInBranches : List Nat → Nat → List (Rex D × Rex D) → List (Rex D × Rex D)
  | _, _, [] => []
  | path, k, (w, t) :: bs =>
    (removeSubConditions (path ++ [k]) w, removeSubConditions (path ++ [k + 1]) t)
      :: removeInBranches path (k + 2) bs

end

end

-- ======== the pass

/-- `setCondition` of a filter or a join. -/
def setCondition (P : Plan D) (i : Nat) (condition : Rex D) : Plan D :=
  P.map fun n =>
    if n.id = i then
      match n.body with
      | .filter input _ => { n with body := .filter input condition }
      | .join ty lhs rhs _ => { n with body := .join ty lhs rhs condition }
      | _ => n
    else n

/-- The walk from a join to the filter above it, if there is one: the
joins on the way and the first column of the join. Users come later in
the list, so the fuel lasts. -/
def walkUp (P : Plan D) (join : Nat) :
    (fuel : Nat) → (currJoin firstColIdx : Nat) → (joinSeq : List Nat) →
      Option (Option Nat × List Nat × Nat)
  | 0, _, _, _ => none
  | fuel + 1, currJoin, firstColIdx, joinSeq =>
    match P.users currJoin with
    | [onlyUsr] =>
      match P.node? onlyUsr with
      | some ⟨_, .join _ lhs rhs _⟩ =>
        walkUp P join fuel onlyUsr
          (if join = rhs then firstColIdx + P.sizes lhs else firstColIdx)
          (joinSeq ++ [onlyUsr])
      | some ⟨_, .filter _ _⟩ => some (some onlyUsr, joinSeq, firstColIdx)
      | _ => some (none, joinSeq, firstColIdx)
    | _ => some (none, joinSeq, firstColIdx)

/-- The rewriting of a cross join and the filter above it. -/
def hoistFrom (P : Plan D) (join lhs rhs filter firstColIdx : Nat) :
    Option (Plan D) :=
  match P.node? filter with
  | some ⟨_, .filter srcJoin condition⟩ =>
    if srcJoin = join then
      some (setCondition (setCondition P filter (.literal (.bool true))) join condition)
    else
      match P.sides srcJoin with
      | some (src0, src1) =>
        let src1Base := P.sizes src0
        let source := if firstColIdx < src1Base then src0 else src1
        let first := if firstColIdx < src1Base then firstColIdx
          else firstColIdx - src1Base
        let conds := findHoistableConditions source first
          (first + P.sizes join - 1) [] condition
        if conds.isEmpty then some P
        else
          (newJoinCondition
            (rebaseInput lhs rhs first (P.sizes lhs) (P.sizes join)) conds).map
            fun c => setCondition (setCondition P join c) filter
              (removeSubConditions (conds.reduceOption.map CondPtr.path) [] condition)
      | none => none
  | _ => none

structure HoistState (D : Type) where
  nodes : Plan D
  visited : List Nat

/-- The body of the loop over the nodes. -/
def hoistNode (s : HoistState D) (i : Nat) : Option (HoistState D) :=
  if s.visited.contains i then some s
  else
    let visited := i :: s.visited
    match s.nodes.node? i with
    | some ⟨_, .join .INNER lhs rhs (.literal v)⟩ =>
      match v with
      | .bool true =>
        match walkUp s.nodes i s.nodes.length i 0 [i] with
        | none => none
        | some (none, joinSeq, _) =>
          some { s with visited := joinSeq ++ visited }
        | some (some filter, _, firstColIdx) =>
          (hoistFrom s.nodes i lhs rhs filter firstColIdx).map fun nodes =>
            { nodes := nodes, visited := visited }
      | _ => none
    | _ => some { s with visited := visited }

/-- `hoist_filter_cond_to_cross_join`. -/
def hoistFilterCondToCrossJoin (P : Plan D) : Option (Plan D) :=
  ((P.map RelAlgNode.id).foldlM hoistNode { nodes := P, visited := [] }).map
    HoistState.nodes

end Compass.Optimizer

namespace Compass.Optimizer

open Compass.PushDown
open Compass.RelAlg
open Compass.LeftDeep (JoinType)

variable {D : Type}

-- ======== pieces

section

variable (source first last : Nat)

/-- A column of the range. -/
def inRange : Rex D → Bool
  | .input s i => decide (s = source) && decide (first ≤ i) && decide (i ≤ last)
  | _ => false

mutual

def whole : Rex D → Bool
  | .oper .kAND es _ => wholeAll es
  | .oper .kEQ [l, r] _ => inRange source first last l && inRange source first last r
  | .input s i => inRange source first last (.input s i : Rex D)
  | _ => false

def wholeAll : List (Rex D) → Bool
  | [] => true
  | e :: es => whole e && wholeAll es

end

mutual

def pieces : Rex D → List (Rex D)
  | .oper .kAND es ti =>
    if wholeAll source first last es then [.oper .kAND es ti] else piecesAll es
  | e => if whole source first last e then [e] else []

def piecesAll : List (Rex D) → List (Rex D)
  | [] => []
  | e :: es => pieces e ++ piecesAll es

end

/-- A single column. -/
def isLoneColumn : List (Rex D) → Bool
  | [e] => isInput e
  | _ => false

mutual

/-- The number of conditions tells which conjuncts are whole. -/
def clean : Rex D → Bool
  | .oper .kAND es _ => cleanAll es
      && (!(es.all fun e => (pieces source first last e).length == 1)
        || wholeAll source first last es)
  | .oper .kEQ [l, r] _ =>
    !(isLoneColumn (pieces source first last l)
      && isLoneColumn (pieces source first last r))
    || (isInput l && isInput r)
  | .input s i => !decide (s = source) || inRange source first last (.input s i : Rex D)
  | _ => true

def cleanAll : List (Rex D) → Bool
  | [] => true
  | e :: es => clean e && cleanAll es

end

end

mutual

/-- Equalities have two sides, and conjunctions and equalities are
boolean. -/
def wellTyped : Rex D → Bool
  | .oper .kAND es ti => decide (ti.type = .kBOOLEAN) && wellTypedAll es
  | .oper .kEQ es ti =>
    decide (ti.type = .kBOOLEAN) && decide (es.length = 2) && wellTypedAll es
  | _ => true

def wellTypedAll : List (Rex D) → Bool
  | [] => true
  | e :: es => wellTyped e && wellTypedAll es

end

-- ======== the way up

/-- The joins from a join up to a filter, each with a single user, and
the filter. -/
def chainUp (P : Plan D) : (fuel : Nat) → (join : Nat) → Option (List Nat × Nat)
  | 0, _ => none
  | fuel + 1, join =>
    match P.users join with
    | [usr] =>
      match P.node? usr with
      | some ⟨_, .join _ _ _ _⟩ =>
        (chainUp P fuel usr).map fun r => (usr :: r.1, r.2)
      | some ⟨_, .filter _ _⟩ => some ([], usr)
      | _ => none
    | _ => none

/-- Every join has the one before it as its left side. -/
def onTheLeft (P : Plan D) : Nat → List Nat → Bool
  | _, [] => true
  | join, usr :: usrs =>
    decide ((P.sides usr).map Prod.fst = some join) && onTheLeft P usr usrs

/-- A join above does not fill the join up with NULLs. -/
def keepsRows (P : Plan D) (join usr : Nat) : Bool :=
  match P.node? usr with
  | some ⟨_, .join ty _ rhs _⟩ => decide (rhs = join → ty = .INNER)
  | _ => false

/-- Where the columns of a side start. -/
def sideOffset (P : Plan D) (join usr : Nat) : Nat :=
  match P.sides usr with
  | some (lhs, rhs) => if rhs = join then P.sizes lhs else 0
  | none => 0

/-- The side of the last join that holds the columns of the join, and
where they start there. -/
def hoistSource (P : Plan D) (join : Nat) : List Nat → Nat × Nat
  | [] => (join, 0)
  | [_] => (join, 0)
  | usr :: usrs => ((usr :: usrs).dropLast.getLastD usr, sideOffset P join usr)

/-- The condition of the filter, split between it and a join of a number
of columns, as the pass can split it. -/
def splitsCleanly (source base width : Nat) (condition : Rex D) : Bool :=
  clean source base (base + width - 1) condition
    && (decide ((pieces source base (base + width - 1) condition).length ≤ 1)
      || (pieces source base (base + width - 1) condition).all fun e => !isInput e)
    && (pieces source base (base + width - 1) condition).all fun e =>
        e.inputs.all fun p => decide (p.2 < width)

/-- The side of the last join that the pass looks into, and where it takes
the columns of the join to start there. -/
def looksInto (P : Plan D) (join : Nat) (way : List Nat) : Nat × Nat :=
  let first := (way.map (sideOffset P join)).sum
  match P.sides (way.getLastD join) with
  | some (src0, src1) =>
    if first < P.sizes src0 then (src0, first) else (src1, first - P.sizes src0)
  | none => (join, 0)

/-- No part of the condition reads columns of the range only, and the pass
does not take one for such a part. -/
def staysWhole (source base width : Nat) (condition : Rex D) : Bool :=
  clean source base (base + width - 1) condition
    && (pieces source base (base + width - 1) condition).isEmpty

/-- The pass can hoist conditions into the join, or finds none. -/
def hoistsCleanly (P : Plan D) (join : Nat) : Bool :=
  match P.node? join with
  | some ⟨_, .join .INNER _ _ (.literal _)⟩ =>
    match chainUp P P.length join with
    | some (usr :: usrs, filter) =>
      match P.node? filter with
      | some ⟨_, .filter _ condition⟩ =>
        let found := looksInto P join (usr :: usrs)
        staysWhole found.1 found.2 (P.sizes join) condition
          || keepsRows P join usr && onTheLeft P usr usrs
          && splitsCleanly (hoistSource P join (usr :: usrs)).1
            (hoistSource P join (usr :: usrs)).2 (P.sizes join) condition
      | _ => true
    | _ => true
  | _ => true

/-- Every join that a run of the pass comes to can be hoisted into. -/
def hoistsCleanlyFrom : List Nat → HoistState D → Bool
  | [], _ => true
  | i :: is, s => hoistsCleanly s.nodes i
      && match hoistNode s i with
        | some s' => hoistsCleanlyFrom is s'
        | none => true

def runsCleanly (P : Plan D) : Bool :=
  hoistsCleanlyFrom (P.map RelAlgNode.id) { nodes := P, visited := [] }

-- ======== the promise

/-- A returned condition reads columns of the range only. -/
def ReadsRange (source first last : Nat) (c : Option (CondPtr D)) : Prop :=
  ∃ ptr, c = some ptr
    ∧ ∀ p ∈ ptr.rex.inputs, p.1 = source ∧ first ≤ p.2 ∧ p.2 ≤ last

/-- The conditions of a plan as the parser and Calcite leave them. -/
structure Conditions (P : Plan D) : Prop where
  typed : ∀ i input c, ⟨i, .filter input c⟩ ∈ P → wellTyped c = true
  cross : ∀ i lhs rhs v, ⟨i, .join .INNER lhs rhs (.literal v)⟩ ∈ P → v = .bool true

end Compass.Optimizer
