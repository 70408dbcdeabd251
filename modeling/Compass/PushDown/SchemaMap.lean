/-
The expressions over the join after a push-down, with the schemas kept in
`schema_map_` (`buildNewProjectExpr`, `buildNewFilterExpr`,
`getSchemaFromSource`, FilterPushDownSketch.cpp).

The schema of a node is built when it is first looked up and then kept
until a push-down has been carried out. The extraction of the filter looks
up the sources that it comes to, in the projections all of them, in the
condition not all: a join condition is left at its direct operands, and
the ELSE of a CASE is left alone when none of its branches is over the
scan. A source that is first looked up when the expressions are built
anew has the schema of the plan with the compound; but for the scan, which
is still the node it was.

A reference is a source and an index. `none` is a failed CHECK or a null
pointer in an expression.
-/
import Mathlib.Data.List.Forall2
import Compass.PushDown.Extract

namespace Compass.PushDown

variable {D : Type}

-- ======== the schemas

/-- What `getSchemaFromSource` returns. -/
abbrev SchemaMap := Nat → List (Nat × Nat) × List String

namespace SchemaMap

variable (m : SchemaMap)

/-- The table id of `findColumnNameByIndex`. -/
def tableOf (source cId : Nat) : Nat :=
  (RelNode.findColumnByIndex cId (m source).1 0).1

def getColumnInfoFromScan (source cId scanId : Nat) : ColInfo :=
  match RelNode.locateInScan cId scanId (m source).1 0 with
  | some c => (c, (m source).2.getD cId "")
  | none => (2 ^ 32 - 1, "")

def hasJointCondition (es : List (Rex D)) : Bool :=
  (((directInputs es).map fun x => m.tableOf x.1 x.2).foldl jointStep (0, false)).2

def scanCols (scanId : Nat) (es : List (Rex D)) : List ColInfo :=
  ((directInputs es).map fun x => m.getColumnInfoFromScan x.1 x.2 scanId).filter
    fun c => c.2 ≠ ""

end SchemaMap

/-- The schemas of a plan, `buildSchemaFromSource` for each source. -/
def Plan.schemas (P : Plan) : SchemaMap :=
  fun source => (P.tNumColsOf source, P.schemaOf source)

/-- The schemas after the compound has been put in, if those of some sources
are kept from before. -/
def keptSchemas (P : Plan) (scanId compoundId : Nat) (cols : List ColInfo) (kept : List Nat) :
    SchemaMap :=
  fun source =>
    if source ∈ kept ∨ source = scanId then P.schemas source
    else (P.insertCompound scanId compoundId cols).schemas source

-- ======== the extraction

section

variable (P : Plan) (scanId : Nat)

/-- `getProjectFromRex`. -/
def getProjectFromRex (e : Rex D) (cols : List ColInfo) : List ColInfo :=
  insertCols cols
    ((e.inputs.map fun x => P.getColumnInfoFromScan x.1 x.2 scanId).filter fun c => c.2 ≠ "")

/-- `findFilterAndProject`, for the projections and the condition. -/
def findFilterAndProject (projects : List (Rex D)) (cond : Rex D) :
    Option (Option (Rex D) × List ColInfo) :=
  findFilterAndProjectFromRex P scanId cond
    (projects.foldl (fun cols e => getProjectFromRex P scanId e cols) [])

mutual

/-- The sources that `findFilterAndProjectFromRex` looks up. -/
def lookedUp : Rex D → List Nat
  | .input source _ => [source]
  | .func _ es _ => (Rex.inputsAll es).map Prod.fst
  | .oper _ es _ =>
    if es.length ≥ 2 ∧ hasJointCondition P es then (directInputs es).map Prod.fst
    else lookedUpAll es
  | .case bs els =>
    lookedUpBranches bs
      -- the ELSE, if a branch is left
      ++ (match findBranches P scanId bs [] with
        | some (_ :: _, _) => lookedUp els
        | _ => [])
  | .literal _ | .ref _ | .subQuery _ => []

def lookedUpAll : List (Rex D) → List Nat
  | [] => []
  | e :: es => lookedUp e ++ lookedUpAll es

def lookedUpBranches : List (Rex D × Rex D) → List Nat
  | [] => []
  | (w, t) :: bs => lookedUp w ++ lookedUp t ++ lookedUpBranches bs

end

/-- The sources whose schemas are there after the extraction, with those
that were there before. -/
def sourcesKept (known : List Nat) (projects : List (Rex D)) (cond : Rex D) : List Nat :=
  known ++ (Rex.inputsAll projects).map Prod.fst ++ lookedUp P scanId cond

end

-- ======== the new expressions

section

variable (m : SchemaMap) (P : Plan) (scanId compoundId : Nat) (cols : List ColInfo)

/-- The new reference for one of the old expression, if there is one. -/
def newInput (source cId : Nat) : Option (Nat × Nat) :=
  if !isConnected P scanId compoundId cols source then some (source, cId)
  else
    match remapIndex scanId cId cols (m source).1 0 0 with
    | some (true, cIdNew) => some (if scanId = source then compoundId else source, cIdNew)
    | some (false, cIdNew) => some (source, cIdNew)
    | none => none

mutual

def buildNewProjectExpr : Rex D → Option (Rex D)
  | .input source index =>
    (newInput m P scanId compoundId cols source index).map fun r => .input r.1 r.2
  | .literal v => some (.literal v)
  | .func name es ti => do
      let es' ← buildNewProjectOperands es
      some (.func name es' ti)
  | .oper op es ti => do
      let es' ← buildNewProjectOperands es
      some (.oper op es' ti)
  | .case bs els => do
      let bs' ← buildNewProjectBranches bs
      let els' ← buildNewProjectExpr els
      some (.case bs' els')
  | .ref i => some (.ref i)
  | .subQuery _ => none

def buildNewProjectOperands : List (Rex D) → Option (List (Rex D))
  | [] => some []
  | e :: es => do
      let e' ← buildNewProjectExpr e
      let es' ← buildNewProjectOperands es
      some (e' :: es')

def buildNewProjectBranches : List (Rex D × Rex D) → Option (List (Rex D × Rex D))
  | [] => some []
  | (w, t) :: bs => do
      let w' ← buildNewProjectExpr w
      let t' ← buildNewProjectExpr t
      let bs' ← buildNewProjectBranches bs
      some ((w', t') :: bs')

end

mutual

/-- `buildNewFilterExpr` on the schemas that are kept. -/
def buildFilterExprFrom : Rex D → Option (Option (Rex D))
  | .input source index =>
    some ((newInput m P scanId compoundId cols source index).map fun r => .input r.1 r.2)
  | .literal v => some (some (.literal v))
  | .func name es ti => do
      let es' ← buildFilterOperandsFrom es
      if es.length = es'.length then some (some (.func name es' ti)) else some none
  | .oper op es ti =>
    if es.length ≥ 2 ∧ !m.hasJointCondition es ∧ m.scanCols scanId es ≠ [] then
      some none
    else do
      let es' ← buildFilterOperandsFrom es
      some (rebuildOper op ti es')
  | .case bs els => do
      let bs' ← buildFilterBranchesFrom bs
      let els' ← buildFilterExprFrom els
      match els' with
      | some els' => some (some (.case bs' els'))
      | none => none
  | .ref i => some (some (.ref i))
  | .subQuery _ => some none

def buildFilterOperandsFrom : List (Rex D) → Option (List (Rex D))
  | [] => some []
  | e :: es => do
      let r ← buildFilterExprFrom e
      let rs ← buildFilterOperandsFrom es
      some (r.toList ++ rs)

def buildFilterBranchesFrom : List (Rex D × Rex D) → Option (List (Rex D × Rex D))
  | [] => some []
  | (w, t) :: bs => do
      let w' ← buildFilterExprFrom w
      let t' ← buildFilterExprFrom t
      let rs ← buildFilterBranchesFrom bs
      match w', t' with
      | some w', some t' => some ((w', t') :: rs)
      | _, _ => none

end

end

/-- `updatePostJoinExprs`: the projections, then the condition. -/
def updatePostJoinExprs (P : Plan) (scanId compoundId : Nat) (cols : List ColInfo)
    (known : List Nat) (projects : List (Rex D)) (cond : Rex D) :
    Option (List (Rex D) × Option (Rex D)) := do
  let m := keptSchemas P scanId compoundId cols (sourcesKept P scanId known projects cond)
  let projects' ← buildNewProjectOperands m P scanId compoundId cols projects
  let cond' ← buildFilterExprFrom m P scanId compoundId cols cond
  some (projects', cond')

-- ======== the same column

/-- A reference of the plan and one of the plan with the compound stand for
the same column. -/
def SameColumn (P : Plan) (scanId compoundId : Nat) (cols : List ColInfo)
    (r r' : Nat × Nat) : Prop :=
  (P.insertCompound scanId compoundId cols).columnOf r'.1 r'.2 = P.columnOf r.1 r.2

/-- The number of columns before those of the scan. -/
def colsBefore (P : Plan) (scanId source : Nat) : Nat :=
  (((P.tNumColsOf source).takeWhile fun x => x.1 ≠ scanId).map Prod.snd).sum

/-- A reference that is rewritten to the same column: its source is one whose
schema is kept, or its column is before those of the scan, or one of the
first of them, as many as are projected, or behind them when as many are
projected as there are. -/
def Stays (P : Plan) (scanId : Nat) (cols : List ColInfo) (kept : List Nat)
    (r : Nat × Nat) : Prop :=
  let before := colsBefore P scanId r.1
  let width := (P.schemaOf scanId).length
  r.1 ∈ kept ∨ r.1 = scanId ∨ r.2 < before ∨
    (r.2 < before + width ∧ r.2 < before + cols.length) ∨
    (before + width ≤ r.2 ∧ width = cols.length)

/-- A reference is rewritten to another, and to the same column if and only if
`q`. -/
structure Rewritten (P : Plan) (scanId compoundId : Nat) (cols : List ColInfo)
    (kept : List Nat) (q : Prop) (r r' : Nat × Nat) : Prop where
  new : newInput (keptSchemas P scanId compoundId cols kept) P scanId compoundId cols r.1 r.2
    = some r'
  same : ∀ col, P.columnOf r.1 r.2 = some col → (SameColumn P scanId compoundId cols r r' ↔ q)

/-- The references of the new expressions. Those of the projections are
rewritten one by one; those of the condition are new ones of some of the old,
in their order. -/
structure UpdatedRefs (P : Plan) (scanId compoundId : Nat) (cols : List ColInfo)
    (kept : List Nat) (projects projects' : List (Rex D)) (cond : Rex D)
    (cond' : Option (Rex D)) : Prop where
  projects : List.Forall₂ (fun e e' => List.Forall₂
    (Rewritten P scanId compoundId cols kept True) e.inputs e'.inputs) projects projects'
  cond : ∀ e', cond' = some e' → List.SublistForall₂
    (fun r' r => Rewritten P scanId compoundId cols kept (Stays P scanId cols kept r) r r')
    e'.inputs cond.inputs

end Compass.PushDown
