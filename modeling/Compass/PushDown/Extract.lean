/-
The extraction of the filter of one scan from the condition of the join
(`findFilterAndProjectFromRex`).

The recursion returns the part of an expression that is over the given
scan, or `nullptr`, and collects in `cols_to_project` the columns of the
scan that are needed above the join. An input of another table is
dropped, a comparison of two columns of different tables is a join
condition and dropped with its columns noted, and any other operator is
put together again from the operands that are left: from two on as it
was, from one as it was under NOT, IS NULL and IS NOT NULL and as that
operand otherwise, provided that it is an operator or a CASE itself.

The outer `none` is a failed CHECK.

What is left of the condition above the join, and the push-down over all
scans (`buildNewFilterExpr`, `updatePostJoinExprs`, `evaluateAndPushDown`).

After a filter has been pushed to a scan, a compound over the scan puts
out `cols_to_project` only, and the condition is built anew: an input of
the scan is looked up in `cols_to_project` and dropped when it is not
there, an input of a table behind the scan moves by the columns that went
away, an operator over columns of the scan alone is dropped as pushed
down, and any other operator is put together again from the operands that
are left. A condition of which nothing is left is removed with its
filter.

The schemas are those that `schema_map_` holds from the extraction, from
before the compound was put in. The outer `none` is a null pointer in a
RexCase.
-/
import Compass.PushDown.Rex

namespace Compass.PushDown

variable {D : Type}

-- ======== cols_to_project

/-- `std::lower_bound` by the index and `emplace`, unless the element
found is the one to insert. -/
def insertCol (cols : List ColInfo) (c : ColInfo) : List ColInfo :=
  let before := cols.takeWhile fun x => x.1 < c.1
  let rest := cols.dropWhile fun x => x.1 < c.1
  match rest with
  | [] => before ++ [c]
  | x :: _ => if x = c then cols else before ++ c :: rest

def insertCols (cols new : List ColInfo) : List ColInfo :=
  new.foldl insertCol cols

-- ======== join conditions

/-- The operands that are RexInputs. -/
def directInputs (es : List (Rex D)) : List (Nat × Nat) :=
  es.filterMap fun e =>
    match e with
    | .input source index => some (source, index)
    | _ => none

/-- One turn of the loop over the inputs: `t_id_prev` and
`has_joint_condition`. -/
def jointStep (st : Nat × Bool) (tId : Nat) : Nat × Bool :=
  if st.1 = 0 then (tId, st.2)
  else if !st.2 && st.1 != tId then (st.1, true)
  else st

/-- `has_joint_condition`. -/
def hasJointCondition (P : Plan) (es : List (Rex D)) : Bool :=
  (((directInputs es).map fun x => P.tableOf x.1 x.2).foldl jointStep (0, false)).2

/-- `c_infos_tmp`: the columns of the scan among the inputs. -/
def scanCols (P : Plan) (scanId : Nat) (es : List (Rex D)) : List ColInfo :=
  ((directInputs es).map fun x => P.getColumnInfoFromScan x.1 x.2 scanId).filter
    fun c => c.2 ≠ ""

-- ======== the recursion

/-- NOT, IS NOT NULL and IS NULL, which a single operand keeps. -/
def keepsSingle (op : SQLOps) : Bool :=
  op == .kNOT || op == .kISNOTNULL || op == .kISNULL

/-- The operator over the operands that are left. -/
def rebuildOper (op : SQLOps) (ti : SQLTypeInfo) (es : List (Rex D)) :
    Option (Rex D) :=
  match es with
  | [] => none
  | [e] =>
    if keepsSingle op then some (.oper op [e] ti)
    else if e.isOperOrCase then some e
    else none
  | e₁ :: e₂ :: es => some (.oper op (e₁ :: e₂ :: es) ti)

section

variable (P : Plan) (scanId : Nat)

mutual

/-- `findFilterAndProjectFromFuncOper`, which fails its CHECK on any
operand that is not an input, a literal or a function. -/
def findFilterAndProjectFromFuncOper :
    Rex D → List ColInfo → Option (Option (Rex D) × List ColInfo)
  | .input source index, tmp =>
    let c := P.getColumnInfoFromScan source index scanId
    if c.2 ≠ "" then some (some (.input scanId c.1), tmp ++ [c])
    else some (none, tmp)
  | .literal v, tmp => some (some (.literal v), tmp)
  | .func name es ti, tmp => do
      let (es', tmp) ← findFuncOperands es tmp
      if es'.length ≠ es.length then some (none, tmp)
      else some (some (.func name es' ti), tmp)
  | _, _ => none

def findFuncOperands :
    List (Rex D) → List ColInfo → Option (List (Rex D) × List ColInfo)
  | [], tmp => some ([], tmp)
  | e :: es, tmp => do
      let (r, tmp) ← findFilterAndProjectFromFuncOper e tmp
      let (rs, tmp) ← findFuncOperands es tmp
      some (r.toList ++ rs, tmp)

end

mutual

/-- `findFilterAndProjectFromRex`. -/
def findFilterAndProjectFromRex :
    Rex D → List ColInfo → Option (Option (Rex D) × List ColInfo)
  | .input source index, cols =>
    let c := P.getColumnInfoFromScan source index scanId
    if c.2 ≠ "" then some (some (.input scanId c.1), cols) else some (none, cols)
  | .literal v, cols => some (some (.literal v), cols)
  | .func name es ti, cols => do
      let (es', tmp) ← findFuncOperands P scanId es []
      if es'.length ≠ es.length then some (none, insertCols cols tmp)
      else some (some (.func name es' ti), cols)
  | .oper op es ti, cols =>
    if es.length ≥ 2 ∧ hasJointCondition P es then
      some (none, insertCols cols (scanCols P scanId es))
    else do
      let (es', cols) ← findOperands es cols
      some (rebuildOper op ti es', cols)
  | .case bs els, cols => do
      let (bs', cols) ← findBranches bs cols
      if bs'.isEmpty then some (none, cols)
      else do
        let (els', cols) ← findFilterAndProjectFromRex els cols
        some (els'.map (.case bs'), cols)
  | .ref i, cols => some (some (.ref i), cols)
  | .subQuery _, cols => some (none, cols)

def findOperands :
    List (Rex D) → List ColInfo → Option (List (Rex D) × List ColInfo)
  | [], cols => some ([], cols)
  | e :: es, cols => do
      let (r, cols) ← findFilterAndProjectFromRex e cols
      let (rs, cols) ← findOperands es cols
      some (r.toList ++ rs, cols)

def findBranches :
    List (Rex D × Rex D) → List ColInfo →
      Option (List (Rex D × Rex D) × List ColInfo)
  | [], cols => some ([], cols)
  | (w, t) :: bs, cols => do
      let (w', cols) ← findFilterAndProjectFromRex w cols
      let (t', cols) ← findFilterAndProjectFromRex t cols
      let (rs, cols) ← findBranches bs cols
      -- a branch is kept when both of its parts are
      match w', t' with
      | some w', some t' => some ((w', t') :: rs, cols)
      | _, _ => some (rs, cols)

end

end

end Compass.PushDown

namespace Compass.PushDown

variable {D : Type}

-- ======== the compound

/-- `makeAndInsertCompound`: the compound over the scan. -/
def RelNode.insertCompound (scanId compoundId : Nat) (cols : List ColInfo) :
    RelNode → RelNode
  | .scan i fields =>
    if i = scanId then .compound compoundId cols (.scan i fields)
    else .scan i fields
  | .through i input => .through i (input.insertCompound scanId compoundId cols)
  | .join i lhs rhs =>
    .join i (lhs.insertCompound scanId compoundId cols)
      (rhs.insertCompound scanId compoundId cols)
  | n => n

theorem RelNode.tables_insertCompound (scanId compoundId : Nat)
    (cols : List ColInfo) (n : RelNode) :
    (n.insertCompound scanId compoundId cols).tables = n.tables := by
  induction n with
  | scan i fields =>
    unfold insertCompound
    split <;> simp [tables, tNumCols, findBaseTableId]
  | derived i fields input ih | compound i cols input ih => rfl
  | through i input ih => exact ih
  | join i lhs rhs ihl ihr =>
    simp only [tables, insertCompound, tNumCols, List.map_append] at ihl ihr ⊢
    rw [ihl, ihr]

def Plan.insertCompound (P : Plan) (scanId compoundId : Nat) (cols : List ColInfo) :
    Plan where
  root := P.root.insertCompound scanId compoundId cols
  tables_nodup := by
    rw [RelNode.tables_insertCompound]
    exact P.tables_nodup
  tables_pos := by
    rw [RelNode.tables_insertCompound]
    exact P.tables_pos

-- ======== the inputs

/-- The loop over `t_num_cols`: whether the column is one of the scan, and
its new index. -/
def remapIndex (scanId cId : Nat) (cols : List ColInfo) :
    List (Nat × Nat) → Nat → Int → Option (Bool × Nat)
  | [], _, _ => none
  | (t, w) :: rest, numColsSoFar, numModifier =>
    if cId < numColsSoFar + w then
      if t = scanId then
        (cols.findIdx? fun col => col.1 = cId - numColsSoFar).map
          fun k => (true, k + numColsSoFar)
      else some (false, ((cId : Int) - numModifier).toNat)
    else
      remapIndex scanId cId cols rest (numColsSoFar + w)
        (if t = scanId then (w : Int) - cols.length else numModifier)

section

variable (P : Plan) (scanId compoundId : Nat) (cols : List ColInfo)

/-- `hasConnection` between the compound and the source, one way or the
other. -/
def isConnected (source : Nat) : Bool :=
  let plan := P.insertCompound scanId compoundId cols
  (match plan.root.find? source with
    | some n => n.hasConnection compoundId
    | none => false)
    || (match plan.root.find? compoundId with
      | some n => n.hasConnection source
      | none => false)

def buildNewInput (source cId : Nat) : Option (Rex D) :=
  if !isConnected P scanId compoundId cols source then some (.input source cId)
  else
    match remapIndex scanId cId cols (P.tNumColsOf source) 0 0 with
    | some (true, cIdNew) =>
      some (.input (if scanId = source then compoundId else source) cIdNew)
    | some (false, cIdNew) => some (.input source cIdNew)
    | none => none

-- ======== the recursion

mutual

/-- `buildNewFilterExpr`. -/
def buildNewFilterExpr : Rex D → Option (Option (Rex D))
  | .input source index =>
    some (buildNewInput P scanId compoundId cols source index)
  | .literal v => some (some (.literal v))
  | .func name es ti => do
      let es' ← buildNewOperands es
      if es.length = es'.length then some (some (.func name es' ti)) else some none
  | .oper op es ti =>
    if es.length ≥ 2 ∧ !hasJointCondition P es ∧ scanCols P scanId es ≠ [] then
      some none
    else do
      let es' ← buildNewOperands es
      some (rebuildOper op ti es')
  | .case bs els => do
      let bs' ← buildNewBranches bs
      let els' ← buildNewFilterExpr els
      match els' with
      | some els' => some (some (.case bs' els'))
      | none => none
  | .ref i => some (some (.ref i))
  | .subQuery _ => some none

def buildNewOperands : List (Rex D) → Option (List (Rex D))
  | [] => some []
  | e :: es => do
      let r ← buildNewFilterExpr e
      let rs ← buildNewOperands es
      some (r.toList ++ rs)

def buildNewBranches : List (Rex D × Rex D) → Option (List (Rex D × Rex D))
  | [] => some []
  | (w, t) :: bs => do
      let w' ← buildNewFilterExpr w
      let t' ← buildNewFilterExpr t
      let rs ← buildNewBranches bs
      match w', t' with
      | some w', some t' => some ((w', t') :: rs)
      | _, _ => none

end

end

-- ======== the loop

/-- A scan of the loop: its id and that of its compound, the columns that
the projections above the join need, and whether the push-down is carried
out. It is not for a table below the size limit, and it is taken back
when the filtered table is empty or too large. -/
structure Target where
  scanId : Nat
  compoundId : Nat
  projected : List ColInfo
  carriedOut : Bool

/-- The plan, the condition of its filter, if there still is one, and the
filters that were pushed, each with the plan it was pushed in. -/
structure PushState (D : Type) where
  plan : Plan
  cond : Option (Rex D)
  pushed : List (Plan × Rex D)

/-- One turn of the loop of `evaluateAndPushDown`. -/
def pushDownScan (st : PushState D) (t : Target) : Option (PushState D) :=
  match st.cond with
  | none => some st
  | some cond => do
      let (filter, cols) ←
        findFilterAndProjectFromRex st.plan t.scanId cond t.projected
      match filter with
      | none => some st
      | some f =>
        if !t.carriedOut then some st
        else do
          let rest ← buildNewFilterExpr st.plan t.scanId t.compoundId cols cond
          some { plan := st.plan.insertCompound t.scanId t.compoundId cols
                 cond := rest
                 pushed := st.pushed ++ [(st.plan, f)] }

/-- The push-down over the scans, in the order of the loop. -/
def pushDownAll (P : Plan) (cond : Rex D) (targets : List Target) :
    Option (PushState D) :=
  targets.foldlM pushDownScan ⟨P, some cond, []⟩

/-- What the query keeps: the pushed filters and what is left of the
condition. -/
def PushState.truth (st : PushState D) (I : Interp D) (row : Assignment D) : Truth :=
  Truth.all (st.pushed.map fun f => f.1.truth I row f.2)
    ⊓ (match st.cond with
      | some cond => st.plan.truth I row cond
      | none => ⊤)

end Compass.PushDown
