/-
When the extracted filter is implied by the condition.

What the extraction makes of an expression is read off the expression: it
is dropped, kept as an input or a literal, or kept as an operator
(`Fate`). An expression all over the scan, without a unary operator that
gets lost, is kept with its value (`whole`). Dropping an operand raises a
conjunction and lowers a disjunction, so a condition is safe when
operands get lost under AND in a positive place and under OR in a
negative one, and nowhere else (`safe`).
-/
import Compass.Lib.Results
import Compass.PushDown.Proofs.Plan

namespace Compass.PushDown

open List Option

variable {D : Type}

-- ======== conditions

/-- What becomes of an expression: nothing, an input or a literal or a
reference, an operator or a CASE. -/
inductive Fate where
  | gone
  | leaf
  | node
deriving DecidableEq, Repr

/-- The fate of an operator over operands of these fates. -/
def operFate (op : SQLOps) (fs : List Fate) : Fate :=
  match fs.filter (· ≠ .gone) with
  | [] => .gone
  | [f] => if keepsSingle op then .node else if f = .node then .node else .gone
  | _ => .node

section

variable (P : Plan) (scanId : Nat)

/-- The input is a column of the scan. -/
def belongs (source index : Nat) : Bool :=
  (P.getColumnInfoFromScan source index scanId).2 ≠ ""

mutual

/-- A function's operand that is over the scan. -/
def funcKept : Rex D → Bool
  | .input source index => belongs P scanId source index
  | .literal _ => true
  | .func _ es _ => funcAllKept es
  | _ => false

def funcAllKept : List (Rex D) → Bool
  | [] => true
  | e :: es => funcKept e && funcAllKept es

end

mutual

def fate : Rex D → Fate
  | .input source index => if belongs P scanId source index then .leaf else .gone
  | .literal _ => .leaf
  | .func _ es _ => if funcAllKept P scanId es then .node else .gone
  | .oper op es _ =>
    if es.length ≥ 2 ∧ hasJointCondition P es then .gone else operFate op (fates es)
  | .case bs els =>
    if someBranchKept bs && fate els ≠ .gone then .node else .gone
  | .ref _ => .leaf
  | .subQuery _ => .gone

def fates : List (Rex D) → List Fate
  | [] => []
  | e :: es => fate e :: fates es

def someBranchKept : List (Rex D × Rex D) → Bool
  | [] => false
  | (w, t) :: bs => (fate w ≠ .gone && fate t ≠ .gone) || someBranchKept bs

end

mutual

/-- The expression is over the scan, and no operator of it gets lost. -/
def whole : Rex D → Bool
  | .input source index => belongs P scanId source index
  | .literal _ => true
  | .func _ es _ => funcAllKept P scanId es
  | .oper op es _ =>
    !(es.length ≥ 2 && hasJointCondition P es) && wholeAll es
      && (es.length ≥ 2 || (es.length == 1 && keepsSingle op))
  | .case bs els => !bs.isEmpty && wholeBranches bs && whole els
  | .ref _ => true
  | .subQuery _ => false

def wholeAll : List (Rex D) → Bool
  | [] => true
  | e :: es => whole e && wholeAll es

def wholeBranches : List (Rex D × Rex D) → Bool
  | [] => true
  | (w, t) :: bs => whole w && whole t && wholeBranches bs

end

/-- None of the operands is dropped. -/
def noneGone (es : List (Rex D)) : Bool :=
  (fates P scanId es).all (· ≠ .gone)

mutual

/-- The extraction only raises the truth of the expression (`pos`), or
only lowers it. -/
def safe (pos : Bool) : Rex D → Bool
  | .oper op es ti =>
    whole P scanId (.oper op es ti) || fate P scanId (.oper op es ti) = .gone
      || (match op with
        | .kAND => safeAll pos es && (pos || noneGone P scanId es)
        | .kOR => safeAll pos es && (!pos || noneGone P scanId es)
        | .kNOT => es.length == 1 && safeAll (!pos) es
        | _ => false)
  | e => whole P scanId e || fate P scanId e = .gone

def safeAll (pos : Bool) : List (Rex D) → Bool
  | [] => true
  | e :: es => safe pos e && safeAll pos es

end

end

-- ======== the lists

section

variable {P : Plan} {s : Nat}

theorem fates_eq_map (es : List (Rex D)) : fates P s es = es.map (fate P s) := by
  induction es with
  | nil => rfl
  | cons e es ih => simp [fates, ih]

variable {es : List (Rex D)}

theorem funcAllKept_iff :
    funcAllKept P s es = true ↔ ∀ e ∈ es, funcKept P s e = true := by
  induction es with
  | nil => simp [funcAllKept]
  | cons e es ih => simp [funcAllKept, ih]

theorem wholeAll_iff :
    wholeAll P s es = true ↔ ∀ e ∈ es, whole P s e = true := by
  induction es with
  | nil => simp [wholeAll]
  | cons e es ih => simp [wholeAll, ih]

theorem wholeBranches_iff {bs : List (Rex D × Rex D)} :
    wholeBranches P s bs = true
      ↔ ∀ b ∈ bs, whole P s b.1 = true ∧ whole P s b.2 = true := by
  induction bs with
  | nil => simp [wholeBranches]
  | cons b bs ih => simp [wholeBranches, ih]

theorem safeAll_iff {pos : Bool} :
    safeAll P s pos es = true ↔ ∀ e ∈ es, safe P s pos e = true := by
  induction es with
  | nil => simp [safeAll]
  | cons e es ih => simp [safeAll, ih]

theorem noneGone_iff :
    noneGone P s es = true ↔ ∀ e ∈ es, fate P s e ≠ .gone := by
  simp [noneGone, fates_eq_map]

end

-- ======== the functions

section Func

variable {P : Plan} {s : Nat}
variable {es rs : List (Rex D)}

theorem inputValue_of_belongs (hs : P.IsScan s) (row : Assignment D)
    {source index : Nat} (h : belongs P s source index = true) :
    P.inputValue row s (P.getColumnInfoFromScan source index s).1
      = P.inputValue row source index := by
  have hcol := Plan.columnOf_of_located hs (of_decide_eq_true h)
  simp only [Plan.inputValue, hcol, Plan.columnOf_scan hs hcol]

/-- What becomes of a function's operand `e`. -/
def FuncResult (P : Plan) (s : Nat) (I : Interp D) (row : Assignment D) (e : Rex D)
    (o : Option (Rex D)) : Prop :=
  (o = none ↔ ¬ funcKept P s e = true)
    ∧ ∀ r, o = some r → P.eval I row r = P.eval I row e

/-- The operands of a function are all kept, with their values, or some
are dropped. -/
theorem findFuncOperands_spec {I : Interp D} {row : Assignment D} {tmp tmp' : List ColInfo}
    (ih : ∀ e ∈ es, ∀ tmp o tmp', findFilterAndProjectFromFuncOper P s e tmp = some (o, tmp') →
      FuncResult P s I row e o) (h : findFuncOperands P s es tmp = some (rs, tmp')) :
    (rs.length = es.length ↔ funcAllKept P s es = true)
      ∧ (funcAllKept P s es = true →
        rs.map (P.eval I row) = es.map (P.eval I row)) := by
  obtain ⟨os, rfl, hall⟩ := Results.forall₂_of_run (g := findFuncOperands P s)
    (fun _ => rfl) (fun _ _ _ => by rw [findFuncOperands]) h
  have hspec : Forall₂ (FuncResult P s I row) es os := by
    refine Results.forall₂_and ih hall ?_
    intro e o hih hex
    obtain ⟨c, c', hfind⟩ := hex
    exact hih c o c' hfind
  constructor
  · rw [hall.length_eq, Results.length_reduceOption_eq_iff, funcAllKept_iff]
    exact Results.forall_ne_none_iff (hspec.imp fun _ _ h => h.1)
  · intro hk
    refine Results.map_reduceOption_eq ?_
    refine Results.forall₂_and (funcAllKept_iff.mp hk) hspec ?_
    intro e o hkept hres
    obtain ⟨hnone, hval⟩ := hres
    cases o with
    | none => exact absurd hkept (hnone.mp rfl)
    | some r => exact ⟨r, rfl, hval r rfl⟩

/-- A function over kept operands has the function's value. -/
theorem eval_func_congr {I : Interp D} {row : Assignment D} (name : String) (ti : SQLTypeInfo)
    (h : rs.map (P.eval I row) = es.map (P.eval I row)) :
    P.eval I row (.func name rs ti) = P.eval I row (.func name es ti) := by
  simp only [Plan.eval, Rex.evalWith, evalsWith_eq_map]
  exact congrArg _ h

/-- A function's operand is kept as it is or not at all. -/
theorem findFuncOper_spec (hs : P.IsScan s) (I : Interp D) (row : Assignment D)
    (e : Rex D) : ∀ tmp o tmp', findFilterAndProjectFromFuncOper P s e tmp = some (o, tmp') →
      FuncResult P s I row e o := by
  induction e using Rex.operand_induction with
  | input source index =>
    intro tmp o tmp' h
    simp only [findFilterAndProjectFromFuncOper] at h
    split at h
    · next hb =>
        obtain ⟨rfl, -⟩ := h
        have hb' : belongs P s source index = true := decide_eq_true hb
        refine ⟨by simp [funcKept, hb'], ?_⟩
        intro r hr
        cases hr
        exact inputValue_of_belongs hs row hb'
    · next hb =>
        obtain ⟨rfl, -⟩ := h
        simp [FuncResult, funcKept, belongs, hb]
  | literal v =>
    intro tmp o tmp' h
    obtain ⟨rfl, -⟩ := h
    simp [FuncResult, funcKept]
  | func name es ti ih =>
    intro tmp o tmp' h
    simp only [findFilterAndProjectFromFuncOper, bind_eq_bind, bind_eq_some_iff] at h
    obtain ⟨⟨rs, tmp₁⟩, hops, h⟩ := h
    obtain ⟨hlen, hvals⟩ := findFuncOperands_spec ih hops
    split at h
    · next hne =>
        obtain ⟨rfl, -⟩ := h
        have hk : ¬ funcAllKept P s es = true := fun hk => hne (hlen.mpr hk)
        simpa [FuncResult, funcKept] using hk
    · next heq =>
        obtain ⟨rfl, -⟩ := h
        have hk : funcAllKept P s es = true := hlen.mp (not_not.mp heq)
        refine ⟨by simp [funcKept, hk], ?_⟩
        intro r hr
        cases hr
        exact eval_func_congr name ti (hvals hk)
  | oper op es ti ih | case bs els ih ihe | ref i | subQuery q =>
    intro tmp o tmp' h
    simp [findFilterAndProjectFromFuncOper] at h

end Func

-- ======== the operators

section Oper

variable {P : Plan} {s : Nat} {I : Interp D} {row : Assignment D}

/-- What becomes of the expression `e`. -/
structure Extracted (P : Plan) (s : Nat) (I : Interp D) (row : Assignment D)
    (e : Rex D) (o : Option (Rex D)) : Prop where
  gone : o = none ↔ fate P s e = .gone
  node : ∀ r, o = some r → (r.isOperOrCase = true ↔ fate P s e = .node)
  whole : whole P s e = true → ∃ r, o = some r ∧ P.eval I row r = P.eval I row e
  moves : ∀ pos, safe P s pos e = true →
    ∀ r, o = some r → Truth.Moves pos (P.truth I row e) (P.truth I row r)

/-- An expression that is kept with its value or dropped. -/
theorem Extracted.of_eval {e : Rex D} {o : Option (Rex D)} (gone : o = none ↔ fate P s e = .gone)
    (node : ∀ r, o = some r → (r.isOperOrCase = true ↔ fate P s e = .node))
    (kept : PushDown.whole P s e = true → o ≠ none)
    (val : ∀ r, o = some r → P.eval I row r = P.eval I row e) :
    Extracted P s I row e o where
  gone := gone
  node := node
  whole h := by
    cases ho : o with
    | none => exact absurd ho (kept h)
    | some r => exact ⟨r, rfl, val r ho⟩
  moves pos _ r hr := by
    rw [Plan.truth, Plan.truth, val r hr]
    exact .refl pos _

theorem truth_and (ti : SQLTypeInfo) (es : List (Rex D)) :
    P.truth I row (.oper .kAND es ti) = Truth.all (es.map (P.truth I row)) :=
  Rex.truth_and I _ ti es

theorem truth_or (ti : SQLTypeInfo) (es : List (Rex D)) :
    P.truth I row (.oper .kOR es ti) = Truth.any (es.map (P.truth I row)) :=
  Rex.truth_or I _ ti es

theorem truth_not (ti : SQLTypeInfo) (e : Rex D) :
    P.truth I row (.oper .kNOT [e] ti) = (P.truth I row e).neg :=
  Rex.truth_not I _ ti e

variable {rs : List (Rex D)} {ti : SQLTypeInfo}

theorem rebuildOper_and {r : Rex D} (h : rebuildOper .kAND ti rs = some r) :
    P.truth I row r = Truth.all (rs.map (P.truth I row)) :=
  rebuildOper_truth_and I _ h

theorem rebuildOper_or {r : Rex D} (h : rebuildOper .kOR ti rs = some r) :
    P.truth I row r = Truth.any (rs.map (P.truth I row)) :=
  rebuildOper_truth_or I _ h

variable {es : List (Rex D)}

theorem eval_oper_congr {op : SQLOps} (ti : SQLTypeInfo)
    (h : rs.map (P.eval I row) = es.map (P.eval I row)) :
    P.eval I row (.oper op rs ti) = P.eval I row (.oper op es ti) := by
  simp only [Plan.eval, Rex.evalWith, evalsWith_eq_map]
  exact congrArg _ h

section

variable {os : List (Option (Rex D))} (h : Forall₂ (Extracted P s I row) es os)
include h

/-- The fates of the operands that are left. -/
theorem forall₂_keptFates : Forall₂ (fun f r => Rex.isOperOrCase r = true ↔ f = .node)
      ((es.map (fate P s)).filter (· ≠ .gone)) os.reduceOption := by
  induction h with
  | nil => exact .nil
  | @cons e o es os he _ ih =>
    cases o with
    | none =>
      have hg : fate P s e = .gone := he.gone.mp rfl
      simpa [hg] using ih
    | some r =>
      have hg : fate P s e ≠ .gone := fun hg => by
        cases he.gone.mpr hg
      simp only [map_cons, reduceOption_cons_of_some]
      rw [filter_cons_of_pos (by simpa using hg)]
      exact .cons (he.node r rfl) ih

/-- The fate of an operator is that of what is put together again. -/
theorem rebuildOper_fate {op : SQLOps} : (rebuildOper op ti os.reduceOption = none
        ↔ operFate op (es.map (fate P s)) = .gone)
      ∧ ∀ r, rebuildOper op ti os.reduceOption = some r →
        (r.isOperOrCase = true ↔ operFate op (es.map (fate P s)) = .node) := by
  have hk := forall₂_keptFates h
  unfold operFate
  generalize (es.map (fate P s)).filter (· ≠ .gone) = fs at hk
  generalize os.reduceOption = rs at hk
  cases hk with
  | nil => simp [rebuildOper]
  | @cons f r fs rs hfr htail =>
    cases htail with
    | nil =>
      by_cases hs : keepsSingle op = true
      · simp [rebuildOper, hs, Rex.isOperOrCase]
      · by_cases hr : r.isOperOrCase = true
        · have hf := hfr.mp hr
          simp [rebuildOper, hs, hr, hf]
        · have hf : f ≠ .node := fun hf => hr (hfr.mpr hf)
          simp [rebuildOper, hs, hr, hf]
    | cons _ _ => simp [rebuildOper, Rex.isOperOrCase]

end

section Logic

variable {es : List (Rex D)} {os : List (Option (Rex D))} {pos : Bool} {r : Rex D}

/-- Every truth that is left is above, or below, that of an operand. -/
theorem exists_operand (h : Forall₂ (Extracted P s I row) es os)
    (hsafe : safeAll P s pos es = true) :
    ∀ t ∈ os.reduceOption.map (P.truth I row),
      ∃ u ∈ es.map (P.truth I row), Truth.Moves pos u t := by
  intro t ht
  obtain ⟨r, hr, rfl⟩ := mem_map.mp ht
  obtain ⟨e, he, hex⟩ := Results.exists_of_mem h hr
  exact ⟨_, mem_map_of_mem he, hex.moves pos (safeAll_iff.mp hsafe e he) r rfl⟩

/-- And every operand's truth is below, or above, one that is left, when
none is dropped. -/
theorem exists_kept (h : Forall₂ (Extracted P s I row) es os)
    (hsafe : safeAll P s pos es = true) (hnone : noneGone P s es = true) :
    ∀ u ∈ es.map (P.truth I row),
      ∃ t ∈ os.reduceOption.map (P.truth I row), Truth.Moves pos u t := by
  intro u hu
  obtain ⟨e, he, rfl⟩ := mem_map.mp hu
  have hkept : ∀ o, Extracted P s I row e o → o ≠ none := by
    intro o hex ho
    exact noneGone_iff.mp hnone e he (hex.gone.mp ho)
  obtain ⟨r, hr, hex⟩ := Results.exists_result h he hkept
  exact ⟨_, mem_map_of_mem hr, hex.moves pos (safeAll_iff.mp hsafe e he) r rfl⟩

variable {ti : SQLTypeInfo}

variable (h : Forall₂ (Extracted P s I row) es os)
include h

omit h in
theorem moves_of_whole {e : Rex D} {o : Option (Rex D)}
    (hwhole : ∃ r, o = some r ∧ P.eval I row r = P.eval I row e) (hr : o = some r) :
    Truth.Moves pos (P.truth I row e) (P.truth I row r) := by
  obtain ⟨r', hr', hval⟩ := hwhole
  cases hr.symm.trans hr'
  rw [Plan.truth, Plan.truth, hval]
  exact .refl pos _

theorem moves_and
    (hr : rebuildOper .kAND ti os.reduceOption = some r) (hsafe : safeAll P s pos es = true)
    (hnone : (pos || noneGone P s es) = true) :
    Truth.Moves pos (P.truth I row (.oper .kAND es ti)) (P.truth I row r) := by
  rw [truth_and, rebuildOper_and hr]
  cases pos with
  | true => exact Truth.all_le_all (exists_operand h hsafe)
  | false => exact Truth.all_le_all (exists_kept h hsafe hnone)

theorem moves_or
    (hr : rebuildOper .kOR ti os.reduceOption = some r) (hsafe : safeAll P s pos es = true)
    (hnone : (!pos || noneGone P s es) = true) :
    Truth.Moves pos (P.truth I row (.oper .kOR es ti)) (P.truth I row r) := by
  rw [truth_or, rebuildOper_or hr]
  cases pos with
  | true => exact Truth.any_le_any (exists_kept h hsafe hnone)
  | false => exact Truth.any_le_any (exists_operand h hsafe)

theorem moves_not (hr : rebuildOper .kNOT ti os.reduceOption = some r) (hlen : es.length = 1)
    (hsafe : safeAll P s (!pos) es = true) :
    Truth.Moves pos (P.truth I row (.oper .kNOT es ti)) (P.truth I row r) := by
  obtain ⟨e, rfl⟩ := length_eq_one_iff.mp hlen
  cases h with
  | @cons _ o _ os he htail =>
    cases htail
    cases o with
    | none => cases hr
    | some r' =>
      have hr' : r = .oper .kNOT [r'] ti := by
        simpa [rebuildOper, keepsSingle, eq_comm] using hr
      subst hr'
      rw [truth_not, truth_not]
      exact (he.moves _ (safeAll_iff.mp hsafe e (by simp)) r' rfl).neg

/-- A whole operator is put together again with its value. -/
theorem rebuildOper_whole {op : SQLOps} (hwhole : wholeAll P s es = true)
    (harity : (es.length ≥ 2 || (es.length == 1 && keepsSingle op)) = true) :
    ∃ r, rebuildOper op ti os.reduceOption = some r
      ∧ P.eval I row r = P.eval I row (.oper op es ti) := by
  have hvals : os.reduceOption.map (P.eval I row) = es.map (P.eval I row) := by
    refine Results.map_reduceOption_eq ?_
    exact Results.forall₂_and (wholeAll_iff.mp hwhole) h fun e o hw hex => hex.whole hw
  have hlen : os.reduceOption.length = es.length := by
    simpa using congrArg length hvals
  refine ⟨.oper op os.reduceOption ti, ?_, eval_oper_congr ti hvals⟩
  unfold rebuildOper
  split
  · next heq => simp [← hlen, heq] at harity
  · next e heq =>
      have hk : keepsSingle op = true := by
        simpa [← hlen, heq] using harity
      simp [hk, heq]
  · next heq => rw [heq]

/-- What becomes of an operator without a join condition. -/
theorem extracted_oper {op : SQLOps} (hjoint : ¬ (es.length ≥ 2 ∧ hasJointCondition P es = true)) :
    Extracted P s I row (.oper op es ti) (rebuildOper op ti os.reduceOption) := by
  have hfate : fate P s (.oper op es ti) = operFate op (es.map (fate P s)) := by
    rw [fate, if_neg hjoint, fates_eq_map]
  have hwhole : whole P s (.oper op es ti) = true →
      ∃ r, rebuildOper op ti os.reduceOption = some r
        ∧ P.eval I row r = P.eval I row (.oper op es ti) := by
    intro hw
    simp only [whole, Bool.and_eq_true] at hw
    exact rebuildOper_whole h hw.1.2 hw.2
  have hgone : rebuildOper op ti os.reduceOption = none
      ↔ operFate op (es.map (fate P s)) = .gone := (rebuildOper_fate h).1
  refine ⟨?_, ?_, hwhole, ?_⟩
  · rw [hfate]
    exact hgone
  · rw [hfate]
    exact (rebuildOper_fate h).2
  · intro pos hsafe r hr
    simp only [safe, Bool.or_eq_true, decide_eq_true_eq] at hsafe
    rcases hsafe with (hw | hg) | hlogic
    · exact moves_of_whole (hwhole hw) hr
    · rw [hfate, ← hgone, hr] at hg
      cases hg
    · split at hlogic
      · rw [Bool.and_eq_true] at hlogic
        exact moves_and h hr hlogic.1 hlogic.2
      · rw [Bool.and_eq_true] at hlogic
        exact moves_or h hr hlogic.1 hlogic.2
      · rw [Bool.and_eq_true, beq_iff_eq] at hlogic
        exact moves_not h hr hlogic.1 hlogic.2
      · cases hlogic

end Logic

-- ======== CASE

/-- The result of a branch: both of its parts, or nothing. -/
def branchResult : Option (Rex D) → Option (Rex D) → Option (Rex D × Rex D)
  | some w, some t => some (w, t)
  | _, _ => none

variable {os : List (Option (Rex D × Rex D))} {bs : List (Rex D × Rex D)}

theorem findBranches_forall₂ {rs : List (Rex D × Rex D)} {cols cols' : List ColInfo}
    (h : findBranches P s bs cols = some (rs, cols')) :
    ∃ os : List (Option (Rex D × Rex D)), rs = os.reduceOption
      ∧ Forall₂ (fun b o => ∃ w t c₁ c₂ c₃, findFilterAndProjectFromRex P s b.1 c₁ = some (w, c₂)
            ∧ findFilterAndProjectFromRex P s b.2 c₂ = some (t, c₃)
            ∧ o = branchResult w t) bs os := by
  obtain ⟨os, hos, hall⟩ := Results.forall₂_of_run (g := findBranches P s) (f := fun b c =>
    (findFilterAndProjectFromRex P s b.1 c).bind fun r =>
      (findFilterAndProjectFromRex P s b.2 r.2).bind fun r' =>
        some (branchResult r.1 r'.1, r'.2)) (fun _ => rfl) (fun b bs c => by
      simp only [findBranches, bind_eq_bind, bind_assoc]
      refine bind_congr fun r _ => bind_congr fun r' _ => ?_
      obtain ⟨_ | w, c⟩ := r <;> obtain ⟨_ | t, c⟩ := r' <;> rfl) h
  refine ⟨os, hos, hall.imp fun b o hb => ?_⟩
  obtain ⟨c₁, c₄, hb⟩ := hb
  simp only [bind_eq_some_iff] at hb
  obtain ⟨⟨w, c₂⟩, hw, ⟨t, c₃⟩, ht, heq⟩ := hb
  cases heq
  exact ⟨w, t, c₁, c₂, c₃, hw, ht, rfl⟩

/-- What becomes of a branch. -/
def BranchExtracted (P : Plan) (s : Nat) (I : Interp D) (row : Assignment D)
    (b : Rex D × Rex D) (o : Option (Rex D × Rex D)) : Prop :=
  ∃ w t, Extracted P s I row b.1 w ∧ Extracted P s I row b.2 t ∧ o = branchResult w t

theorem branchResult_eq_none {w t : Option (Rex D)} :
    branchResult w t = none ↔ w = none ∨ t = none := by
  cases w <;> cases t <;> simp [branchResult]

section

variable (h : Forall₂ (BranchExtracted P s I row) bs os)
include h

/-- No branch is left exactly when each has a part that is dropped. -/
theorem branches_isEmpty_iff : os.reduceOption.isEmpty = true ↔ someBranchKept P s bs = false := by
  induction h with
  | nil => simp [someBranchKept]
  | @cons b o bs os hb _ ih =>
    obtain ⟨w, t, hw, ht, rfl⟩ := hb
    have hnone : branchResult w t = none
        ↔ fate P s b.1 = .gone ∨ fate P s b.2 = .gone := by
      rw [branchResult_eq_none, hw.gone, ht.gone]
    cases ho : branchResult w t with
    | none =>
      have hg := hnone.mp ho
      simp only [reduceOption_cons_of_none, ih, someBranchKept]
      rcases hg with hg | hg <;> simp [hg]
    | some r =>
      have hg : ¬ (fate P s b.1 = .gone ∨ fate P s b.2 = .gone) := by
        rw [← hnone, ho]
        simp
      rw [not_or] at hg
      simp [someBranchKept, hg.1, hg.2]

/-- Whole branches are kept with their values. -/
theorem map_branches_eq (hwhole : wholeBranches P s bs = true) :
    os.reduceOption.map (fun b => (P.eval I row b.1, P.eval I row b.2))
      = bs.map fun b => (P.eval I row b.1, P.eval I row b.2) := by
  refine Results.map_reduceOption_eq ?_
  refine Results.forall₂_and (wholeBranches_iff.mp hwhole) h ?_
  intro b o hb hex
  obtain ⟨hw, ht⟩ := hb
  obtain ⟨w, t, hew, het, rfl⟩ := hex
  obtain ⟨rw', rfl, hvw⟩ := hew.whole hw
  obtain ⟨rt', rfl, hvt⟩ := het.whole ht
  exact ⟨(rw', rt'), rfl, by simp [hvw, hvt]⟩

omit h in
theorem eval_case_congr {rs : List (Rex D × Rex D)} {els rels : Rex D}
    (h : rs.map (fun b => (P.eval I row b.1, P.eval I row b.2))
      = bs.map fun b => (P.eval I row b.1, P.eval I row b.2))
    (hels : P.eval I row rels = P.eval I row els) :
    P.eval I row (.case rs rels) = P.eval I row (.case bs els) := by
  simp only [Plan.eval] at h hels ⊢
  simp only [Rex.evalWith, evalBranches_eq_map, h, hels]

/-- What becomes of a CASE whose branches are not all dropped. -/
theorem extracted_case {els : Rex D} {o : Option (Rex D)} (hne : os.reduceOption.isEmpty = false)
    (hels : Extracted P s I row els o) :
    Extracted P s I row (.case bs els) (o.map (.case os.reduceOption)) := by
  have hkept : someBranchKept P s bs = true := by
    by_contra hk
    have := (branches_isEmpty_iff h).mpr (by simpa using hk)
    rw [hne] at this
    cases this
  have hwhole : whole P s (.case bs els) = true →
      ∃ r, o.map (.case os.reduceOption) = some r
        ∧ P.eval I row r = P.eval I row (.case bs els) := by
    intro hw
    simp only [whole, Bool.and_eq_true] at hw
    obtain ⟨re, rfl, hve⟩ := hels.whole hw.2
    exact ⟨_, rfl, eval_case_congr (map_branches_eq h hw.1.2) hve⟩
  refine ⟨?_, ?_, hwhole, ?_⟩
  · simp [fate, hkept, hels.gone]
  · intro r hr
    obtain ⟨re, rfl, rfl⟩ := map_eq_some_iff.mp hr
    have hg : fate P s els ≠ .gone := fun hg => by
      cases hels.gone.mpr hg
    simp [Rex.isOperOrCase, fate, hkept, hg]
  · intro pos hsafe r hr
    simp only [safe, Bool.or_eq_true, decide_eq_true_eq] at hsafe
    rcases hsafe with hw | hg
    · exact moves_of_whole (hwhole hw) hr
    · obtain ⟨re, rfl, rfl⟩ := map_eq_some_iff.mp hr
      have hg' : fate P s els ≠ .gone := fun hg => by
        cases hels.gone.mpr hg
      simp [fate, hkept, hg'] at hg

end

-- ======== the recursion

theorem Extracted.none {e : Rex D} (h : fate P s e = .gone)
    (hw : PushDown.whole P s e = false) : Extracted P s I row e none :=
  .of_eval (by simp [h]) (by simp) (by simp [hw]) (by simp)

/-- What becomes of every expression. -/
theorem extracted_find (hs : P.IsScan s) (I : Interp D) (row : Assignment D)
    (e : Rex D) : ∀ cols o cols', findFilterAndProjectFromRex P s e cols = some (o, cols') →
      Extracted P s I row e o := by
  induction e using Rex.operand_induction with
  | input source index =>
    intro cols o cols' h
    simp only [findFilterAndProjectFromRex] at h
    split at h
    · next hb =>
        obtain ⟨rfl, -⟩ := h
        have hb' : belongs P s source index = true := decide_eq_true hb
        refine .of_eval (by simp [fate, hb']) ?_ (by simp) ?_
        · intro r hr
          cases hr
          simp [Rex.isOperOrCase, fate, hb']
        · intro r hr
          cases hr
          exact inputValue_of_belongs hs row hb'
    · next hb =>
        obtain ⟨rfl, -⟩ := h
        have hb' : belongs P s source index = false := decide_eq_false hb
        exact .none (by simp [fate, hb']) (by simp [whole, hb'])
  | literal v =>
    intro cols o cols' h
    obtain ⟨rfl, -⟩ := h
    exact .of_eval (by simp [fate]) (by simp [fate, Rex.isOperOrCase]) (by simp)
      (by simp)
  | func name es ti ih =>
    intro cols o cols' h
    simp only [findFilterAndProjectFromRex, bind_eq_bind, bind_eq_some_iff] at h
    obtain ⟨⟨rs, tmp⟩, hops, h⟩ := h
    obtain ⟨hlen, hvals⟩ :=
      findFuncOperands_spec (fun e _ => findFuncOper_spec hs I row e) hops
    split at h
    · next hne =>
        obtain ⟨rfl, -⟩ := h
        have hk : funcAllKept P s es = false := by
          rw [← Bool.not_eq_true, ← hlen]
          exact hne
        exact .none (by simp [fate, hk]) (by simp [whole, hk])
    · next heq =>
        obtain ⟨rfl, -⟩ := h
        have hk : funcAllKept P s es = true := hlen.mp (not_not.mp heq)
        refine .of_eval (by simp [fate, hk]) ?_ (by simp) ?_
        · intro r hr
          cases hr
          simp [Rex.isOperOrCase, fate, hk]
        · intro r hr
          cases hr
          exact eval_func_congr name ti (hvals hk)
  | oper op es ti ih =>
    intro cols o cols' h
    simp only [findFilterAndProjectFromRex] at h
    split at h
    · next hj =>
        obtain ⟨rfl, -⟩ := h
        exact .none (by simp only [fate, hj, and_self, if_true])
          (by simp [whole, hj.1, hj.2])
    · next hj =>
        simp only [bind_eq_bind, bind_eq_some_iff] at h
        obtain ⟨⟨rs, cols₁⟩, hops, h⟩ := h
        obtain ⟨rfl, -⟩ := h
        obtain ⟨os, rfl, hall⟩ := Results.forall₂_of_run (g := findOperands P s)
          (fun _ => rfl) (fun _ _ _ => by rw [findOperands]) hops
        refine extracted_oper (Results.forall₂_and ih hall ?_) hj
        intro e o hih hex
        obtain ⟨c, c', hfind⟩ := hex
        exact hih c o c' hfind
  | case bs els ih ihe =>
    intro cols o cols' h
    simp only [findFilterAndProjectFromRex, bind_eq_bind, bind_eq_some_iff] at h
    obtain ⟨⟨rs, cols₁⟩, hops, h⟩ := h
    obtain ⟨os, rfl, hall⟩ := findBranches_forall₂ hops
    have hbr : Forall₂ (BranchExtracted P s I row) bs os := by
      refine Results.forall₂_and ih hall ?_
      intro b o ihb hex
      obtain ⟨ihw, iht⟩ := ihb
      obtain ⟨w, t, c₁, c₂, c₃, hw, ht, rfl⟩ := hex
      exact ⟨w, t, ihw c₁ w c₂ hw, iht c₂ t c₃ ht, rfl⟩
    dsimp only at h
    split at h
    · next hempty =>
        obtain ⟨rfl, -⟩ := h
        have hk := (branches_isEmpty_iff hbr).mp hempty
        refine .none (by simp [fate, hk]) ?_
        by_contra hw
        simp only [whole, Bool.not_eq_false, Bool.and_eq_true] at hw
        have hvals := map_branches_eq hbr hw.1.2
        rw [isEmpty_iff.mp hempty, map_nil, eq_comm, map_eq_nil_iff]
          at hvals
        simp [hvals] at hw
    · next hne =>
        simp only [bind_eq_some_iff] at h
        obtain ⟨⟨oe, cols₂⟩, hels, h⟩ := h
        obtain ⟨rfl, -⟩ := h
        exact extracted_case hbr (by simpa using hne) (ihe cols₁ oe cols₂ hels)
  | ref i =>
    intro cols o cols' h
    obtain ⟨rfl, -⟩ := h
    exact .of_eval (by simp [fate]) (by simp [fate, Rex.isOperOrCase]) (by simp)
      (by simp)
  | subQuery q =>
    intro cols o cols' h
    obtain ⟨rfl, -⟩ := h
    exact .none (by simp [fate]) (by simp [whole])

end Oper

-- ======== the filter

/-- For every condition that is safe for the scan, the pushed filter is
TRUE on every row on which the condition is. -/
theorem pushed_filter_implied {P : Plan} {s : Nat} (hs : P.IsScan s) {cond r : Rex D}
    {cols cols' : List ColInfo}
    (hfind : findFilterAndProjectFromRex P s cond cols = some (some r, cols'))
    (hsafe : safe P s true cond = true) (I : Interp D) (row : Assignment D)
    (htrue : P.truth I row cond = .yes) : P.truth I row r = .yes := by
  have hex := extracted_find hs I row cond cols (some r) cols' hfind
  exact Truth.eq_yes_of_le (hex.moves true hsafe r rfl) htrue

-- ======== two conditions

/-- Comparisons and sums of integers, as SQL has them; a cast to SMALLINT
drops the high bits. -/
def intInterp : Interp Int where
  apply
    | .kEQ, _, [.scalar a, .scalar b] => .bool (a == b)
    | .kNE, _, [.scalar a, .scalar b] => .bool (a != b)
    | .kLT, _, [.scalar a, .scalar b] => .bool (decide (a < b))
    | .kGT, _, [.scalar a, .scalar b] => .bool (decide (a > b))
    | .kLE, _, [.scalar a, .scalar b] => .bool (decide (a ≤ b))
    | .kGE, _, [.scalar a, .scalar b] => .bool (decide (a ≥ b))
    | .kPLUS, _, [.scalar a, .scalar b] => .scalar (a + b)
    | .kCAST, ⟨.kSMALLINT, _, _⟩, [.scalar a] => .scalar (a.bmod (2 ^ 16))
    | .kCAST, _, [v] => v
    | _, _, _ => .null
  func _ _ _ := .null
  ref _ := .null
  subQuery _ := .null

/-- The type of a predicate. -/
def boolType : SQLTypeInfo := ⟨.kBOOLEAN, false, 1⟩

/-- The scans 1 of `a(x, y)` and 2 of `b(y)` below a join. -/
def twoScans : Plan where
  root := .join 3 (.scan 1 ["x", "y"]) (.scan 2 ["y"])
  tables_nodup := by decide
  tables_pos := by decide

/-- A comparison of an input with a number. -/
def compareInput (op : SQLOps) (source index : Nat) (v : Int) : Rex Int :=
  .oper op [.input source index, .literal (.scalar v)] boolType

/-- Of `a.x = 1 OR b.y = 2` the scan of `a` gets `a.x = 1`, and a row with
`a.x = 5` and `b.y = 2` is lost. -/
theorem pushed_filter_not_implied :
    findFilterAndProjectFromRex twoScans 1
        (.oper .kOR [compareInput .kEQ 1 0 1, compareInput .kEQ 2 0 2] boolType) []
        = some (some (compareInput .kEQ 1 0 1), [])
      ∧ twoScans.truth intInterp (fun c => .scalar (if c.1 = 1 then 5 else 2))
          (.oper .kOR [compareInput .kEQ 1 0 1, compareInput .kEQ 2 0 2] boolType)
          = .yes
      ∧ twoScans.truth intInterp (fun c => .scalar (if c.1 = 1 then 5 else 2))
          (compareInput .kEQ 1 0 1) = .no := by
  refine ⟨by rfl, by decide, by decide⟩

/-- Of `(a.x = 1 OR a.y = 3) AND b.y = 2` the scan of `a` gets the
disjunction, which is TRUE with the condition. -/
theorem pushed_filter_implied_conjunct :
    safe twoScans 1 true
        (.oper .kAND [.oper .kOR [compareInput .kEQ 1 0 1, compareInput .kEQ 1 1 3]
          boolType, compareInput .kEQ 2 0 2] boolType) = true
      ∧ twoScans.truth intInterp (fun c => .scalar (if c.1 = 1 then 3 else 2))
          (.oper .kOR [compareInput .kEQ 1 0 1, compareInput .kEQ 1 1 3] boolType)
          = .yes := by
  have hsafe : safe twoScans 1 true
      (.oper .kAND [.oper .kOR [compareInput .kEQ 1 0 1, compareInput .kEQ 1 1 3]
        boolType, compareInput .kEQ 2 0 2] boolType) = true := by decide
  have hfind : findFilterAndProjectFromRex twoScans 1
      (.oper .kAND [.oper .kOR [compareInput .kEQ 1 0 1, compareInput .kEQ 1 1 3]
        boolType, compareInput .kEQ 2 0 2] boolType) []
      = some (some (.oper .kOR [compareInput .kEQ 1 0 1, compareInput .kEQ 1 1 3]
          boolType), []) := by rfl
  have hscan : twoScans.IsScan 1 := ⟨["x", "y"], rfl⟩
  exact ⟨hsafe, pushed_filter_implied hscan hfind hsafe intInterp _ (by decide)⟩

end Compass.PushDown
