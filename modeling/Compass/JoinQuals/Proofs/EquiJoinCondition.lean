/-
What `combine_equi_join_conditions` makes of a list of qualifiers.

The list is cut into runs of equalities over the same two tables, of at
most eight each, and every run becomes one qualifier: itself when it is
alone, and else a tuple equality that has the sides of each member, in
order and without their casts. No member is lost, and none is there twice.

That a side has lost its cast can change what the equality says: where
a.t is a timestamp and b.d a date, `CAST(a.t AS DATE) = b.d` compares
days, and `a.t = b.d` does not. The conjunction is preserved exactly when
no equality that is merged depends on a cast (`combineEquiJoinConditions_preserved_iff`).
-/
import Compass.JoinQuals.Proofs.LeftDeepFilter
import Compass.Lib.Grouping

namespace Compass.JoinQuals

open Compass.Analyzer List Option Prod Bool

-- ======== tables

/-- The operator and the tables of an equality that can be merged: the
range table entry of its left side, and the table and the entry of the
column on its right. -/
def tablesOf : Expr → Option (SQLOps × Finset Int × Int × Int)
  | .binOper _ _ optype qualifier leftOperand rightOperand =>
    let outer := (rteIndices leftOperand).toFinset
    if optype.isEquivalence = true ∧ qualifier = .kONE ∧ outer.card = 1 then
      (columnVarOf (removeCast rightOperand)).map fun inner => (optype, outer, inner)
    else none
  | _ => none

def sameTables (prev crt : Expr) : Bool :=
  match tablesOf prev, tablesOf crt with
  | some tables, some tables' => tables = tables'
  | _, _ => false

/-- The runs of a list of qualifiers. -/
def runs (quals : List Expr) : List (List Expr) :=
  Runs.cut sameTables gMaximumConditionsToCoalesce quals

theorem sameTables_iff {prev crt : Expr} :
    sameTables prev crt = true ↔ ∃ tables, tablesOf prev = some tables
      ∧ tablesOf crt = some tables := by
  unfold sameTables
  split
  · rename_i tables tables' hprev hcrt
    rw [decide_eq_true_eq, hprev, hcrt]
    constructor
    · rintro rfl
      exact ⟨tables, rfl, rfl⟩
    · rintro ⟨_, h, h'⟩
      exact (some.inj h).trans (some.inj h').symm
  · rename_i hnot
    refine iff_of_false false_ne_true ?_
    rintro ⟨tables, hprev, hcrt⟩
    exact hnot tables tables hprev hcrt

variable {optype : SQLOps} {outer : Finset Int} {inner : Int × Int} {quals run : List Expr}
variable {qual : Expr}

theorem tablesOf_eq_some (h : tablesOf qual = some (optype, outer, inner)) :
    ∃ ti containsAgg leftOperand rightOperand,
      qual = .binOper ti containsAgg optype .kONE leftOperand rightOperand
        ∧ optype.isEquivalence = true
        ∧ columnVarOf (removeCast rightOperand) = some inner := by
  unfold tablesOf at h
  split at h
  · rename_i ti containsAgg op qualifier leftOperand rightOperand
    dsimp only at h
    split at h
    · rename_i hcond
      obtain ⟨hop, rfl, -⟩ := hcond
      obtain ⟨inner', hinner, heq⟩ := map_eq_some_iff.mp h
      cases heq
      exact ⟨ti, containsAgg, leftOperand, rightOperand, rfl, hop, hinner⟩
    · cases h
  · cases h

theorem canCombineWith_spec {crt prev : Expr} (hcrt : isScalar crt = true)
    (hprev : isScalar prev = true) :
    canCombineWith crt prev = .ok (sameTables prev crt) := by
  unfold canCombineWith
  split
  · rename_i crtOptype crtQualifier crtLeft crtRight _ _ prevOptype prevQualifier prevLeft prevRight
    rw [isScalar, and_eq_true_iff] at hcrt hprev
    rw [allRangeTableIndex_spec hcrt.1, allRangeTableIndex_spec hprev.1]
    simp only [sameTables, tablesOf]
    generalize columnVarOf (removeCast crtRight) = crtInner
    generalize columnVarOf (removeCast prevRight) = prevInner
    simp only [bind, Except.bind, pure, Except.pure]
    by_cases hcrtOp : crtOptype.isEquivalence = true ∧ crtQualifier = .kONE
    · by_cases hprevOp : prevOptype.isEquivalence = true ∧ prevQualifier = .kONE
      · cases crtInner <;> cases prevInner <;> grind
      · grind
    · grind
  · rename_i hnot
    have hfalse : sameTables prev crt = false := by
      rw [eq_false_iff]
      intro h
      obtain ⟨⟨optype, outer, inner⟩, hprev', hcrt'⟩ := sameTables_iff.mp h
      obtain ⟨_, _, _, _, rfl, -⟩ := tablesOf_eq_some hprev'
      obtain ⟨_, _, _, _, rfl, -⟩ := tablesOf_eq_some hcrt'
      exact hnot _ _ _ _ _ _ _ _ _ _ _ _ rfl rfl
    rw [hfalse]

-- ======== runs

/-- All members of a run of more than one are over the same tables. -/
theorem tables_of_mem_runs (h : run ∈ runs quals) (hlength : 2 ≤ run.length) :
    ∃ tables, ∀ qual ∈ run, tablesOf qual = some tables := by
  have hchain := Runs.isChain_of_mem_cut h
  match run, hlength with
  | first :: second :: rest, _ =>
    obtain ⟨tables, hfirst, -⟩ := sameTables_iff.mp (isChain_cons_cons.mp hchain).1
    refine ⟨tables, forall_mem_cons.mpr ⟨hfirst, ?_⟩⟩
    refine IsChain.cons_induction (tablesOf · = some tables) _ hchain ?_ hfirst
    intro prev crt hsame hprev
    obtain ⟨tables', hprev', hcrt⟩ := sameTables_iff.mp hsame
    rw [hcrt, ← hprev', hprev]

/-- The loop makes one qualifier of each run. -/
theorem combineLoop_eq_mapM (hne : run ≠ []) (hrun : ∀ qual ∈ run, isScalar qual = true)
    (hquals : ∀ qual ∈ quals, isScalar qual = true) :
    combineLoop run quals
      = (Runs.cutFrom sameTables gMaximumConditionsToCoalesce run quals).mapM
          makeCompositeEquals := by
  induction quals generalizing run with
  | nil =>
    rw [combineLoop, if_neg (by simpa using hne), Runs.cutFrom, mapM_cons, mapM_nil]
    rfl
  | cons qual rest ih =>
    rw [forall_mem_cons] at hquals
    have hback := getLast?_eq_some_getLast hne
    have hscalar := hrun _ (getLast_mem hne)
    have hone : ∀ q ∈ [qual], isScalar q = true := by simpa using hquals.1
    rw [combineLoop, hback]
    dsimp only
    rw [canCombineWith_spec hquals.1 hscalar, Runs.cutFrom, Runs.goesOn, hback]
    by_cases hfull : run.length ≥ gMaximumConditionsToCoalesce
    · rw [if_pos hfull, decide_eq_false (Nat.not_lt.mpr hfull)]
      show (do let e ← makeCompositeEquals run; _) = _
      rw [ih (cons_ne_nil _ _) hone hquals.2]
      exact (mapM_cons ..).symm
    · rw [if_neg hfull, decide_eq_true (Nat.lt_of_not_ge hfull)]
      show (if sameTables (run.getLast hne) qual = true then _ else _)
        = mapM _ (if sameTables (run.getLast hne) qual = true then _ else _)
      split
      · refine ih (by simp) ?_ hquals.2
        rw [forall_mem_append]
        exact ⟨hrun, hone⟩
      · rw [ih (cons_ne_nil _ _) hone hquals.2]
        exact (mapM_cons ..).symm

theorem combineEquiJoinConditions_eq_mapM (h : ∀ qual ∈ quals, isScalar qual = true) :
    combineEquiJoinConditions quals = (runs quals).mapM makeCompositeEquals := by
  cases quals with
  | nil => rfl
  | cons qual rest =>
    rw [forall_mem_cons] at h
    exact combineLoop_eq_mapM (cons_ne_nil _ _) (by simpa using h.1) h.2

-- ======== what is returned

def sides : Expr → Option (Expr × Expr)
  | .binOper _ _ _ _ leftOperand rightOperand =>
    some (removeCast leftOperand, removeCast rightOperand)
  | _ => none

def withoutCasts : Expr → Expr
  | .binOper ti containsAgg optype qualifier leftOperand rightOperand =>
    .binOper ti containsAgg optype qualifier (removeCast leftOperand) (removeCast rightOperand)
  | qual => qual

variable {Row V : Type}

/-- A component of a tuple equality is one of the equalities that were
merged: it has its sides, and is as true on every row. -/
structure Component (rows : Row → RowSemantics V) (optype : SQLOps) (qual : Expr)
    (c : Expr × Expr) : Prop where
  sides : sides qual = some c
  truth : ∀ row, (rows row).equality optype c.1 c.2 = (rows row).truth qual

/-- A returned qualifier stands for a run: for one qualifier that qualifier,
and for more, which are over the same two tables, the equality of the
tuples of their sides. -/
inductive StandsFor (rows : Row → RowSemantics V) : (run : List Expr) → (qual : Expr) → Prop
  | alone (qual : Expr) : StandsFor rows [qual] qual
  | merged {run : List Expr} {optype : SQLOps} {outer : Finset Int} {inner : Int × Int}
      {components : List (Expr × Expr)} (ti : Analyzer.SQLTypeInfo)
      (length : 2 ≤ run.length)
      (tables : ∀ qual ∈ run, tablesOf qual = some (optype, outer, inner))
      (sides : List.Forall₂ (Component rows optype) run components) :
      StandsFor rows run
        (.binOper ti false optype .kONE (.expressionTuple .null (components.map Prod.fst))
          (.expressionTuple .null (components.map Prod.snd)))

/-- What is to hold of the returned qualifiers: each stands for a run, the
runs make up the list, and the conjunction is as true on every row. -/
structure Preserved (rows : Row → RowSemantics V) (quals result : List Expr) : Prop where
  runs : List.Forall₂ (StandsFor rows) (runs quals) result
  once : (JoinQuals.runs quals).flatten = quals
  conjunction : ∀ row, Truth.all (result.map (rows row).truth)
    = Truth.all (quals.map (rows row).truth)

/-- No equality that is merged depends on a cast. -/
def CastsKeepTruth (rows : Row → RowSemantics V) (quals : List Expr) : Prop :=
  ∀ run ∈ runs quals, 2 ≤ run.length →
    ∀ qual ∈ run, ∀ row, (rows row).truth (withoutCasts qual) = (rows row).truth qual

-- ======== one returned qualifier

theorem equalities_of_columnVarOf {S : RowSemantics V} {lhs rhs : Expr}
    (h : columnVarOf rhs = some inner) :
    S.equalities optype lhs rhs = S.equality optype lhs rhs := by
  unfold RowSemantics.equalities
  split
  · cases h
  · rfl

/-- A qualifier without its casts is the equality of its sides. -/
theorem sides_of_tablesOf (h : tablesOf qual = some (optype, outer, inner)) :
    ∃ c, sides qual = some c ∧ ∀ S : RowSemantics V,
      S.truth (withoutCasts qual) = S.equality optype c.1 c.2 := by
  obtain ⟨ti, containsAgg, leftOperand, rightOperand, rfl, hop, hinner⟩ := tablesOf_eq_some h
  refine ⟨_, rfl, fun S => ?_⟩
  rw [withoutCasts, S.truth_equality hop, equalities_of_columnVarOf hinner]

theorem compositeSides_spec (h : ∀ qual ∈ run, tablesOf qual = some (optype, outer, inner)) :
    ∃ notNull components, compositeSides run = .ok (notNull, components.map fst, components.map snd)
        ∧ Forall₂ (fun qual c => sides qual = some c) run components := by
  induction run with
  | nil => exact ⟨true, [], rfl, .nil⟩
  | cons qual rest ih =>
    rw [forall_mem_cons] at h
    obtain ⟨notNull, components, heq, hsides⟩ := ih h.2
    obtain ⟨ti, containsAgg, leftOperand, rightOperand, rfl, -, -⟩ := tablesOf_eq_some h.1
    refine ⟨ti.notnull && notNull,
      (removeCast leftOperand, removeCast rightOperand) :: components, ?_, .cons rfl hsides⟩
    rw [compositeSides, heq]
    rfl

/-- Of a run of more than one the tuple equality is made, with the sides of
its members. -/
theorem makeCompositeEquals_merged (h : run ∈ runs quals) (hlength : 2 ≤ run.length) :
    ∃ ti optype outer inner components, (∀ qual ∈ run, tablesOf qual = some (optype, outer, inner))
        ∧ Forall₂ (fun qual c => sides qual = some c) run components
        ∧ makeCompositeEquals run = .ok (.binOper ti false optype .kONE
            (.expressionTuple .null (components.map fst))
            (.expressionTuple .null (components.map snd))) := by
  obtain ⟨⟨optype, outer, inner⟩, htables⟩ := tables_of_mem_runs h hlength
  obtain ⟨notNull, components, heq, hsides⟩ := compositeSides_spec htables
  refine ⟨.plain .kBOOLEAN notNull, optype, outer, inner, components, htables, hsides, ?_⟩
  match run, hlength with
  | first :: second :: rest, _ =>
    obtain ⟨ti, containsAgg, leftOperand, rightOperand, rfl, -, -⟩ :=
      tablesOf_eq_some (htables first mem_cons_self)
    rw [makeCompositeEquals, makeCompositeEqualsImpl, heq]
    · rfl
    · intro qual hqual
      cases hqual

variable {rows : Row → RowSemantics V}

/-- The members of a run and the sides of the tuple equality, when no member
depends on a cast. -/
theorem components_of_sides {components : List (Expr × Expr)}
    (htables : ∀ qual ∈ run, tablesOf qual = some (optype, outer, inner))
    (hcasts : ∀ qual ∈ run, ∀ row, (rows row).truth (withoutCasts qual) = (rows row).truth qual)
    (hsides : Forall₂ (fun qual c => sides qual = some c) run components) :
    Forall₂ (Component rows optype) run components := by
  refine ((forall₂_and_left run components).mpr ⟨fun qual hqual =>
    And.intro (htables qual hqual) (hcasts qual hqual), hsides⟩).imp ?_
  rintro qual c ⟨⟨htables, hcasts⟩, hsides⟩
  obtain ⟨c', hsides', htruth⟩ := sides_of_tablesOf (V := V) htables
  rw [hsides] at hsides'
  obtain rfl := some.inj hsides'
  exact ⟨hsides, fun row => (htruth (rows row)).symm.trans (hcasts row)⟩

theorem makeCompositeEquals_standsFor (hcasts : CastsKeepTruth rows quals) (h : run ∈ runs quals) :
    ∃ qual, makeCompositeEquals run = .ok qual ∧ StandsFor rows run qual := by
  by_cases hlength : 2 ≤ run.length
  · obtain ⟨ti, optype, outer, inner, components, htables, hsides, heq⟩ :=
      makeCompositeEquals_merged h hlength
    exact ⟨_, heq, .merged ti hlength htables
      (components_of_sides htables (hcasts run h hlength) hsides)⟩
  · have hpos := length_pos_of_ne_nil (Runs.ne_nil_of_mem_cut h)
    obtain ⟨qual, rfl⟩ := length_eq_one_iff.mp (show run.length = 1 by omega)
    exact ⟨qual, rfl, .alone qual⟩

/-- What stands for a run is as true as its conjunction. -/
theorem StandsFor.truth (h : StandsFor rows run qual) (row : Row) :
    (rows row).truth qual = Truth.all (run.map (rows row).truth) := by
  cases h with
  | alone => simp
  | @merged _ optype outer inner components ti hlength htables hsides =>
    have hop : optype.isEquivalence = true := by
      obtain ⟨first, hfirst⟩ := exists_mem_of_length_pos (show 0 < run.length by omega)
      obtain ⟨_, _, _, _, -, hop, -⟩ := tablesOf_eq_some (htables first hfirst)
      exact hop
    rw [RowSemantics.truth_equality _ hop, RowSemantics.equalities, zipWith_map, zipWith_self]
    congr 1
    clear hlength htables
    induction hsides with
    | nil => rfl
    | cons hc _ ih => rw [map_cons, map_cons, hc.truth row, ih]

/-- A tuple equality has, for each member of its run, the equality of the
member's sides. -/
theorem StandsFor.castsKeepTruth (h : StandsFor rows run qual) (hlength : 2 ≤ run.length) :
    ∀ member ∈ run, ∀ row,
      (rows row).truth (withoutCasts member) = (rows row).truth member := by
  cases h with
  | alone => exact absurd hlength (by simp)
  | @merged _ optype outer inner components ti _ htables hsides =>
    intro member hmem row
    obtain ⟨i, hi, rfl⟩ := mem_iff_getElem.mp hmem
    have hc := (forall₂_iff_get.mp hsides).2 i hi (hsides.length_eq ▸ hi)
    obtain ⟨c, hsides', htruth⟩ := sides_of_tablesOf (V := V) (htables _ hmem)
    rw [get_eq_getElem] at hc
    obtain rfl := some.inj (hsides'.symm.trans hc.sides)
    rw [htruth, hc.truth row]

-- ======== the list

theorem mapM_eq_ok {α β ε : Type} {f : α → Except ε β} {R : α → β → Prop} {as : List α}
    (h : ∀ a ∈ as, ∃ b, f a = .ok b ∧ R a b) :
    ∃ bs, as.mapM f = .ok bs ∧ Forall₂ R as bs := by
  induction as with
  | nil => exact ⟨[], rfl, .nil⟩
  | cons a as ih =>
    rw [forall_mem_cons] at h
    obtain ⟨b, hb, hrel⟩ := h.1
    obtain ⟨bs, hbs, hrels⟩ := ih h.2
    refine ⟨b :: bs, ?_, .cons hrel hrels⟩
    rw [mapM_cons, hb, hbs]
    rfl

theorem conjunction_of_standsFor {rs : List (List Expr)} {result : List Expr}
    (h : Forall₂ (StandsFor rows) rs result) (row : Row) :
    Truth.all (result.map (rows row).truth) = Truth.all (rs.flatten.map (rows row).truth) := by
  induction h with
  | nil => rfl
  | cons hrun _ ih =>
    rw [map_cons, Truth.all_cons, flatten_cons, map_append, Truth.all_append, hrun.truth row, ih]

/-- The conjunction is preserved exactly when no equality that is merged
depends on a cast. -/
theorem combineEquiJoinConditions_preserved_iff (rows : Row → RowSemantics V)
    {quals : List Expr} (h : ∀ qual ∈ quals, isScalar qual = true) :
    (∃ result, combineEquiJoinConditions quals = .ok result ∧ Preserved rows quals result)
      ↔ CastsKeepTruth rows quals := by
  constructor
  · rintro ⟨result, -, hruns, -, -⟩ run hmem hlength
    obtain ⟨i, hi, rfl⟩ := mem_iff_getElem.mp hmem
    have hstands := (forall₂_iff_get.mp hruns).2 i hi (hruns.length_eq ▸ hi)
    exact hstands.castsKeepTruth hlength
  · intro hcasts
    obtain ⟨result, heq, hruns⟩ := mapM_eq_ok fun run hrun =>
      makeCompositeEquals_standsFor hcasts hrun
    refine ⟨result, (combineEquiJoinConditions_eq_mapM h).trans heq, hruns,
      Runs.flatten_cut quals, fun row => ?_⟩
    rw [conjunction_of_standsFor hruns row]
    unfold runs
    rw [Runs.flatten_cut]

-- ======== a timestamp and a date

def timestamp : Expr := .columnVar (.plain .kTIMESTAMP false) 1 1 0

def date : Expr := .columnVar (.plain .kDATE false) 2 1 1

/-- `CAST(a.t AS DATE) = b.d`. -/
def onTheDay : Expr :=
  .binOper (.plain .kBOOLEAN false) false .kEQ .kONE
    (.uoper (.plain .kDATE false) false .kCAST timestamp) date

/-- `a.k = b.k`. -/
def sameKey : Expr :=
  .binOper (.plain .kBOOLEAN false) false .kEQ .kONE
    (.columnVar (.plain .kINT false) 1 2 0) (.columnVar (.plain .kINT false) 2 2 1)

/-- An hour after midnight, the day, and a key that is the same: in seconds. -/
def hourAfterMidnight : RowSemantics Int where
  value
    | .columnVar _ tableId columnId _ =>
      if columnId = 2 then some 7 else if tableId = 1 then some 90000 else some 86400
    | .uoper _ _ .kCAST (.columnVar ..) => some 86400
    | _ => none
  eq := (· == ·)
  predicate _ := .unknown

/-- The two equalities are true of the row, and the tuple equality is not. -/
theorem onTheDay_mergedWithoutCast :
    ¬ ∃ result, combineEquiJoinConditions [onTheDay, sameKey] = .ok result
      ∧ Truth.all (result.map hourAfterMidnight.truth)
        = Truth.all ([onTheDay, sameKey].map hourAfterMidnight.truth) := by
  rintro ⟨result, heq, hconj⟩
  have hmerged : combineEquiJoinConditions [onTheDay, sameKey]
      = .ok [.binOper (.plain .kBOOLEAN false) false .kEQ .kONE
          (.expressionTuple .null [timestamp, .columnVar (.plain .kINT false) 1 2 0])
          (.expressionTuple .null [date, .columnVar (.plain .kINT false) 2 2 1])] := rfl
  obtain rfl := Except.ok.inj (hmerged.symm.trans heq)
  exact absurd hconj (by decide)

/-- `a.n = b.n`. -/
def sameName : Expr :=
  .binOper (.plain .kBOOLEAN false) false .kEQ .kONE
    (.columnVar (.plain .kINT false) 1 3 0) (.columnVar (.plain .kINT false) 2 3 1)

/-- `CAST(a.t AS DATE) = c.d`. -/
def onAnotherDay : Expr :=
  .binOper (.plain .kBOOLEAN false) false .kEQ .kONE
    (.uoper (.plain .kDATE false) false .kCAST timestamp) (.columnVar (.plain .kDATE false) 3 1 2)

/-- Two equalities of one pair of tables are merged, the one with the cast is
of another pair. -/
theorem combineEquiJoinConditions_preserved_twoRuns :
    ∃ result, combineEquiJoinConditions [sameKey, sameName, onAnotherDay] = .ok result
      ∧ Preserved (fun _ : Unit => hourAfterMidnight) [sameKey, sameName, onAnotherDay] result := by
  refine (combineEquiJoinConditions_preserved_iff (fun _ : Unit => hourAfterMidnight)
    (by decide)).2 ?_
  have hruns : runs [sameKey, sameName, onAnotherDay] = [[sameKey, sameName], [onAnotherDay]] :=
    rfl
  intro run hrun hlength qual hqual _
  rw [hruns, mem_cons, mem_singleton] at hrun
  rcases hrun with rfl | rfl
  · rw [mem_cons, mem_singleton] at hqual
    rcases hqual with rfl | rfl <;> rfl
  · exact absurd hlength (by decide)

end Compass.JoinQuals
