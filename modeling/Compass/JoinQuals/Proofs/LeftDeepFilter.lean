/-
What the visitors of range table indices find.

A scalar is an expression of the classes that the translator makes of a
condition: no aggregate, no iterator, no Var and no subquery, and every
CASE has its ELSE. On a scalar a visitor returns, and what it returns is
put together from the columns in the way that it puts results together
(`visit_spec`): the greatest index is within a bound exactly when all
indices are, and the set has exactly the indices.

Where `translateLeftDeepJoinFilter` places the inner qualifiers.

Only the levels without an outer condition take any (`InnerLevel`). The
invariant of the loop over the levels is that the visited qualifiers are
those which some such level before could take. So each is placed once, on
the first such level at which its entries are available
(`translateLeftDeepJoinFilter_places`). A LEFT level is passed over even
when it is the first one at which they are: its own qualifiers say which
rows match, and an inner qualifier has to wait for the rows that come out
of it.
-/
import Mathlib.Order.Bounds.Basic
import Mathlib.Order.Nat
import Compass.JoinQuals.JoinConditions

namespace Compass.JoinQuals

open Compass.Analyzer Bool
open ScalarExprVisitor

-- ======== scalars

mutual

def isScalar : Expr → Bool
  | .columnVar .. | .constant .. => true
  | .expressionTuple _ tuple => areScalars tuple
  | .uoper _ _ _ operand => isScalar operand
  | .binOper _ _ _ _ leftOperand rightOperand => isScalar leftOperand && isScalar rightOperand
  | .inValues _ arg valueList => isScalar arg && areScalars valueList
  | .inIntegerSet _ arg _ => isScalar arg
  | .charLengthExpr _ arg _ => isScalar arg
  | .likeExpr _ arg like escapeExpr _ _ =>
    isScalar arg && isScalar like && isScalarEscape escapeExpr
  | .regexpExpr _ arg patternExpr escapeExpr =>
    isScalar arg && isScalar patternExpr && isScalarEscape escapeExpr
  | .caseExpr _ _ exprPairList elseExpr => areScalarPairs exprPairList && isScalarElse elseExpr
  | .datetruncExpr _ _ _ fromExpr => isScalar fromExpr
  | .extractExpr _ _ _ fromExpr => isScalar fromExpr
  | .functionOper _ _ args => areScalars args
  | .functionOperWithCustomTypeHandling _ _ args => areScalars args
  | .datediffExpr _ _ start stop => isScalar start && isScalar stop
  | .dateaddExpr _ _ number datetime => isScalar number && isScalar datetime
  | .likelihoodExpr _ arg _ => isScalar arg
  | .var .. | .aggExpr .. | .iterExpr .. | .subquery .. | .ndvEstimator .. => false

def areScalars : List Expr → Bool
  | [] => true
  | e :: es => isScalar e && areScalars es

def areScalarPairs : List (Expr × Expr) → Bool
  | [] => true
  | (e₁, e₂) :: pairs => isScalar e₁ && isScalar e₂ && areScalarPairs pairs

def isScalarEscape : Option (Addr × Expr) → Bool
  | none => true
  | some (_, e) => isScalar e

def isScalarElse : Option Expr → Bool
  | none => false
  | some e => isScalar e

end

mutual

/-- The range table entries of the columns of a scalar. -/
def rteIndices : Expr → List Int
  | .columnVar _ _ _ rteIdx => [rteIdx]
  | .expressionTuple _ tuple => rteIndicesList tuple
  | .uoper _ _ _ operand => rteIndices operand
  | .binOper _ _ _ _ leftOperand rightOperand => rteIndices leftOperand ++ rteIndices rightOperand
  | .inValues _ arg valueList => rteIndices arg ++ rteIndicesList valueList
  | .inIntegerSet _ arg _ => rteIndices arg
  | .charLengthExpr _ arg _ => rteIndices arg
  | .likeExpr _ arg like escapeExpr _ _ =>
    rteIndices arg ++ rteIndices like ++ rteIndicesEscape escapeExpr
  | .regexpExpr _ arg patternExpr escapeExpr =>
    rteIndices arg ++ rteIndices patternExpr ++ rteIndicesEscape escapeExpr
  | .caseExpr _ _ exprPairList elseExpr => rteIndicesPairs exprPairList ++ rteIndicesElse elseExpr
  | .datetruncExpr _ _ _ fromExpr => rteIndices fromExpr
  | .extractExpr _ _ _ fromExpr => rteIndices fromExpr
  | .functionOper _ _ args => rteIndicesList args
  | .functionOperWithCustomTypeHandling _ _ args => rteIndicesList args
  | .datediffExpr _ _ start stop => rteIndices start ++ rteIndices stop
  | .dateaddExpr _ _ number datetime => rteIndices number ++ rteIndices datetime
  | .likelihoodExpr _ arg _ => rteIndices arg
  | .constant .. | .var .. | .aggExpr .. | .iterExpr .. | .subquery .. | .ndvEstimator .. => []

def rteIndicesList : List Expr → List Int
  | [] => []
  | e :: es => rteIndices e ++ rteIndicesList es

def rteIndicesPairs : List (Expr × Expr) → List Int
  | [] => []
  | (e₁, e₂) :: pairs => rteIndices e₁ ++ rteIndices e₂ ++ rteIndicesPairs pairs

def rteIndicesEscape : Option (Addr × Expr) → List Int
  | none => []
  | some (_, e) => rteIndices e

def rteIndicesElse : Option Expr → List Int
  | none => []
  | some e => rteIndices e

end

-- ======== results

/-- What a result says of the indices, kept by what the visitor does. -/
structure Sums {T : Type} (v : ScalarExprVisitor T) (R : T → List Int → Prop) : Prop where
  default : R v.defaultResult []
  column : ∀ rteIdx, R (v.visitColumnVar rteIdx) [rteIdx]
  aggregate : ∀ {a b xs ys}, R a xs → R b ys → R (v.aggregateResult a b) (xs ++ ys)

section

variable {T : Type} {v : ScalarExprVisitor T} {R : T → List Int → Prop} (hR : Sums v R)
include hR

theorem Sums.one {b : T} {ys : List Int} (h : R b ys) :
    R (v.aggregateResult v.defaultResult b) ys :=
  hR.aggregate hR.default h

theorem Sums.two {a b : T} {xs ys : List Int} (h : R a xs) (h' : R b ys) :
    R (v.aggregateResult (v.aggregateResult v.defaultResult a) b) (xs ++ ys) :=
  hR.aggregate (hR.one h) h'

mutual

/-- A visit of a scalar returns what its columns come to. -/
theorem visit_spec : ∀ e : Expr, isScalar e = true →
    ∃ r, v.visit e = .ok r ∧ R r (rteIndices e)
  | .columnVar _ _ _ rteIdx, _ => ⟨_, rfl, hR.column rteIdx⟩
  | .constant .., _ => ⟨_, rfl, hR.default⟩
  | .expressionTuple _ tuple, h => visitList_spec tuple h hR.default
  | .uoper _ _ _ operand, h => by
      obtain ⟨r, hr, hR'⟩ := visit_spec operand h
      exact ⟨_, by simp only [visit, hr]; rfl, hR.one hR'⟩
  | .binOper _ _ _ _ leftOperand rightOperand, h => by
      rw [isScalar, and_eq_true] at h
      obtain ⟨a, ha, hA⟩ := visit_spec leftOperand h.1
      obtain ⟨b, hb, hB⟩ := visit_spec rightOperand h.2
      exact ⟨_, by simp only [visit, ha, hb]; rfl, hR.two hA hB⟩
  | .inValues _ arg valueList, h => by
      rw [isScalar, and_eq_true] at h
      obtain ⟨a, ha, hA⟩ := visit_spec arg h.1
      obtain ⟨r, hr, hR'⟩ := visitList_spec valueList h.2 hA
      exact ⟨r, by simp only [visit, ha]; exact hr, hR'⟩
  | .inIntegerSet _ arg _, h => visit_spec arg h
  | .charLengthExpr _ arg _, h => by
      obtain ⟨r, hr, hR'⟩ := visit_spec arg h
      exact ⟨_, by simp only [visit, hr]; rfl, hR.one hR'⟩
  | .likeExpr _ arg like escapeExpr _ _, h => by
      rw [isScalar, and_eq_true, and_eq_true] at h
      obtain ⟨a, ha, hA⟩ := visit_spec arg h.1.1
      obtain ⟨b, hb, hB⟩ := visit_spec like h.1.2
      obtain ⟨r, hr, hR'⟩ := visitEscape_spec escapeExpr h.2 (hR.two hA hB)
      exact ⟨r, by simp only [visit, ha, hb]; exact hr, hR'⟩
  | .regexpExpr _ arg patternExpr escapeExpr, h => by
      rw [isScalar, and_eq_true, and_eq_true] at h
      obtain ⟨a, ha, hA⟩ := visit_spec arg h.1.1
      obtain ⟨b, hb, hB⟩ := visit_spec patternExpr h.1.2
      obtain ⟨r, hr, hR'⟩ := visitEscape_spec escapeExpr h.2 (hR.two hA hB)
      exact ⟨r, by simp only [visit, ha, hb]; exact hr, hR'⟩
  | .caseExpr _ _ exprPairList none, h => by
      rw [isScalar, and_eq_true] at h
      exact nomatch h.2
  | .caseExpr _ _ exprPairList (some elseExpr), h => by
      rw [isScalar, and_eq_true] at h
      obtain ⟨a, ha, hA⟩ := visitPairs_spec exprPairList h.1 hR.default
      obtain ⟨b, hb, hB⟩ := visit_spec elseExpr h.2
      exact ⟨_, by simp only [visit, visitElse, ha, hb]; rfl, hR.aggregate hA hB⟩
  | .datetruncExpr _ _ _ fromExpr, h => by
      obtain ⟨r, hr, hR'⟩ := visit_spec fromExpr h
      exact ⟨_, by simp only [visit, hr]; rfl, hR.one hR'⟩
  | .extractExpr _ _ _ fromExpr, h => by
      obtain ⟨r, hr, hR'⟩ := visit_spec fromExpr h
      exact ⟨_, by simp only [visit, hr]; rfl, hR.one hR'⟩
  | .functionOper _ _ args, h => visitList_spec args h hR.default
  | .functionOperWithCustomTypeHandling _ _ args, h => visitList_spec args h hR.default
  | .datediffExpr _ _ start stop, h => by
      rw [isScalar, and_eq_true] at h
      obtain ⟨a, ha, hA⟩ := visit_spec start h.1
      obtain ⟨b, hb, hB⟩ := visit_spec stop h.2
      exact ⟨_, by simp only [visit, ha, hb]; rfl, hR.two hA hB⟩
  | .dateaddExpr _ _ number datetime, h => by
      rw [isScalar, and_eq_true] at h
      obtain ⟨a, ha, hA⟩ := visit_spec number h.1
      obtain ⟨b, hb, hB⟩ := visit_spec datetime h.2
      exact ⟨_, by simp only [visit, ha, hb]; rfl, hR.two hA hB⟩
  | .likelihoodExpr _ arg _, h => visit_spec arg h
  | .var .., h | .aggExpr .., h | .iterExpr .., h | .subquery .., h | .ndvEstimator .., h =>
    nomatch h

theorem visitList_spec : ∀ es : List Expr, areScalars es = true → ∀ {a xs}, R a xs →
    ∃ r, v.visitList a es = .ok r ∧ R r (xs ++ rteIndicesList es)
  | [], _, a, xs, hA => ⟨a, rfl, by rwa [rteIndicesList, List.append_nil]⟩
  | e :: es, h, a, xs, hA => by
      rw [areScalars, and_eq_true] at h
      obtain ⟨b, hb, hB⟩ := visit_spec e h.1
      obtain ⟨r, hr, hR'⟩ := visitList_spec es h.2 (hR.aggregate hA hB)
      rw [List.append_assoc] at hR'
      exact ⟨r, by simp only [visitList, hb]; exact hr, hR'⟩

theorem visitPairs_spec : ∀ pairs : List (Expr × Expr), areScalarPairs pairs = true →
    ∀ {a xs}, R a xs → ∃ r, v.visitPairs a pairs = .ok r ∧ R r (xs ++ rteIndicesPairs pairs)
  | [], _, a, xs, hA => ⟨a, rfl, by rwa [rteIndicesPairs, List.append_nil]⟩
  | (e₁, e₂) :: pairs, h, a, xs, hA => by
      rw [areScalarPairs, and_eq_true, and_eq_true] at h
      obtain ⟨b, hb, hB⟩ := visit_spec e₁ h.1.1
      obtain ⟨c, hc, hC⟩ := visit_spec e₂ h.1.2
      obtain ⟨r, hr, hR'⟩ := visitPairs_spec pairs h.2 (hR.aggregate (hR.aggregate hA hB) hC)
      rw [List.append_assoc, List.append_assoc, ← List.append_assoc (rteIndices e₁)] at hR'
      exact ⟨r, by simp only [visitPairs, hb, hc]; exact hr, hR'⟩

theorem visitEscape_spec : ∀ escapeExpr : Option (Addr × Expr), isScalarEscape escapeExpr = true →
    ∀ {a xs}, R a xs →
      ∃ r, v.visitEscape a escapeExpr = .ok r ∧ R r (xs ++ rteIndicesEscape escapeExpr)
  | none, _, a, xs, hA => ⟨a, rfl, by rwa [rteIndicesEscape, List.append_nil]⟩
  | some (_, e), h, a, xs, hA => by
      obtain ⟨b, hb, hB⟩ := visit_spec e h
      exact ⟨_, by simp only [visitEscape, hb]; rfl, hR.aggregate hA hB⟩

end

end

-- ======== the visitors

/-- The greatest index is within a bound exactly when every index is, and
not negative when none is. -/
theorem max_sums : Sums maxRangeTableIndexVisitor fun r xs =>
    (∀ bound : Nat, r ≤ bound ↔ ∀ x ∈ xs, x ≤ bound) ∧ ((∀ x ∈ xs, 0 ≤ x) → 0 ≤ r) where
  default := ⟨fun bound => by simp [maxRangeTableIndexVisitor], fun _ => le_rfl⟩
  column := fun rteIdx => by simp [maxRangeTableIndexVisitor]
  aggregate := by
    rintro a b xs ys ⟨ha, ha'⟩ ⟨hb, hb'⟩
    constructor
    · intro bound
      rw [List.forall_mem_append, ← ha, ← hb]
      exact max_le_iff
    · intro h
      rw [List.forall_mem_append] at h
      exact le_max_of_le_left (ha' h.1)

theorem maxRangeTableIndex_spec {e : Expr} (h : isScalar e = true)
    (hnonneg : ∀ i ∈ rteIndices e, 0 ≤ i) :
    ∃ r, maxRangeTableIndexVisitor.visit e = .ok r ∧ 0 ≤ r
      ∧ ∀ bound : Nat, r ≤ bound ↔ ∀ i ∈ rteIndices e, i ≤ bound := by
  obtain ⟨r, hr, hbound, hpos⟩ := visit_spec max_sums e h
  exact ⟨r, hr, hpos hnonneg, hbound⟩

theorem all_sums : Sums allRangeTableIndexVisitor fun r xs => r = xs.toFinset where
  default := rfl
  column := fun _ => rfl
  aggregate := by
    rintro a b xs ys rfl rfl
    exact List.toFinset_append.symm

theorem allRangeTableIndex_spec {e : Expr} (h : isScalar e = true) :
    allRangeTableIndexVisitor.visit e = .ok (rteIndices e).toFinset := by
  obtain ⟨r, hr, rfl⟩ := visit_spec all_sums e h
  exact hr

end Compass.JoinQuals

namespace Compass.JoinQuals

open Compass.Analyzer List
open Compass.LeftDeep (JoinType RelLeftDeepInnerJoin)
open Compass.PushDown (Rex)

-- ======== specification

/-- What the translator makes of a condition. -/
structure Translated (e : Expr) : Prop where
  scalar : isScalar e = true
  nonneg : ∀ i ∈ rteIndices e, 0 ≤ i

/-- All entries that the expression refers to are there on the level. -/
def Available (e : Expr) (level : Nat) : Prop := ∀ i ∈ rteIndices e, i ≤ level

instance (e : Expr) (level : Nat) : Decidable (Available e level) :=
  inferInstanceAs (Decidable (∀ i ∈ rteIndices e, i ≤ (level : Int)))

variable {D P : Type} [DecidableEq P]

/-- A level of the join that has no outer condition. -/
structure InnerLevel (join : RelLeftDeepInnerJoin D) (level : Nat) : Prop where
  pos : 1 ≤ level
  lt : level < join.inputs.length
  inner : join.getOuterCondition level = none

variable (makeJoinQuals : Rex D → List P) (deref : P → Expr)

/-- The first level without an outer condition that can take the qualifier. -/
def FirstLevel (join : RelLeftDeepInnerJoin D) (qual : P) (level : Nat) : Prop :=
  IsLeast {l | InnerLevel join l ∧ Available (deref qual) l} level

/-- What belongs on a level. -/
def Holds (join : RelLeftDeepInnerJoin D) (level : Nat) (result : LevelJoinCondition P) : Prop :=
  match join.getOuterCondition level with
  | some outerCondition => result = ⟨makeJoinQuals outerCondition, .LEFT⟩
  | none => result.type = .INNER ∧ result.quals.Nodup
      ∧ ∀ qual, qual ∈ result.quals ↔
          qual ∈ makeJoinQuals join.condition ∧ FirstLevel deref join qual level

-- ======== one level

variable {deref}

/-- The qualifiers that are available and have not been placed, each once. -/
theorem placeQuals_spec (rteIdx : Nat) {quals : List P}
    (h : ∀ qual ∈ quals, Translated (deref qual)) (visited : List P) :
    ∃ placed visited', placeQuals deref rteIdx quals visited = .ok (placed, visited')
      ∧ placed.Nodup
      ∧ (∀ qual, qual ∈ placed ↔
          qual ∈ quals ∧ qual ∉ visited ∧ Available (deref qual) rteIdx)
      ∧ ∀ qual, qual ∈ visited' ↔ qual ∈ visited ∨ qual ∈ placed := by
  induction quals generalizing visited with
  | nil => exact ⟨[], visited, rfl, nodup_nil, by simp, by simp⟩
  | cons q rest ih =>
    rw [forall_mem_cons] at h
    have ih := ih h.2
    rw [placeQuals]
    by_cases hvisited : q ∈ visited
    · obtain ⟨placed, visited', heq, hnodup, hplaced, hafter⟩ := ih visited
      refine ⟨placed, visited', by rw [if_pos hvisited, heq], hnodup, fun qual => ?_, hafter⟩
      rw [hplaced, mem_cons]
      constructor
      · rintro ⟨hmem, hrest⟩
        exact ⟨Or.inr hmem, hrest⟩
      · rintro ⟨rfl | hmem, hnot, havail⟩
        · exact absurd hvisited hnot
        · exact ⟨hmem, hnot, havail⟩
    · obtain ⟨r, hr, hpos, hbound⟩ := maxRangeTableIndex_spec h.1.scalar h.1.nonneg
      rw [if_neg hvisited, hr]
      by_cases havail : Available (deref q) rteIdx
      · obtain ⟨placed, visited', heq, hnodup, hplaced, hafter⟩ := ih (q :: visited)
        refine ⟨q :: placed, visited', ?_, ?_, fun qual => ?_, fun qual => ?_⟩
        · show (if 0 ≤ r ∧ r ≤ rteIdx then _ else _) = _
          rw [if_pos ⟨hpos, (hbound rteIdx).mpr havail⟩, heq]
          rfl
        · refine nodup_cons.mpr ⟨fun hmem => ?_, hnodup⟩
          exact ((hplaced q).mp hmem).2.1 mem_cons_self
        · rw [mem_cons, hplaced, mem_cons, mem_cons]
          constructor
          · rintro (rfl | ⟨hmem, hnot, hrest⟩)
            · exact ⟨Or.inl rfl, hvisited, havail⟩
            · exact ⟨Or.inr hmem, fun hv => hnot (Or.inr hv), hrest⟩
          · rintro ⟨hmem, hnot, hrest⟩
            by_cases heq' : qual = q
            · exact Or.inl heq'
            · refine Or.inr ⟨hmem.resolve_left heq', ?_, hrest⟩
              rintro (hq | hv)
              · exact heq' hq
              · exact hnot hv
        · rw [hafter, mem_cons, mem_cons]
          tauto
      · obtain ⟨placed, visited', heq, hnodup, hplaced, hafter⟩ := ih visited
        refine ⟨placed, visited', ?_, hnodup, fun qual => ?_, hafter⟩
        · show (if 0 ≤ r ∧ r ≤ rteIdx then _ else _) = _
          rw [if_neg fun hle => havail ((hbound rteIdx).mp hle.2)]
          exact heq
        · rw [hplaced, mem_cons]
          constructor
          · rintro ⟨hmem, hrest⟩
            exact ⟨Or.inr hmem, hrest⟩
          · rintro ⟨rfl | hmem, hnot, hrest⟩
            · exact absurd hrest havail
            · exact ⟨hmem, hnot, hrest⟩

/-- The CHECKs hold. -/
theorem checkType_ok {join : RelLeftDeepInnerJoin D} {level : Nat} {type : JoinType}
    (hpos : 1 ≤ level) (hlt : level < join.inputs.length)
    (htype : (if (join.getOuterCondition level).isSome then JoinType.LEFT else .INNER) = type) :
    checkType join.leftDeepJoinTypes level type = .ok () := by
  unfold checkType RelLeftDeepInnerJoin.leftDeepJoinTypes
  rw [getElem?_map, getElem?_range (by omega), Option.map_some,
    Nat.sub_add_cancel hpos, htype, if_pos rfl]

-- ======== the levels

variable {makeJoinQuals}

/-- The visited qualifiers are those that a level before could take. -/
theorem translateLevels_spec {join : RelLeftDeepInnerJoin D}
    (h : ∀ qual ∈ makeJoinQuals join.condition, Translated (deref qual)) (n : Nat) :
    ∀ level, 1 ≤ level → level + n ≤ join.inputs.length → ∀ visited : List P,
      (∀ qual ∈ makeJoinQuals join.condition, qual ∈ visited ↔
        ∃ l < level, InnerLevel join l ∧ Available (deref qual) l) →
      ∃ result, translateLevels makeJoinQuals deref join (makeJoinQuals join.condition)
          (range' level n) visited = .ok result
        ∧ result.length = n
        ∧ ∀ i < n, ∃ c, result[i]? = some c ∧ Holds makeJoinQuals deref join (level + i) c := by
  induction n with
  | zero => exact fun _ _ _ _ _ => ⟨[], rfl, rfl, fun i hi => absurd hi (Nat.not_lt_zero i)⟩
  | succ n ih =>
    intro level hpos hle visited hvisited
    -- What is on the level, and the visited qualifiers after it.
    have hstep : ∃ c visited',
        (∀ rest, translateLevels makeJoinQuals deref join (makeJoinQuals join.condition)
            (range' (level + 1) n) visited' = .ok rest →
          translateLevels makeJoinQuals deref join (makeJoinQuals join.condition)
            (level :: range' (level + 1) n) visited = .ok (c :: rest))
          ∧ Holds makeJoinQuals deref join level c
          ∧ ∀ qual ∈ makeJoinQuals join.condition, qual ∈ visited' ↔
              ∃ l < level + 1, InnerLevel join l ∧ Available (deref qual) l := by
      cases houter : join.getOuterCondition level with
      | some outer =>
        refine ⟨⟨makeJoinQuals outer, .LEFT⟩, visited, fun rest hrest => ?_, ?_,
          fun qual hqual => ?_⟩
        · rw [translateLevels, houter]
          rw [checkType_ok hpos (by omega) (by rw [houter]; rfl), hrest]
          rfl
        · unfold Holds
          rw [houter]
        · rw [hvisited qual hqual]
          constructor
          · rintro ⟨l, hl, hinner⟩
            exact ⟨l, by omega, hinner⟩
          · rintro ⟨l, hl, hinner, havail⟩
            rcases Nat.lt_succ_iff_lt_or_eq.mp hl with hlt | rfl
            · exact ⟨l, hlt, hinner, havail⟩
            · have hnone := hinner.inner
              rw [houter] at hnone
              exact nomatch hnone
      | none =>
        have hinner : InnerLevel join level := ⟨hpos, by omega, houter⟩
        obtain ⟨placed, visited', heq, hnodup, hplaced, hafter⟩ :=
          placeQuals_spec level h visited
        refine ⟨⟨placed, .INNER⟩, visited', fun rest hrest => ?_, ?_, fun qual hqual => ?_⟩
        · rw [translateLevels, houter]
          rw [heq]
          show (do checkType _ level .INNER; _) = _
          rw [checkType_ok hpos (by omega) (by rw [houter]; rfl)]
          show (do let result ← translateLevels _ _ _ _ _ visited'; _) = _
          rw [hrest]
          rfl
        · unfold Holds
          rw [houter]
          refine ⟨rfl, hnodup, fun qual => ?_⟩
          rw [hplaced]
          constructor
          · rintro ⟨hqual, hnot, havail⟩
            refine ⟨hqual, ⟨hinner, havail⟩, fun l hl => ?_⟩
            by_contra hlt
            exact hnot ((hvisited qual hqual).mpr ⟨l, not_le.mp hlt, hl⟩)
          · rintro ⟨hqual, ⟨-, havail⟩, hleast⟩
            refine ⟨hqual, fun hmem => ?_, havail⟩
            obtain ⟨l, hlt, hl⟩ := (hvisited qual hqual).mp hmem
            exact absurd (hleast hl) (not_le.mpr hlt)
        · rw [hafter, hplaced, hvisited qual hqual]
          constructor
          · rintro (⟨l, hl, hrest⟩ | ⟨-, -, havail⟩)
            · exact ⟨l, by omega, hrest⟩
            · exact ⟨level, Nat.lt_succ_self level, hinner, havail⟩
          · rintro ⟨l, hl, hrest⟩
            rcases Nat.lt_succ_iff_lt_or_eq.mp hl with hlt | rfl
            · exact Or.inl ⟨l, hlt, hrest⟩
            · by_cases hbefore : ∃ k < l, InnerLevel join k ∧ Available (deref qual) k
              · exact Or.inl hbefore
              · exact Or.inr ⟨hqual, hbefore, hrest.2⟩
    obtain ⟨c, visited', hcons, hholds, hafter⟩ := hstep
    obtain ⟨rest, hrest, hlength, hall⟩ :=
      ih (level + 1) (by omega) (by omega) visited' hafter
    refine ⟨c :: rest, ?_, by rw [length_cons, hlength], fun i hi => ?_⟩
    · exact hcons rest hrest
    · cases i with
      | zero => exact ⟨c, rfl, hholds⟩
      | succ i =>
        obtain ⟨c', hc', hholds'⟩ := hall i (by omega)
        refine ⟨c', hc', ?_⟩
        rwa [show level + (i + 1) = level + 1 + i by omega]

/-- Every level has what belongs on it, and every qualifier for which there
is a level without an outer condition is on exactly one of these levels. -/
theorem translateLeftDeepJoinFilter_places (join : RelLeftDeepInnerJoin D)
    (makeJoinQuals : Rex D → List P) (deref : P → Expr)
    (h : ∀ qual ∈ makeJoinQuals join.condition, Translated (deref qual)) :
    ∃ result, translateLeftDeepJoinFilter makeJoinQuals deref join join.inputs.length
        = .ok result
      ∧ result.length = join.inputs.length - 1
      ∧ (∀ level, 1 ≤ level → level < join.inputs.length →
          ∃ c, result[level - 1]? = some c ∧ Holds makeJoinQuals deref join level c)
      ∧ ∀ qual ∈ makeJoinQuals join.condition,
          (∃ level, InnerLevel join level ∧ Available (deref qual) level) →
            ∃! level, InnerLevel join level
              ∧ ∃ c, result[level - 1]? = some c ∧ qual ∈ c.quals := by
  have hlevels : ∃ result,
      translateLeftDeepJoinFilter makeJoinQuals deref join join.inputs.length = .ok result
        ∧ result.length = join.inputs.length - 1
        ∧ ∀ i < join.inputs.length - 1, ∃ c, result[i]? = some c
          ∧ Holds makeJoinQuals deref join (1 + i) c := by
    rcases Nat.eq_zero_or_pos join.inputs.length with hzero | hpos
    · rw [hzero]
      exact ⟨[], rfl, rfl, fun i hi => absurd hi (Nat.not_lt_zero i)⟩
    · refine translateLevels_spec h (join.inputs.length - 1) 1 le_rfl (by omega) [] ?_
      intro qual _
      refine iff_of_false not_mem_nil ?_
      rintro ⟨l, hl, hinner, -⟩
      have hpos := hinner.pos
      omega
  obtain ⟨result, heq, hlength, hall⟩ := hlevels
  have hplaced : ∀ level, 1 ≤ level → level < join.inputs.length →
      ∃ c, result[level - 1]? = some c ∧ Holds makeJoinQuals deref join level c := by
    intro level hpos hlt
    obtain ⟨c, hc, hholds⟩ := hall (level - 1) (by omega)
    rw [Nat.add_sub_cancel' hpos] at hholds
    exact ⟨c, hc, hholds⟩
  -- On a level without an outer condition: those whose first level it is.
  have hinner : ∀ level qual, InnerLevel join level →
      ((∃ c, result[level - 1]? = some c ∧ qual ∈ c.quals) ↔
        qual ∈ makeJoinQuals join.condition ∧ FirstLevel deref join qual level) := by
    intro level qual hlevel
    obtain ⟨c, hc, hholds⟩ := hplaced level hlevel.pos hlevel.lt
    unfold Holds at hholds
    rw [hlevel.inner] at hholds
    rw [← hholds.2.2 qual]
    constructor
    · rintro ⟨c', hc', hmem⟩
      rwa [Option.some.inj (hc.symm.trans hc')]
    · exact fun hmem => ⟨c, hc, hmem⟩
  refine ⟨result, heq, hlength, hplaced, fun qual hqual hsome => ?_⟩
  classical
  obtain ⟨level, hlevel, hleast⟩ :
      ∃ level, (InnerLevel join level ∧ Available (deref qual) level)
        ∧ ∀ l, InnerLevel join l ∧ Available (deref qual) l → level ≤ l :=
    ⟨Nat.find hsome, Nat.find_spec hsome, fun l hl => Nat.find_min' hsome hl⟩
  have hfirst : FirstLevel deref join qual level := ⟨hlevel, fun l hl => hleast l hl⟩
  refine ⟨level, ⟨hlevel.1, (hinner level qual hlevel.1).mpr ⟨hqual, hfirst⟩⟩, ?_⟩
  rintro other ⟨hother, hmem⟩
  exact ((hinner other qual hother).mp hmem).2.unique hfirst

-- ======== a LEFT level first

/-- A LEFT join, and an INNER one above it. -/
def leftFirst : RelLeftDeepInnerJoin Nat where
  condition := .literal (.bool true)
  originalFilter := none
  originalJoins := [5, 4]
  outerConditionsPerLevel := [none, some (.literal .null)]
  inputs := [⟨1, 1⟩, ⟨2, 1⟩, ⟨3, 1⟩]

/-- One qualifier each of the inner and of the outer condition. -/
def leftFirstQuals : Rex Nat → List Nat
  | .literal (.bool true) => [0]
  | _ => [1]

/-- They refer to the second input. -/
def secondInput (_ : Nat) : Expr := .columnVar (.plain .kBOOLEAN false) 2 1 1

theorem secondInput_translated (qual : Nat) : Translated (secondInput qual) where
  scalar := rfl
  nonneg := by
    intro i hi
    rw [mem_singleton.mp hi]
    decide

theorem translateLeftDeepJoinFilter_places_leftFirst :
    ∃ result, translateLeftDeepJoinFilter leftFirstQuals secondInput leftFirst
        leftFirst.inputs.length = .ok result
      ∧ result.length = leftFirst.inputs.length - 1
      ∧ (∀ level, 1 ≤ level → level < leftFirst.inputs.length →
          ∃ c, result[level - 1]? = some c ∧ Holds leftFirstQuals secondInput leftFirst level c)
      ∧ ∀ qual ∈ leftFirstQuals leftFirst.condition,
          (∃ level, InnerLevel leftFirst level ∧ Available (secondInput qual) level) →
            ∃! level, InnerLevel leftFirst level
              ∧ ∃ c, result[level - 1]? = some c ∧ qual ∈ c.quals :=
  translateLeftDeepJoinFilter_places leftFirst leftFirstQuals secondInput
    fun qual _ => secondInput_translated qual

/-- The inner qualifier is on the second level, though its entries are
available on the first. -/
theorem leftLevel_passedOver :
    ¬ ∀ (join : RelLeftDeepInnerJoin Nat) (makeJoinQuals : Rex Nat → List Nat)
        (deref : Nat → Expr),
      (∀ qual ∈ makeJoinQuals join.condition, Translated (deref qual)) →
      ∃ result, translateLeftDeepJoinFilter makeJoinQuals deref join join.inputs.length
          = .ok result
        ∧ ∀ qual ∈ makeJoinQuals join.condition, ∃ level c,
            IsLeast {l | 1 ≤ l ∧ l < join.inputs.length ∧ Available (deref qual) l} level
              ∧ result[level - 1]? = some c ∧ qual ∈ c.quals := by
  intro h
  obtain ⟨result, hresult, hplaced⟩ := h leftFirst leftFirstQuals secondInput
    fun qual _ => secondInput_translated qual
  have hvalue : translateLeftDeepJoinFilter leftFirstQuals secondInput leftFirst
      leftFirst.inputs.length = .ok [⟨[1], .LEFT⟩, ⟨[0], .INNER⟩] := rfl
  obtain rfl := Except.ok.inj (hvalue.symm.trans hresult)
  obtain ⟨level, c, ⟨⟨hpos, -, -⟩, hleast⟩, hc, hmem⟩ := hplaced 0 mem_cons_self
  have hle : level ≤ 1 := hleast ⟨le_rfl, by decide, by decide⟩
  obtain rfl : level = 1 := le_antisymm hle hpos
  obtain rfl := Option.some.inj hc
  exact absurd hmem (by decide)

end Compass.JoinQuals
