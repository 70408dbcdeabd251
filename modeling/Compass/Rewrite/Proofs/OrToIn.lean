/-
What `rewrite_expr` makes of a condition.

A tree of ORs has an IN list when all its disjuncts are equalities with a
constant and, at every OR, the expressions that the two sides compare are
equal; one disjunct that is something else keeps the whole tree. The list
has one value for each disjunct, in order (`visit_spec`).

Three things may go wrong. The copy of the constant is cast to the type of
the other side, where the query may have had another cast; `operator==`
does not look at the type that an operand is cast to; and where there is
no list, a likelihood is put around a null pointer. A constant that has the
type of the other side, up to its compression and to whether it may be
NULL, says the same in the list (`literal_recast`). So when nothing goes
wrong the result is as true as the condition on every row
(`rewriteExpr_rewritten`).
-/
import Compass.Rewrite.OrToIn

namespace Compass.Rewrite

open Compass.Analyzer OrToInVisitor List Option

-- ======== trees of ORs

def isOr : Expr → Bool
  | .binOper _ _ .kOR _ _ _ => true
  | _ => false

/-- The disjuncts of a tree of ORs. -/
def disjuncts : Expr → List Expr
  | .binOper ti containsAgg optype qualifier leftOperand rightOperand =>
    match optype with
    | .kOR => disjuncts leftOperand ++ disjuncts rightOperand
    | _ => [.binOper ti containsAgg optype qualifier leftOperand rightOperand]
  | e => [e]

theorem or_induction {motive : Expr → Prop}
    (or : ∀ ti containsAgg qualifier leftOperand rightOperand,
      motive leftOperand → motive rightOperand →
      motive (.binOper ti containsAgg .kOR qualifier leftOperand rightOperand))
    (leaf : ∀ e, isOr e = false → motive e) (e : Expr) : motive e := by
  induction e using disjuncts.induct with
  | case1 ti containsAgg qualifier leftOperand rightOperand ihl ihr =>
    exact or ti containsAgg qualifier leftOperand rightOperand ihl ihr
  | case2 ti containsAgg optype qualifier leftOperand rightOperand hne =>
    refine leaf _ ?_
    cases optype <;> first | rfl | exact (hne rfl).elim
  | case3 e hne =>
    refine leaf e ?_
    cases e <;> first | rfl | exact (hne _ _ _ _ _ _ rfl).elim

theorem disjuncts_of_leaf {e : Expr} (h : isOr e = false) : disjuncts e = [e] := by
  cases e with
  | binOper _ _ optype => cases optype <;> first | rfl | cases h
  | _ => rfl

theorem truth_eq_any_disjuncts {V : Type} (S : RowSemantics V) (e : Expr) :
    S.truth e = Truth.any ((disjuncts e).map S.truth) := by
  induction e using or_induction with
  | or ti containsAgg qualifier leftOperand rightOperand ihl ihr =>
    rw [disjuncts, map_append, Truth.any_append, ← ihl, ← ihr]
    rfl
  | leaf e h => simp [disjuncts_of_leaf h]

-- ======== equalities

/-- An equality with a constant: the expression that it compares, and the
constant without its cast. -/
structure ConstantEquality where
  arg : Expr
  typeInfo : Analyzer.SQLTypeInfo
  isNull : Bool
  constval : Datum

def constantEquality : Expr → Option ConstantEquality
  | .binOper _ _ .kEQ _ arg rhs =>
    match extractCastArg rhs with
    | .constant typeInfo isNull constval => some ⟨arg, typeInfo, isNull, constval⟩
    | _ => none
  | _ => none

variable (conversions : Conversions)

def ConstantEquality.constant (c : ConstantEquality) : Expr :=
  .constant c.typeInfo c.isNull c.constval

/-- The value of the equality in an IN list. -/
def ConstantEquality.value (c : ConstantEquality) : Except Fault Expr :=
  recast conversions c.typeInfo c.isNull c.constval c.arg.typeInfo

/-- The expression that the first disjunct compares. -/
def comparedExpr : Expr → Option Expr
  | .binOper ti containsAgg optype qualifier leftOperand rightOperand =>
    match optype with
    | .kOR => comparedExpr leftOperand
    | _ => (constantEquality
        (.binOper ti containsAgg optype qualifier leftOperand rightOperand)).map (·.arg)
  | _ => none

/-- All disjuncts are equalities with a constant, and what the two sides of
an OR compare is equal. -/
def Mergeable : Expr → Prop
  | .binOper ti containsAgg optype qualifier leftOperand rightOperand =>
    match optype with
    | .kOR => Mergeable leftOperand ∧ Mergeable rightOperand
        ∧ ∃ lhs rhs, comparedExpr leftOperand = some lhs ∧ comparedExpr rightOperand = some rhs
          ∧ Expr.operatorEq lhs rhs = .ok true
    | _ => (constantEquality
        (.binOper ti containsAgg optype qualifier leftOperand rightOperand)).isSome = true
  | _ => False

mutual

/-- The constants can be cast, and what is compared at an OR can be
compared. -/
def Succeeds : Expr → Prop
  | .binOper ti containsAgg optype qualifier leftOperand rightOperand =>
    match optype with
    | .kOR => Succeeds leftOperand ∧ Succeeds rightOperand
        ∧ (Mergeable leftOperand → Mergeable rightOperand → ∀ lhs rhs,
          comparedExpr leftOperand = some lhs → comparedExpr rightOperand = some rhs →
          ∃ eq, Expr.operatorEq lhs rhs = .ok eq)
    | _ => ∀ c, constantEquality
          (.binOper ti containsAgg optype qualifier leftOperand rightOperand) = some c →
        ∃ value, c.value conversions = .ok value
  | .functionOper _ _ args => AllSucceed args
  | .functionOperWithCustomTypeHandling _ _ args => AllSucceed args
  | _ => True

def AllSucceed : List Expr → Prop
  | [] => True
  | arg :: args => Succeeds arg ∧ AllSucceed args

end

-- ======== the visit

/-- What a visit ends in. -/
inductive Visited (e : Expr) : Except Fault (Option InValues) → Prop
  | fault (f : Fault) : ¬ Succeeds conversions e → Visited e (.error f)
  | none : Succeeds conversions e → ¬ Mergeable e → Visited e (.ok none)
  | some {arg : Expr} {valueList : List Expr} :
      Succeeds conversions e → Mergeable e → comparedExpr e = some arg →
      List.Forall₂ (fun disjunct value => ∃ c, constantEquality disjunct = some c
        ∧ c.value conversions = .ok value) (disjuncts e) valueList →
      Visited e (.ok (some (.make arg valueList)))

variable {conversions}

theorem visited_aggregateResult {ti : Analyzer.SQLTypeInfo} {containsAgg : Bool}
    {qualifier : SQLQualifier} {leftOperand rightOperand : Expr}
    {lhs rhs : Option InValues} (hl : Visited conversions leftOperand (.ok lhs))
    (hr : Visited conversions rightOperand (.ok rhs)) :
    Visited conversions (.binOper ti containsAgg .kOR qualifier leftOperand rightOperand)
      (aggregateResult lhs rhs) := by
  cases hl with
  | none hsucc hnot =>
    have hr' : Succeeds conversions rightOperand := by cases hr <;> assumption
    refine .none ⟨hsucc, hr', fun h => (hnot h).elim⟩ fun h => hnot h.1
  | some hsuccl hmergel hargl hvaluesl =>
    cases hr with
    | none hsucc hnot =>
      exact .none ⟨hsuccl, hsucc, fun _ h => (hnot h).elim⟩ fun h => hnot h.2.1
    | some hsuccr hmerger hargr hvaluesr =>
      rename_i argl valuesl argr valuesr
      unfold aggregateResult
      dsimp only [InValues.make]
      cases heq : Expr.operatorEq argl argr with
      | error f =>
        refine .fault f fun h => ?_
        obtain ⟨eq, heq'⟩ := h.2.2 hmergel hmerger argl argr hargl hargr
        exact nomatch heq.symm.trans heq'
      | ok eq =>
        have hsucc : Succeeds conversions
            (.binOper ti containsAgg .kOR qualifier leftOperand rightOperand) := by
          refine ⟨hsuccl, hsuccr, fun _ _ lhs rhs hlhs hrhs => ⟨eq, ?_⟩⟩
          obtain rfl := some.inj (hargl.symm.trans hlhs)
          obtain rfl := some.inj (hargr.symm.trans hrhs)
          exact heq
        cases eq with
        | true =>
          exact .some hsucc ⟨hmergel, hmerger, argl, argr, hargl, hargr, heq⟩ hargl
            (rel_append hvaluesl hvaluesr)
        | false =>
          refine .none hsucc ?_
          rintro ⟨-, -, lhs, rhs, hlhs, hrhs, heq'⟩
          obtain rfl := some.inj (hargl.symm.trans hlhs)
          obtain rfl := some.inj (hargr.symm.trans hrhs)
          exact nomatch heq.symm.trans heq'

theorem visited_visitEquality {ti : Analyzer.SQLTypeInfo} {containsAgg : Bool}
    {qualifier : SQLQualifier} {leftOperand rightOperand : Expr} :
    Visited conversions (.binOper ti containsAgg .kEQ qualifier leftOperand rightOperand)
      (visitEquality conversions leftOperand rightOperand) := by
  have hdisj : disjuncts (.binOper ti containsAgg .kEQ qualifier leftOperand rightOperand)
      = [.binOper ti containsAgg .kEQ qualifier leftOperand rightOperand] := rfl
  unfold visitEquality
  split
  · rename_i typeInfo isNull constval hconst
    have hc : constantEquality (.binOper ti containsAgg .kEQ qualifier leftOperand rightOperand)
        = some ⟨leftOperand, typeInfo, isNull, constval⟩ := by
      rw [constantEquality, hconst]
    cases hvalue : recast conversions typeInfo isNull constval leftOperand.typeInfo with
    | error f =>
      refine .fault f fun h => ?_
      obtain ⟨value, hvalue'⟩ := h _ hc
      cases hvalue.symm.trans hvalue'
    | ok value =>
      refine .some (fun c hc' => ⟨value, ?_⟩) (Option.isSome_of_eq_some hc)
        (congrArg (Option.map ConstantEquality.arg) hc) ?_
      · obtain rfl := Option.some.inj (hc.symm.trans hc')
        exact hvalue
      · rw [hdisj]
        exact .cons ⟨_, hc, hvalue⟩ .nil
  · rename_i hnot
    have hc : constantEquality (.binOper ti containsAgg .kEQ qualifier leftOperand rightOperand)
        = none := by
      rw [constantEquality]
      split
      · rename_i typeInfo isNull constval hconst
        exact (hnot typeInfo isNull constval hconst).elim
      · rfl
    refine .none (fun c hc' => by cases hc.symm.trans hc') fun h => ?_
    have hsome : (constantEquality
        (.binOper ti containsAgg .kEQ qualifier leftOperand rightOperand)).isSome = true := h
    rw [hc] at hsome
    cases hsome

theorem visited_function {e : Expr} {args : List Expr} {r : Except Fault (Option InValues)}
    (hsucc : Succeeds conversions e ↔ AllSucceed conversions args) (hnot : ¬ Mergeable e)
    (h : (AllSucceed conversions args ∧ r = .ok none)
      ∨ ¬ AllSucceed conversions args ∧ ∃ f, r = .error f) : Visited conversions e r := by
  rcases h with ⟨hall, rfl⟩ | ⟨hall, f, rfl⟩
  · exact .none (hsucc.mpr hall) hnot
  · exact .fault f fun h => hall (hsucc.mp h)

mutual

/-- A visit finds the list of a tree that has one. -/
theorem visit_spec : ∀ e : Expr, Visited conversions e (visit conversions e)
  | .binOper ti containsAgg optype qualifier leftOperand rightOperand => by
      have hl := visit_spec leftOperand
      have hr := visit_spec rightOperand
      cases optype with
      | kEQ => exact visited_visitEquality
      | kOR =>
        rw [visit]
        cases hvl : visit conversions leftOperand with
        | error f =>
          rw [hvl] at hl
          cases hl with
          | fault _ hnot => exact .fault f fun h => hnot h.1
        | ok lhs =>
          rw [hvl] at hl
          cases hvr : visit conversions rightOperand with
          | error f =>
            rw [hvr] at hr
            cases hr with
            | fault _ hnot => exact .fault f fun h => hnot h.2.1
          | ok rhs =>
            rw [hvr] at hr
            exact visited_aggregateResult hl hr
      | _ => exact .none (fun c hc => nomatch hc) (fun h => nomatch h)
  | .functionOper _ _ args => visited_function Iff.rfl id (visitArgs_spec args)
  | .functionOperWithCustomTypeHandling _ _ args =>
    visited_function Iff.rfl id (visitArgs_spec args)
  | .columnVar .. | .var .. | .expressionTuple .. | .constant .. | .uoper .. | .subquery ..
  | .inValues .. | .inIntegerSet .. | .charLengthExpr .. | .likeExpr .. | .regexpExpr ..
  | .likelihoodExpr .. | .aggExpr .. | .caseExpr .. | .extractExpr .. | .dateaddExpr ..
  | .datediffExpr .. | .datetruncExpr .. | .iterExpr .. | .ndvEstimator .. => .none trivial id

/-- The arguments of a function come to nothing. -/
theorem visitArgs_spec : ∀ args : List Expr,
    (AllSucceed conversions args ∧ visitArgs conversions none args = .ok none)
      ∨ ¬ AllSucceed conversions args ∧ ∃ f, visitArgs conversions none args = .error f
  | [] => .inl ⟨trivial, rfl⟩
  | arg :: args => by
      have harg := visit_spec arg
      have hargs := visitArgs_spec args
      rw [visitArgs]
      cases hv : visit conversions arg with
      | error f =>
        rw [hv] at harg
        cases harg with
        | fault _ hnot => exact .inr ⟨fun h => hnot h.1, f, rfl⟩
      | ok next =>
        rw [hv] at harg
        have hsucc : Succeeds conversions arg := by cases harg <;> assumption
        show (AllSucceed conversions (arg :: args) ∧ visitArgs conversions none args = _)
          ∨ ¬ AllSucceed conversions (arg :: args) ∧ ∃ f, visitArgs conversions none args = _
        rcases hargs with ⟨hall, heq⟩ | ⟨hall, f, heq⟩
        · exact .inl ⟨⟨hsucc, hall⟩, heq⟩
        · exact .inr ⟨fun h => hall h.2, f, heq⟩

end

-- ======== the likelihood

def hasLikelihood : Expr → Bool
  | .likelihoodExpr .. => true
  | _ => false

variable {expr : Expr}

theorem rewriteExpr_of_leaf (h : isOr (stripLikelihood expr) = false) :
    rewriteExpr conversions expr = .ok none := by
  unfold rewriteExpr
  dsimp only
  split
  · rename_i heq
    rw [heq] at h
    cases h
  · rfl

/-- What the rewriting does with the result of the visit. -/
def addBack (expr : Expr) (rewrittenExpr : Option InValues) : Except Fault (Option Expr) :=
  match expr with
  | .likelihoodExpr _ _ likelihood =>
    (makeLikelihood likelihood (rewrittenExpr.map InValues.toExpr)).map some
  | _ => .ok (rewrittenExpr.map InValues.toExpr)

theorem rewriteExpr_of_or (h : isOr (stripLikelihood expr) = true) : rewriteExpr conversions expr
      = (visit conversions (stripLikelihood expr)).bind (addBack expr) := by
  unfold rewriteExpr
  dsimp only
  split
  · cases expr with
    | likelihoodExpr ti arg likelihood =>
      refine congrArg (visit conversions arg).bind (funext fun r => ?_)
      cases r <;> rfl
    | _ => rfl
  · rename_i hnot
    generalize stripLikelihood expr = e at h hnot
    cases e with
    | binOper ti containsAgg optype =>
      cases optype <;> first | exact (hnot _ _ _ _ _ rfl).elim | cases h
    | _ => cases h

theorem addBack_none :
    addBack expr none = if hasLikelihood expr = true then .error .nullPointer else .ok none := by
  cases expr <;> rfl

theorem addBack_some (expr : Expr) (v : InValues) :
    ∃ rewritten, addBack expr (some v) = .ok (some rewritten)
      ∧ stripLikelihood rewritten = v.toExpr
      ∧ ∀ {V : Type} (S : RowSemantics V), S.truth rewritten = S.truth v.toExpr := by
  cases expr with
  | likelihoodExpr _ _ likelihood => exact ⟨_, rfl, rfl, fun _ => rfl⟩
  | _ => exact ⟨v.toExpr, rfl, rfl, fun _ => rfl⟩

theorem truth_stripLikelihood {V : Type} (S : RowSemantics V) (expr : Expr) :
    S.truth (stripLikelihood expr) = S.truth expr := by
  cases expr <;> rfl

-- ======== constants

/-- What a constant says, whatever the compression of its type and whether
it may be NULL. -/
inductive Literal where
  | null
  | string (s : List UInt8)
  | number (type : SQLTypes) (scale n : Int)

/-- The member of a datum that a type reads. -/
def readMember (type : SQLTypes) (d : Datum) : Int :=
  match type with
  | .kBOOLEAN => if d.boolval then 1 else 0
  | .kSMALLINT => d.smallintval
  | .kINT => d.intval
  | .kFLOAT => d.floatval.toNat
  | _ => d.bigintval

def literalConstant (typeInfo : Analyzer.SQLTypeInfo) (isNull : Bool) (constval : Datum) :
    Option Literal :=
  if isNull then some .null
  else if typeInfo.isString then constval.stringval.map .string
  else some (.number typeInfo.type typeInfo.scale (readMember typeInfo.type constval))

/-- A constant of the first type says the same in the second: two strings,
or one type and scale. -/
def keepsType (ti ti' : Analyzer.SQLTypeInfo) : Bool :=
  ti.isString && ti'.isString || !ti.isString && ti.type == ti'.type && ti.scale == ti'.scale

/-- A constant, or one whose cast changes no more than the compression. -/
def literal : Expr → Option Literal
  | .constant typeInfo isNull constval => literalConstant typeInfo isNull constval
  | .uoper ti _ .kCAST (.constant typeInfo isNull constval) =>
    if keepsType typeInfo ti then literalConstant typeInfo isNull constval else none
  | _ => none

/-- A meaning of expressions in which constants that say the same have one
value. -/
structure Meaning (V : Type) extends RowSemantics V where
  value_literal : ∀ {e e' : Expr}, literal e = literal e' → (literal e).isSome = true →
    value e = value e'

section

variable {ti argTi ti' : Analyzer.SQLTypeInfo} {isNull : Bool}
  {d d' : Datum} {value : Expr}

/-- A constant that a cast to a type leaves as it is. -/
structure SameConstant (conversions : Conversions) (ti : Analyzer.SQLTypeInfo) (d : Datum)
    (argTi : Analyzer.SQLTypeInfo) : Prop where
  type : keepsType ti argTi = true
  string : ∀ s ∈ d.stringval, Constant.truncateString argTi s = s
  fp : ∀ ti' d', ti'.type = ti.type → conversions.castFp ti ti' d = .ok d' →
    readMember ti.type d' = readMember ti.type d

/-- A member that is written through a wider one. -/
theorem setWidth_ofInt_toInt {w : Nat} (hw : w ≤ 64) (b : BitVec w) :
    (BitVec.ofInt 64 b.toInt).setWidth w = b := by
  show (b.signExtend 64).setWidth w = b
  ext i hi
  rw [BitVec.getElem_setWidth, BitVec.getLsbD_signExtend]
  simp [hi, hi.trans_le hw]

theorem intval_ofInt (d : Datum) : (Datum.ofInt d.intval).intval = d.intval :=
  congrArg BitVec.toInt (setWidth_ofInt_toInt (by decide) _)

theorem smallintval_ofInt (d : Datum) : (Datum.ofInt d.smallintval).smallintval = d.smallintval :=
  congrArg BitVec.toInt (setWidth_ofInt_toInt (by decide) _)

theorem bigintval_ofInt (d : Datum) : (Datum.ofInt d.bigintval).bigintval = d.bigintval :=
  congrArg BitVec.toInt BitVec.ofInt_toInt

theorem castNumber_keeps (htype : ti'.type = ti.type) (hscale : ti'.scale = ti.scale)
    (hnumber : ti'.isNumber = true) (hfp : ∀ ti' d', ti'.type = ti.type →
      conversions.castFp ti ti' d = .ok d' → readMember ti.type d' = readMember ti.type d)
    (h : Constant.castNumber conversions ti ti' d = .ok d') :
    readMember ti.type d' = readMember ti.type d := by
  unfold Constant.castNumber Constant.castInteger Constant.castDecimal at h
  unfold SQLTypeInfo.isNumber at hnumber
  cases hti : ti.type <;> rw [hti] at h htype <;> simp only [htype] at h hnumber <;>
    try cases hnumber
  case kINT => exact Except.ok.inj h ▸ intval_ofInt d
  case kSMALLINT => exact Except.ok.inj h ▸ smallintval_ofInt d
  case kBIGINT => exact Except.ok.inj h ▸ bigintval_ofInt d
  case kFLOAT => exact hti ▸ hfp ti' d' (htype.trans hti.symm) h
  case kDOUBLE => exact hti ▸ hfp ti' d' (htype.trans hti.symm) h
  all_goals
    rw [convertDecimalValueToScale, if_neg (by omega), hscale, Int.sub_self] at h
    exact Except.ok.inj h ▸ bigintval_ofInt d

theorem literalConstant_number (hti : ti.isString = false) (htype : ti'.type = ti.type)
    (hscale : ti'.scale = ti.scale) (hread : readMember ti.type d' = readMember ti.type d) :
    literalConstant ti' false d' = literalConstant ti false d := by
  have hti' : ti'.isString = false := by rwa [SQLTypeInfo.isString, htype] at *
  simp [literalConstant, hti, hti', htype, hscale, hread]

/-- A cast to a type that is that of the other side but for its
compression. -/
theorem doCast_keeps {cast : Analyzer.SQLTypeInfo × Datum}
    (hcast : Constant.doCast conversions ti ti' d = .ok cast)
    (h : SameConstant conversions ti d argTi) (htype : ti'.type = argTi.type)
    (hscale : ti'.scale = argTi.scale) (hdim : ti'.dimension = argTi.dimension) :
    keepsType cast.1 argTi = true
      ∧ literalConstant cast.1 false cast.2 = literalConstant ti false d := by
  obtain ⟨hkeeps, hstring, hfp⟩ := h
  have hstr : ti'.isString = argTi.isString := by
    rw [SQLTypeInfo.isString, SQLTypeInfo.isString, htype]
  have hsame : ti'.isString = false →
      ti.isString = false ∧ ti'.type = ti.type ∧ ti'.scale = ti.scale := by
    intro hs
    rw [htype, hscale]
    cases hti : ti.isString <;> simp_all [keepsType]
  -- a constant that is no string gets the type of the other side
  have hnumber : ∀ d', ti'.isString = false → readMember ti.type d' = readMember ti.type d →
      keepsType ti' argTi = true ∧ literalConstant ti' false d' = literalConstant ti false d := by
    intro d' hs hread
    obtain ⟨hti, htype', hscale'⟩ := hsame hs
    exact ⟨by simp [keepsType, hs, htype, hscale], literalConstant_number hti htype' hscale' hread⟩
  have hplain : (ti'.isNumber || ti'.isBoolean) = true → ti'.isString = false := by
    unfold SQLTypeInfo.isNumber SQLTypeInfo.isBoolean SQLTypeInfo.isString
    cases ti'.type <;> simp
  unfold Constant.doCast at hcast
  split at hcast
  · cases hcast
    exact ⟨hkeeps, rfl⟩
  split at hcast
  · next hn =>
      rw [Bool.and_eq_true] at hn
      have hs := hplain (by simp [hn.1])
      cases hd : Constant.castNumber conversions ti ti' d with
      | error f =>
        rw [hd] at hcast
        cases hcast
      | ok d' =>
        rw [hd] at hcast
        cases hcast
        exact hnumber d' hs (castNumber_keeps (hsame hs).2.1 (hsame hs).2.2 hn.1 hfp hd)
  split at hcast
  · next hb =>
      rw [Bool.and_eq_true] at hb
      cases hcast
      exact hnumber d (hplain (by simp [hb.1])) rfl
  split at hcast
  · next hs =>
      rw [Bool.and_eq_true] at hs
      cases hcast
      refine ⟨by simp [keepsType, hs.1, ← hstr], ?_⟩
      have htruncate : Constant.truncateString ti' = Constant.truncateString argTi := by
        funext s
        rw [Constant.truncateString, Constant.truncateString, htype, hdim]
      cases hd : d.stringval with
      | none => simp [literalConstant, hs.1, hs.2, Constant.castString, hd]
      | some s =>
        simp [literalConstant, hs.1, hs.2, Constant.castString, hd, htruncate,
          hstring s (by rw [hd, mem_def])]
  next hnot =>
  have hs : ti'.isString = false := by
    by_contra hs
    rw [Bool.not_eq_false] at hs
    cases hti : ti.isString with
    | true => exact hnot (by rw [hs, hti, Bool.and_self])
    | false =>
      rw [keepsType, hti, Bool.false_and, Bool.false_or, Bool.and_eq_true, Bool.and_eq_true,
        beq_iff_eq] at hkeeps
      rw [SQLTypeInfo.isString, htype, ← hkeeps.1.2, ← SQLTypeInfo.isString, hti] at hs
      cases hs
  rw [if_neg (by simp [(hsame hs).1]), if_neg (by simp [hs])] at hcast
  split at hcast
  · cases hcast
    exact hnumber d hs rfl
  split at hcast
  · next ht => exact absurd (ht.1.symm.trans ((hsame hs).2.1.trans ht.2)) (by decide)
  · cases hcast

theorem literal_addCast {ti : Analyzer.SQLTypeInfo} {e value : Expr}
    (he : e = .constant ti false d) (hkeeps : keepsType ti argTi = true)
    (h : e.addCast argTi = .ok value) : literal value = literalConstant ti false d := by
  subst he
  unfold Expr.addCast at h
  dsimp only at h
  split_ifs at h <;> cases h
  · rfl
  · rfl
  · exact if_pos hkeeps

/-- The copy in the list says what the constant says. -/
theorem literal_recast (h : isNull = false → SameConstant conversions ti d argTi)
    (hvalue : recast conversions ti isNull d argTi = .ok value) :
    literal value = literalConstant ti isNull d
      ∧ (literalConstant ti isNull d).isSome = true := by
  cases isNull with
  | true =>
    refine ⟨?_, rfl⟩
    unfold recast Expr.deepCopyConstant Constant.addCast at hvalue
    cases hn : nullValue ti.type with
    | error f => simp [hn, bind, Except.bind] at hvalue
    | ok n =>
      cases hn' : nullValue argTi.type with
      | error f => simp [hn, hn', bind, Except.bind, pure, Except.pure] at hvalue
      | ok n' =>
        simp [hn, hn', bind, Except.bind, pure, Except.pure] at hvalue
        exact hvalue ▸ rfl
  | false =>
    have h := h rfl
    have hsome : (literalConstant ti false d).isSome = true
        ∧ Constant.addCast conversions ti false d argTi = .ok value := by
      unfold recast Expr.deepCopyConstant at hvalue
      cases hs : ti.isString <;> cases hd : d.stringval <;>
        simp_all [literalConstant, bind, Except.bind]
    refine ⟨?_, hsome.1⟩
    have hcast := hsome.2
    rw [Constant.addCast, if_neg Bool.false_ne_true] at hcast
    split at hcast
    · split at hcast
      · cases hd : Constant.doCast conversions ti { argTi with compression := .kENCODING_NONE } d with
        | error f =>
          rw [hd] at hcast
          cases hcast
        | ok cast =>
          rw [hd] at hcast
          obtain ⟨hkeeps, hliteral⟩ := doCast_keeps hd h rfl rfl rfl
          exact (literal_addCast rfl hkeeps hcast).trans hliteral
      · exact literal_addCast rfl h.type hcast
    · cases hd : Constant.doCast conversions ti argTi d with
      | error f =>
        rw [hd] at hcast
        cases hcast
      | ok cast =>
        rw [hd] at hcast
        cases hcast
        exact (doCast_keeps hd h rfl rfl rfl).2

end

-- ======== truth

variable {Row V : Type}

/-- A value of a list, and the disjunct that it stands for: the disjunct
compares the expression of the list, and is as true as the comparison with
the value. -/
structure Kept (rows : Row → Meaning V) (arg disjunct value : Expr) : Prop where
  compares : ∃ c, constantEquality disjunct = some c
    ∧ ∀ row, (rows row).value c.arg = (rows row).value arg
  truth : ∀ row, (rows row).equality .kEQ arg value = (rows row).truth disjunct

/-- What is to hold of a rewritten condition: it is as true as the condition
on every row, and an IN list with a value for each disjunct. A condition
that is not rewritten stays as it is. -/
def Rewritten (rows : Row → Meaning V) (expr : Expr) : Option Expr → Prop
  | none => True
  | some rewritten => (∀ row, (rows row).truth rewritten = (rows row).truth expr)
      ∧ ∃ ti arg valueList, stripLikelihood rewritten = .inValues ti arg valueList
        ∧ List.Forall₂ (Kept rows arg) (disjuncts (stripLikelihood expr)) valueList

/-- The disjuncts of a tree compare expressions that have the value of the
first one, with a constant that compares as it does under its cast. -/
def Faithful (rows : Row → Meaning V) (e : Expr) : Prop :=
  ∀ arg, comparedExpr e = some arg →
    ∀ disjunct ∈ disjuncts e, ∀ c, constantEquality disjunct = some c → ∀ row,
      (rows row).value c.arg = (rows row).value arg
        ∧ (rows row).truth disjunct = (rows row).equality .kEQ c.arg c.constant

/-- The constants of a tree have the types of what they are compared with. -/
def SameConstants (conversions : Conversions) (e : Expr) : Prop :=
  ∀ disjunct ∈ disjuncts e, ∀ c, constantEquality disjunct = some c → c.isNull = false →
    SameConstant conversions c.typeInfo c.constval c.arg.typeInfo

/-- When a tree of ORs, with a likelihood around it or not, is rewritten as
it should be. -/
structure Rewritable (conversions : Conversions) (rows : Row → Meaning V) (expr : Expr) :
    Prop where
  succeeds : Succeeds conversions (stripLikelihood expr)
  likelihood : hasLikelihood expr = true → Mergeable (stripLikelihood expr)
  constants : Mergeable (stripLikelihood expr) → SameConstants conversions (stripLikelihood expr)
  faithful : Mergeable (stripLikelihood expr) → Faithful rows (stripLikelihood expr)

theorem equality_congr {S : RowSemantics V} {arg arg' : Expr} (h : S.value arg = S.value arg')
    (optype : SQLOps) (value : Expr) :
    S.equality optype arg value = S.equality optype arg' value := by
  rw [RowSemantics.equality, RowSemantics.equality, h]

theorem truth_of_kept {rows : Row → Meaning V} {arg : Expr} {ds values : List Expr}
    (h : List.Forall₂ (Kept rows arg) ds values) (row : Row) :
    Truth.any (values.map ((rows row).equality .kEQ arg))
      = Truth.any (ds.map (rows row).truth) := by
  induction h with
  | nil => rfl
  | cons hkept _ ih => rw [map_cons, map_cons, Truth.any_cons, Truth.any_cons, hkept.truth row, ih]

/-- A value of the list compares as its constant does. -/
theorem equality_value {S : Meaning V} {c : ConstantEquality} {value : Expr}
    (hsame : c.isNull = false → SameConstant conversions c.typeInfo c.constval c.arg.typeInfo)
    (hvalue : c.value conversions = .ok value) (arg : Expr) :
    S.equality .kEQ arg value = S.equality .kEQ arg c.constant := by
  obtain ⟨hliteral, hsome⟩ := literal_recast hsame hvalue
  have hvalues : S.value value = S.value c.constant :=
    S.value_literal hliteral (hliteral ▸ hsome)
  rw [RowSemantics.equality, RowSemantics.equality, hvalues]

/-- The list of a visit keeps all disjuncts exactly when it is faithful. -/
theorem kept_iff_faithful {rows : Row → Meaning V} {e arg : Expr} {values : List Expr}
    (hsame : SameConstants conversions e) (harg : comparedExpr e = some arg)
    (hvalues : List.Forall₂ (fun disjunct value => ∃ c, constantEquality disjunct = some c
      ∧ c.value conversions = .ok value) (disjuncts e) values) :
    List.Forall₂ (Kept rows arg) (disjuncts e) values ↔ Faithful rows e := by
  constructor
  · intro hkept arg' harg' disjunct hmem c hc row
    obtain rfl := some.inj (harg.symm.trans harg')
    obtain ⟨i, hi, rfl⟩ := mem_iff_getElem.mp hmem
    have hkept := (forall₂_iff_get.mp hkept).2 i hi (hkept.length_eq ▸ hi)
    obtain ⟨c', hc', hvalue⟩ := (forall₂_iff_get.mp hvalues).2 i hi (hvalues.length_eq ▸ hi)
    rw [get_eq_getElem] at hkept hc'
    obtain rfl := some.inj (hc.symm.trans hc')
    obtain ⟨c', hc', hcompares⟩ := hkept.compares
    obtain rfl := some.inj (hc.symm.trans hc')
    refine ⟨hcompares row, ?_⟩
    rw [equality_congr (hcompares row), ← equality_value (hsame _ hmem c hc) hvalue,
      hkept.truth row]
  · intro hfaithful
    have hself : ∀ disjunct ∈ disjuncts e, disjunct ∈ disjuncts e := fun _ h => h
    refine ((forall₂_and_left _ _).mpr ⟨hself, hvalues⟩).imp ?_
    rintro disjunct value ⟨hmem, c, hc, hvalue⟩
    have hfaithful := hfaithful arg harg disjunct hmem c hc
    refine ⟨⟨c, hc, fun row => (hfaithful row).1⟩, fun row => ?_⟩
    rw [(hfaithful row).2, equality_value (hsame disjunct hmem c hc) hvalue,
      equality_congr (hfaithful row).1]

/-- A condition is rewritten as it should be when it is no tree of ORs, or
one that is `Rewritable`; and only then, where the constants have the types
of what they are compared with. -/
theorem rewriteExpr_rewritten (conversions : Conversions) (rows : Row → Meaning V) (expr : Expr) :
    ((isOr (stripLikelihood expr) = true → Rewritable conversions rows expr) →
        ∃ result, rewriteExpr conversions expr = .ok result ∧ Rewritten rows expr result)
      ∧ ((∃ result, rewriteExpr conversions expr = .ok result ∧ Rewritten rows expr result) →
        isOr (stripLikelihood expr) = true →
          Succeeds conversions (stripLikelihood expr)
            ∧ (hasLikelihood expr = true → Mergeable (stripLikelihood expr))
            ∧ (Mergeable (stripLikelihood expr) →
              SameConstants conversions (stripLikelihood expr) →
              Faithful rows (stripLikelihood expr))) := by
  cases hor : isOr (stripLikelihood expr) with
  | false => exact ⟨fun _ => ⟨none, rewriteExpr_of_leaf hor, trivial⟩, fun _ h => nomatch h⟩
  | true =>
    rw [rewriteExpr_of_or hor]
    have hvisit : Visited conversions (stripLikelihood expr) (visit conversions _) :=
      visit_spec (stripLikelihood expr)
    generalize visit conversions (stripLikelihood expr) = r at hvisit
    cases hvisit with
    | fault f hnot =>
      refine ⟨fun h => (hnot (h rfl).succeeds).elim, ?_⟩
      rintro ⟨result, heq, -⟩
      exact nomatch heq
    | none hsucc hnot =>
      rw [show (Except.ok none).bind (addBack expr) = _ from addBack_none]
      cases hlike : hasLikelihood expr with
      | true =>
        refine ⟨fun h => (hnot ((h rfl).likelihood hlike)).elim, ?_⟩
        rintro ⟨result, heq, -⟩
        exact nomatch heq
      | false => exact ⟨fun _ => ⟨none, rfl, trivial⟩, fun _ _ =>
        ⟨hsucc, nofun, fun h => (hnot h).elim⟩⟩
    | @some arg valueList hsucc hmerge harg hvalues =>
      obtain ⟨rewritten, heq, hstrip, htruth⟩ := addBack_some expr (.make arg valueList)
      rw [show (Except.ok _).bind (addBack expr) = _ from heq]
      constructor
      · intro h
        have hkept := (kept_iff_faithful ((h rfl).constants hmerge) harg hvalues).mpr
          ((h rfl).faithful hmerge)
        refine ⟨some rewritten, rfl, fun row => ?_, _, arg, valueList, hstrip, hkept⟩
        calc (rows row).truth rewritten
            = Truth.any (valueList.map ((rows row).equality .kEQ arg)) :=
              htruth (rows row).toRowSemantics
          _ = Truth.any ((disjuncts (stripLikelihood expr)).map (rows row).truth) :=
              truth_of_kept hkept row
          _ = (rows row).truth (stripLikelihood expr) :=
              (truth_eq_any_disjuncts (rows row).toRowSemantics _).symm
          _ = (rows row).truth expr := truth_stripLikelihood (rows row).toRowSemantics expr
      · rintro ⟨_, ⟨⟩, -, ti, arg', valueList', hstrip', hkept⟩ -
        obtain ⟨-, rfl, rfl⟩ := Expr.inValues.inj (hstrip.symm.trans hstrip')
        exact ⟨hsucc, fun _ => hmerge, fun _ hsame =>
          (kept_iff_faithful hsame harg hvalues).mp hkept⟩

-- ======== LIKELY(x = 1 OR y = 2)

/-- `column = n`. -/
def columnEquals (columnId n : Int) : Expr :=
  .binOper (.plain .kBOOLEAN false) false .kEQ .kONE
    (.columnVar (.plain .kINT false) 1 columnId 0) (.constant (.plain .kINT false) false (.ofInt n))

def likelyEither : Expr :=
  .likelihoodExpr (.plain .kBOOLEAN false)
    (.binOper (.plain .kBOOLEAN false) false .kOR .kONE (columnEquals 1 1) (columnEquals 2 2))
    0x3F700000#32

/-- No cast of these constants converts anything. -/
def noConversions : Conversions where
  castFp _ _ _ := .error .check
  stringToDatum _ _ := .error .check
  datumToString _ _ := .error .check

theorem visit_likelyEither : visit noConversions (stripLikelihood likelyEither) = .ok none := by
  have hne : Expr.operatorEq (.columnVar (.plain .kINT false) 1 1 0)
      (.columnVar (.plain .kINT false) 1 2 0) = .ok false := by
    rw [Expr.operatorEq]
    rfl
  show aggregateResult (some (.make _ _)) (some (.make _ _)) = _
  unfold aggregateResult
  dsimp only [InValues.make]
  rw [hne]
  rfl

/-- `x = 1 OR x = 2`. -/
def oneOrTwo : Expr :=
  .binOper (.plain .kBOOLEAN false) false .kOR .kONE (columnEquals 1 1) (columnEquals 1 2)

/-- Constants are their numbers, and all else is 1. -/
def literalNumbers : Meaning Int where
  value e :=
    match literal e with
    | some (.number _ _ n) => some n
    | some _ => none
    | none => some 1
  eq := (· == ·)
  predicate _ := .no
  value_literal h _ := by rw [h]

theorem oneOrTwo_rewritable : Rewritable noConversions (fun _ : Unit => literalNumbers) oneOrTwo where
  succeeds := by
    refine ⟨?_, ?_, ?_⟩
    · rintro c ⟨⟩
      exact ⟨_, rfl⟩
    · rintro c ⟨⟩
      exact ⟨_, rfl⟩
    · rintro - - _ _ ⟨⟩ ⟨⟩
      exact ⟨true, by rw [Expr.operatorEq]; rfl⟩
  likelihood := by rintro ⟨⟩
  constants _ disjunct hmem c hc _ := by
    simp only [oneOrTwo, stripLikelihood, columnEquals, disjuncts, mem_append, mem_singleton] at hmem
    obtain rfl | rfl := hmem <;> cases hc <;>
      exact ⟨rfl, by rintro _ ⟨⟩, by rintro _ _ _ ⟨⟩⟩
  faithful _ arg harg disjunct hmem c hc row := by
    cases harg
    simp only [oneOrTwo, stripLikelihood, columnEquals, disjuncts, mem_append, mem_singleton] at hmem
    obtain rfl | rfl := hmem <;> cases hc <;> exact ⟨rfl, rfl⟩

/-- It is made the list of 1 and 2. -/
theorem oneOrTwo_rewritten : ∃ result, rewriteExpr noConversions oneOrTwo = .ok result
    ∧ Rewritten (fun _ : Unit => literalNumbers) oneOrTwo result :=
  (rewriteExpr_rewritten noConversions _ oneOrTwo).1 fun _ => oneOrTwo_rewritable

/-- The two equalities are of different columns, and the likelihood is put
around a null pointer. -/
theorem likelyEither_fails :
    ¬ ∃ result, rewriteExpr noConversions likelyEither = .ok result
      ∧ ∀ (S : RowSemantics Int), ∀ rewritten ∈ result,
          S.truth rewritten = S.truth likelyEither := by
  rintro ⟨result, heq, -⟩
  rw [rewriteExpr_of_or rfl, visit_likelyEither] at heq
  exact nomatch heq

end Compass.Rewrite
