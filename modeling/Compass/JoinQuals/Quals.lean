/-
`get_bitwise_equals` and `get_bitwise_equals_conjunction` of
RelAlgExecutor.cpp: the step that reads `a = b OR (a IS NULL AND b IS
NULL)` in a join condition as one null-safe equality `kBW_EQ`.

The operands of an operator are `unique_ptr`s, and the step takes the two
sides of an equality out of the condition it reads
(`getOperandAndRelease`). A `Scalar` is such a pointer: null, or a tree
whose operands are pointers again. A run returns the new condition, null
where nothing was recognised, together with what is left of the old one.
A failed CHECK is `none`.

The scalars that the step does not look into, function operators
included, are one constructor. What `kBW_EQ` means is said by
`lower_bw_eq` of CompareIR.cpp, which turns it into the disjunction again
before code is generated (`Interp.LowersBwEq`).

`reverse_logical_distribution` of RelAlgExecutor.cpp: the step that turns
`(p AND q) OR (p AND r)` into `p AND (q OR r)` before a join condition is
split into its quals.

# The language

`BoolExpr` is the part of the analyzer's expressions that the step looks
into: BinOpers with AND or OR, the UOper NOT, and everything else as an
atom. Two subexpressions are compared by `operator==`, which descends
through these constructors and is equality of atoms at the leaves.

What the step asks of an atom is one question: whether
`BinOper::normalize_simple_predicate` accepts it, and as what. It is a
parameter, since any comparison of a column with a constant is accepted,
and turned around when the constant stands on the left. `rewrite_expr`,
which the two normal forms call on what is no BinOper, only looks for an
OR under a likelihood hint and leaves atoms and negations alone.

`OperExpr::normalize` on two boolean operands adds no cast, so it is the
constructor itself. `build_logical_expression` has a CHECK against the
empty list; a failed CHECK is `none`.
-/
import Compass.PushDown.Rex

namespace Compass.JoinQuals

open Compass.PushDown

/-- A `unique_ptr` to a `RexScalar`. -/
inductive Scalar (D : Type) where
  | null
  | input (source index : Nat)
  | oper (op : SQLOps) (operands : List (Scalar D)) (ti : SQLTypeInfo)
  | other (e : Rex D)

variable {D : Type}

namespace Scalar

-- ======== recognition

/-- `get_bitwise_equals`. -/
def getBitwiseEquals (scalar : Scalar D) : Option (Option (Scalar D) × Scalar D) :=
  match scalar with
  | .oper .kOR [equiJoinCondition, bothAreNull] ti =>
    match equiJoinCondition, bothAreNull with
    | .oper .kEQ eqOperands eqType,
        .oper .kAND [.oper .kISNULL lhsIsNull _, .oper .kISNULL rhsIsNull _] _ =>
        match lhsIsNull, rhsIsNull, eqOperands with
        | [isNullLhs], [isNullRhs], [eqLhs, eqRhs] =>
          match eqLhs, eqRhs, isNullLhs, isNullRhs with
          | .input source index, .input source' index', .input lhsSource lhsIndex,
              .input rhsSource rhsIndex =>
              if (source = lhsSource ∧ index = lhsIndex)
                  ∧ source' = rhsSource ∧ index' = rhsIndex then
                some (some (.oper .kBW_EQ [eqLhs, eqRhs] eqType),
                  .oper .kOR [.oper .kEQ [.null, .null] eqType, bothAreNull] ti)
              else some (none, scalar)
          | _, _, _, _ => some (none, scalar)
        | _, _, _ => none
    | _, _ => some (none, scalar)
  | _ => some (none, scalar)

mutual

/-- `get_bitwise_equals_conjunction`. -/
def getBitwiseEqualsConjunction : Scalar D → Option (Option (Scalar D) × Scalar D)
  | .oper .kAND (first :: second :: rest) ti => do
      let (acc, first') ← getBitwiseEquals first
      match acc with
      | none => some (none, .oper .kAND (first' :: second :: rest) ti)
      | some acc =>
        let (acc, rest') ← bitwiseEqualsConjuncts ti acc (second :: rest)
        some (some acc, .oper .kAND (first' :: rest') ti)
  | .oper .kAND _ _ => none
  | scalar => getBitwiseEquals scalar

/-- Its loop over the conjuncts after the first. -/
def bitwiseEqualsConjuncts (ti : SQLTypeInfo) (acc : Scalar D) :
    List (Scalar D) → Option (Scalar D × List (Scalar D))
  | [] => some (acc, [])
  | operand :: operands => do
      let (result, operand') ← getBitwiseEqualsConjunction operand
      let (acc, operands') ← bitwiseEqualsConjuncts ti
        (.oper .kAND [acc, result.getD .null] ti) operands
      some (acc, operand' :: operands')

end

-- ======== meaning

mutual

/-- The value of a condition whose inputs are read by `col`. -/
def eval (I : Interp D) (col : Nat → Nat → Value D) : Scalar D → Value D
  | .null => .null
  | .input source index => col source index
  | .oper op es ti => I.operValue op ti (evals I col es)
  | .other e => e.evalWith I col

def evals (I : Interp D) (col : Nat → Nat → Value D) : List (Scalar D) → List (Value D)
  | [] => []
  | e :: es => eval I col e :: evals I col es

end

/-- `kBW_EQ` means what `lower_bw_eq` makes of it. -/
def LowersBwEq (I : Interp D) : Prop :=
  ∀ ti isNullType andType orType x y, I.operValue .kBW_EQ ti [x, y]
    = I.operValue .kOR orType [I.operValue .kEQ ti [x, y],
        I.operValue .kAND andType [I.operValue .kISNULL isNullType [x],
          I.operValue .kISNULL isNullType [y]]]

-- ======== shapes

/-- There is no null pointer in the tree. -/
inductive NoNull : Scalar D → Prop
  | input (source index : Nat) : NoNull (.input source index)
  | oper (op : SQLOps) (ti : SQLTypeInfo) {es : List (Scalar D)} (h : ∀ e ∈ es, NoNull e) :
      NoNull (.oper op es ti)
  | other (e : Rex D) : NoNull (.other e)

/-- The numbers of operands that the CHECKs ask for. -/
def Arity (op : SQLOps) (n : Nat) : Prop :=
  match op with
  | .kISNULL => n = 1
  | .kEQ => n = 2
  | .kAND => 2 ≤ n
  | _ => True

/-- Every operator of the tree has as many operands as it takes. -/
inductive Arities : Scalar D → Prop
  | null : Arities .null
  | input (source index : Nat) : Arities (.input source index)
  | oper (op : SQLOps) (ti : SQLTypeInfo) {es : List (Scalar D)} (hlen : Arity op es.length)
      (h : ∀ e ∈ es, Arities e) : Arities (.oper op es ti)
  | other (e : Rex D) : Arities (.other e)

/-- `a = b OR (a IS NULL AND b IS NULL)` of two inputs. -/
def IsNullSafeEq (e : Scalar D) : Prop :=
  ∃ s i t j eqType lhsType rhsType andType orType,
    e = .oper .kOR [.oper .kEQ [.input s i, .input t j] eqType,
      .oper .kAND [.oper .kISNULL [.input s i] lhsType, .oper .kISNULL [.input t j] rhsType]
        andType] orType

/-- A conjunction that starts with such an equality. -/
def StartsWithNullSafeEq (e : Scalar D) : Prop :=
  ∃ first rest ti, e = .oper .kAND (first :: rest) ti ∧ first.IsNullSafeEq

/-- The conditions that are recognised as a whole: an equality, or a
conjunction of one with conditions that are. -/
inductive Recognised : Scalar D → Prop
  | equality {e : Scalar D} (h : e.IsNullSafeEq) : Recognised e
  | conjunction (ti : SQLTypeInfo) {first second : Scalar D} {rest : List (Scalar D)}
      (hfirst : first.IsNullSafeEq) (hrest : ∀ e ∈ second :: rest, Recognised e) :
      Recognised (.oper .kAND (first :: second :: rest) ti)

end Scalar

/-- A join condition as the executor gets it. -/
structure JoinCondition (D : Type) where
  scalar : Scalar D
  noNull : scalar.NoNull
  arities : scalar.Arities

/-- What a run must do: return null and leave the condition alone, or
return a condition without a null pointer that has the same value. -/
def JoinCondition.Preserved (c : JoinCondition D) : Prop :=
  c.scalar.getBitwiseEqualsConjunction = some (none, c.scalar)
    ∨ ∃ r left, c.scalar.getBitwiseEqualsConjunction = some (some r, left) ∧ r.NoNull
      ∧ ∀ I : Interp D, Scalar.LowersBwEq I → ∀ col, r.eval I col = c.scalar.eval I col

end Compass.JoinQuals

namespace Compass.JoinQuals

-- ======== expressions

inductive BoolExpr (α : Type) where
  | atom (a : α)
  | not (operand : BoolExpr α)
  | and (left right : BoolExpr α)
  | or (left right : BoolExpr α)
deriving DecidableEq, Repr

section

variable {α : Type}

/-- The value of an expression when the atoms have these values. -/
def BoolExpr.truth (v : α → Truth) : BoolExpr α → Truth
  | .atom a => v a
  | .not e => (e.truth v).neg
  | .and l r => l.truth v ⊓ r.truth v
  | .or l r => l.truth v ⊔ r.truth v

variable (normalizeSimplePredicate : α → Option α)

/-- Values for the atoms. A comparison that has been turned around is
still the same comparison. -/
structure Assignment where
  value : α → Truth
  normalized : ∀ {a q}, normalizeSimplePredicate a = some q →
    value q = value a

-- ======== normal forms

structure QualsConjunctiveForm (α : Type) where
  simpleQuals : List (BoolExpr α)
  quals : List (BoolExpr α)

/-- `qual_to_conjunctive_form`. -/
def qualToConjunctiveForm : BoolExpr α → QualsConjunctiveForm α
  | .and l r =>
    let lhsCf := qualToConjunctiveForm l
    let rhsCf := qualToConjunctiveForm r
    { simpleQuals := lhsCf.simpleQuals ++ rhsCf.simpleQuals
      quals := lhsCf.quals ++ rhsCf.quals }
  | .atom a =>
    match normalizeSimplePredicate a with
    | some simpleQual => { simpleQuals := [.atom simpleQual], quals := [] }
    | none => { simpleQuals := [], quals := [.atom a] }
  | .or l r => { simpleQuals := [], quals := [.or l r] }
  | .not e => { simpleQuals := [], quals := [.not e] }

/-- `qual_to_disjunctive_form`. -/
def qualToDisjunctiveForm : BoolExpr α → List (BoolExpr α)
  | .or l r => qualToDisjunctiveForm l ++ qualToDisjunctiveForm r
  | e => [e]

/-- `build_logical_expression`, for either connective. -/
def buildLogicalExpression (sqlOp : BoolExpr α → BoolExpr α → BoolExpr α) :
    List (BoolExpr α) → Option (BoolExpr α)
  | [] => none
  | front :: factors => some (factors.foldl sqlOp front)

-- ======== distribution

variable [DecidableEq α]

/-- `list_contains_expression`. -/
def listContainsExpression (haystack : List (BoolExpr α)) (needle : BoolExpr α) : Bool :=
  haystack.any fun qual => qual == needle

/-- `common_factors`: the quals of the first disjunct that every other
one has too. A single disjunct has none. -/
def commonFactors : List (BoolExpr α) → List (BoolExpr α)
  | [] => []
  | firstTerm :: terms =>
    (qualToConjunctiveForm normalizeSimplePredicate firstTerm).quals.filter
      fun factor => !terms.isEmpty && terms.all fun term =>
        listContainsExpression
          (qualToConjunctiveForm normalizeSimplePredicate term).quals factor

/-- `remaining_quals` of one disjunct. -/
def remainingQuals (common : List (BoolExpr α)) (term : BoolExpr α) :
    List (BoolExpr α) :=
  let termCf := qualToConjunctiveForm normalizeSimplePredicate term
  termCf.simpleQuals
    ++ termCf.quals.filter fun qual => !listContainsExpression common qual

/-- `remaining_terms`: a disjunct with nothing left is skipped. -/
def remainingTerms (common terms : List (BoolExpr α)) : List (BoolExpr α) :=
  terms.filterMap fun term =>
    let quals := remainingQuals normalizeSimplePredicate common term
    if quals.isEmpty then none else buildLogicalExpression .and quals

/-- `reverse_logical_distribution`. -/
def reverseLogicalDistribution (expr : BoolExpr α) : Option (BoolExpr α) := do
  let exprTerms := qualToDisjunctiveForm expr
  let common := commonFactors normalizeSimplePredicate exprTerms
  if common.isEmpty then return expr
  let remaining := remainingTerms normalizeSimplePredicate common exprTerms
  let commonExpr ← buildLogicalExpression .and common
  if remaining.isEmpty then return commonExpr
  let remainingExpr ← buildLogicalExpression .or remaining
  return .and commonExpr remainingExpr

end

end Compass.JoinQuals
