/-
`CaseExpr::get_domain` (Analyzer.cpp): the values that a CASE may have, as
a set of expressions. The empty set says that nothing is known.

A set is a list without duplicates: `add_unique` compares what it adds with
what is there, by `operator==`, and a comparison may end in a CHECK or read
through the null pointer of a NULL string.

A row gives values to what is not a CASE. That of a CASE is the value of the
branch that the row takes.
-/
import Compass.Analyzer.Expr
import Compass.Lib.Distinct

namespace Compass.Analyzer

namespace Expr

/-- A `dynamic_cast` to Constant. -/
def isConstant : Expr → Bool
  | constant .. => true
  | _ => false

/-- A `dynamic_cast` to UOper that finds a cast. -/
def isCast : Expr → Bool
  | uoper _ _ .kCAST _ => true
  | _ => false

/-- The operand of a cast, if it is a constant. -/
def castConstant : Expr → Option Expr
  | uoper _ _ .kCAST operand => if operand.isConstant then some operand else none
  | _ => none

/-- `Expr::add_unique`. -/
def addUnique (e : Expr) (exprList : List Expr) : Except Fault (List Expr) :=
  Distinct.add operatorEq e exprList

mutual

/-- `get_domain`, which clears the set for all but a CASE. -/
def getDomain (domainSet : List Expr) : Expr → Except Fault (List Expr)
  | caseExpr _ _ exprPairList elseExpr => do
      let (domainSet, returned) ← getDomainPairs domainSet exprPairList
      if returned then return domainSet
      getDomainElse domainSet elseExpr
  | _ => .ok []

/-- The loop over the branches, and whether it has returned. -/
def getDomainPairs (domainSet : List Expr) :
    List (Expr × Expr) → Except Fault (List Expr × Bool)
  | [] => .ok (domainSet, false)
  | (_, result) :: pairs =>
    if result.isConstant then do
      let domainSet ← addUnique result domainSet
      getDomainPairs domainSet pairs
    else if result.isColumnVar then do
      let domainSet ← addUnique result domainSet
      getDomainPairs domainSet pairs
    else if result.castConstant.isSome then do
      let domainSet ← addUnique result domainSet
      getDomainPairs domainSet pairs
    else do
      -- a cast that is a column as well is never found
      let domainSet ← getDomain domainSet result
      if domainSet.isEmpty then return (domainSet, true)
      getDomainPairs domainSet pairs

def getDomainElse (domainSet : List Expr) : Option Expr → Except Fault (List Expr)
  | none => .ok domainSet
  | some elseExpr =>
    if elseExpr.isConstant then addUnique elseExpr domainSet
    else if elseExpr.isColumnVar then addUnique elseExpr domainSet
    else if elseExpr.isCast then
      match elseExpr.castConstant with
      | some c => addUnique c domainSet
      | none => .ok domainSet
    else getDomain domainSet elseExpr

end

def isCase : Expr → Bool
  | caseExpr .. => true
  | _ => false

/-- A constant or a column. -/
def isAtom (e : Expr) : Bool :=
  e.isConstant || e.isColumnVar

/-- A constant or a column that is no Var. -/
def isPlain : Expr → Bool
  | constant .. | columnVar .. => true
  | _ => false

end Expr

-- ======== on a row

/-- A row that does not tell a constant or a column apart from one that
`operator==` finds equal to it, nor two casts of such constants to one type. -/
structure Row (V : Type) extends RowSemantics V where
  value_eq : ∀ {e e' : Expr}, e.isAtom = true → e'.isPlain = true → e.operatorEq e' = .ok true →
    value e = value e'
  value_cast : ∀ {ti : SQLTypeInfo} {containsAgg containsAgg' : Bool} {c c' : Expr},
    c.isConstant = true → c'.isConstant = true → c.operatorEq c' = .ok true →
    value (.uoper ti containsAgg .kCAST c) = value (.uoper ti containsAgg' .kCAST c')

/-- Where the result of a CASE comes from. -/
inductive Branch where
  | thenBranch (result : Expr)
  | elseBranch (result : Expr)
  /-- No condition is true, and there is no ELSE. -/
  | noElse

namespace Row

variable {V : Type} (S : Row V)

mutual

/-- The branch that a row takes, of the innermost CASE. -/
def taken : Expr → Branch
  | .caseExpr _ _ exprPairList elseExpr => takenPairs (takenElse elseExpr) exprPairList
  | e => .thenBranch e

def takenPairs (otherwise : Branch) : List (Expr × Expr) → Branch
  | [] => otherwise
  | (cond, result) :: pairs =>
    if S.truth cond = .yes then taken result else takenPairs otherwise pairs

def takenElse : Option Expr → Branch
  | none => .noElse
  | some e => if e.isCase then taken e else .elseBranch e

end

def branchValue : Branch → Option V
  | .thenBranch result | .elseBranch result => S.value result
  | .noElse => none

/-- The value of an expression; that of a CASE is its branch's. -/
def caseValue (e : Expr) : Option V :=
  S.branchValue (S.taken e)

/-- `get_domain` leaves the empty set, or one that has the value of the
expression on the row. -/
def DomainCovers (e : Expr) : Prop :=
  ∃ domainSet, e.getDomain [] = .ok domainSet ∧
    (domainSet = [] ∨ ∃ m ∈ domainSet, S.value m = S.caseValue e)

end Row

-- ======== the branches

/-- What branches put into the set one after another, and whether one is met
of which nothing is known. -/
structure Listing where
  exprs : List Expr
  stops : Bool

namespace Expr

mutual

/-- The branches of an expression, behind others that have put something
into the set or not. -/
def listing (before : Bool) : Expr → Listing
  | caseExpr _ _ exprPairList elseExpr =>
    let l := listingPairs before exprPairList
    if l.stops then l
    else
      let k := listingElse (before || !l.exprs.isEmpty) elseExpr
      ⟨l.exprs ++ k.exprs, k.stops⟩
  | _ => ⟨[], true⟩

def listingPairs (before : Bool) : List (Expr × Expr) → Listing
  | [] => ⟨[], false⟩
  | (_, result) :: pairs =>
    if result.isAtom || result.castConstant.isSome then
      let k := listingPairs true pairs
      ⟨result :: k.exprs, k.stops⟩
    else
      let l := listing before result
      -- a CASE that puts nothing into the empty set is not told from an unknown value
      if l.stops || (!before && l.exprs.isEmpty) then ⟨l.exprs, true⟩
      else
        let k := listingPairs (before || !l.exprs.isEmpty) pairs
        ⟨l.exprs ++ k.exprs, k.stops⟩

def listingElse (before : Bool) : Option Expr → Listing
  | none => ⟨[], false⟩
  | some elseExpr =>
    if elseExpr.isAtom then ⟨[elseExpr], false⟩
    else if elseExpr.isCast then ⟨elseExpr.castConstant.toList, false⟩
    else listing before elseExpr

end

/-- Nothing is known of a branch, or there is none to put something into the
set. -/
def SaysNothing (e : Expr) : Prop :=
  (e.listing false).stops = true ∨ (e.listing false).exprs = []

/-- No comparison of two branches fails. -/
def Comparable (e : Expr) : Prop :=
  (e.listing false).exprs.Pairwise (Distinct.Comparable operatorEq)

end Expr

/-- Why the set covers an expression on a row. -/
inductive Covered {V : Type} (S : Row V) (e : Expr) : Prop
  | unknown (h : e.SaysNothing)
  /-- The row takes a branch that is a constant or a column. -/
  | plain (result : Expr)
      (htaken : S.taken e = .thenBranch result ∨ S.taken e = .elseBranch result)
      (hplain : result.isPlain = true)
  /-- It takes one that is put into the set, and an earlier one that is equal
  casts to the same type. -/
  | put (before after : List Expr) (result : Expr)
      (htaken : S.taken e = .thenBranch result ∨ S.taken e = .elseBranch result)
      (hput : (e.listing false).exprs = before ++ result :: after)
      (hbefore : ∀ m ∈ before, m.operatorEq result = .ok true →
        result.isCast = true ∧ m.typeInfo = result.typeInfo)
  /-- It takes an ELSE that casts a constant to its own value. -/
  | elseCast (result c : Expr) (htaken : S.taken e = .elseBranch result)
      (hcast : result.castConstant = some c) (hput : c ∈ (e.listing false).exprs)
      (hvalue : S.value result = S.value c)

/-- No branch is equal to another, and none but the one that the row takes
has its value. -/
structure Apart {V : Type} (S : Row V) (e : Expr) : Prop where
  branches : (e.listing false).exprs.Pairwise fun m m' => m.operatorEq m' ≠ .ok true
  values : ∀ m ∈ (e.listing false).exprs, S.value m = S.caseValue e →
    S.taken e = .thenBranch m ∨ S.taken e = .elseBranch m
      ∨ ∃ result, S.taken e = .elseBranch result ∧ result.castConstant = some m

end Compass.Analyzer
