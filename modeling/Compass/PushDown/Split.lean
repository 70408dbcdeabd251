/-
Conditions as formulas, and which of their atoms the push-down to a scan
takes and leaves.

A condition of comparisons and null tests, put together by AND, OR and
NOT, reads as a formula: an atom names the columns by table and index,
whatever plan they are read in. The extraction and the rebuilding of the
condition then both drop atoms, the one those that are not over the scan
(`pushable`), the other those that are, as far as it can tell (`stays`).
Neither keeps an atom with a CAST.

`splits` says when a push-down loses nothing: it takes nothing at all, or
the condition is without CAST and both drop atoms only where that is
harmless.
-/
import Compass.PushDown.Extract

namespace Compass.PushDown

variable {D : Type}

-- ======== atoms

/-- An operand: a column of a table, a literal, or a CAST. -/
inductive Operand (D : Type) where
  | column (table index : Nat)
  | literal (v : Value D)
  | cast (ti : SQLTypeInfo) (x : Operand D)

inductive Atom (D : Type) where
  | compare (op : SQLOps) (ti : SQLTypeInfo) (x y : Operand D)
  | nullTest (negated : Bool) (ti : SQLTypeInfo) (x : Operand D)

/-- IS NULL or IS NOT NULL. -/
def nullOp (negated : Bool) : SQLOps :=
  if negated then .kISNOTNULL else .kISNULL

/-- AND or OR. -/
def junctionOp (conj : Bool) : SQLOps :=
  if conj then .kAND else .kOR

namespace Operand

def value (I : Interp D) (row : Assignment D) : Operand D → Value D
  | .column t c => row (t, c)
  | .literal v => v
  | .cast ti x => I.operValue .kCAST ti [x.value I row]

def tables : Operand D → List Nat
  | .column t _ => [t]
  | .literal _ => []
  | .cast _ x => x.tables

def castFree : Operand D → Bool
  | .cast _ _ => false
  | _ => true

/-- A column of the scan, without a CAST. -/
def isColumnOf (s : Nat) : Operand D → Bool
  | .column t _ => t == s
  | _ => false

/-- The extraction keeps the operand. -/
def within (s : Nat) : Operand D → Bool
  | .column t _ => t == s
  | .literal _ => true
  | .cast _ _ => false

/-- The rebuilding keeps the operand, where `needed` are the columns of
the scan that are still there. -/
def above (s : Nat) (needed : Nat → Bool) : Operand D → Bool
  | .column t c => t != s || needed c
  | .literal _ => true
  | .cast _ _ => false

/-- A comparison of these is a join condition. -/
def joint : Operand D → Operand D → Bool
  | .column t _, .column t' _ => t != t'
  | _, _ => false

/-- The column of the scan, if it is one. -/
def columnIn (s : Nat) : Operand D → List Nat
  | .column t c => if t = s then [c] else []
  | _ => []

end Operand

namespace Atom

def truth (I : Interp D) (row : Assignment D) : Atom D → Truth
  | .compare op ti x y => (I.operValue op ti [x.value I row, y.value I row]).truth
  | .nullTest negated ti x => (I.operValue (nullOp negated) ti [x.value I row]).truth

def tables : Atom D → List Nat
  | .compare _ _ x y => x.tables ++ y.tables
  | .nullTest _ _ x => x.tables

def castFree : Atom D → Bool
  | .compare _ _ x y => x.castFree && y.castFree
  | .nullTest _ _ x => x.castFree

/-- `findFilterAndProjectFromRex` keeps the atom. -/
def pushable (s : Nat) : Atom D → Bool
  | .compare _ _ x y => x.within s && y.within s
  | .nullTest _ _ x => x.within s

/-- `buildNewFilterExpr` keeps the atom. -/
def stays (s : Nat) (needed : Nat → Bool) : Atom D → Bool
  | .compare _ _ x y =>
    (x.joint y || !(x.isColumnOf s || y.isColumnOf s))
      && x.above s needed && y.above s needed
  | .nullTest _ _ x => x.above s needed

/-- The columns of the scan in a join condition. -/
def joinColumns (s : Nat) : Atom D → List Nat
  | .compare _ _ x y => if x.joint y then x.columnIn s ++ y.columnIn s else []
  | .nullTest _ _ _ => []

end Atom

-- ======== conditions

/-- The expression reads as the operand in the plan. -/
inductive ReadsOperand (P : Plan) : Rex D → Operand D → Prop
  | column {source index t c : Nat} (h : P.columnOf source index = some (t, c)) :
      ReadsOperand P (.input source index) (.column t c)
  | literal (v : Value D) : ReadsOperand P (.literal v) (.literal v)
  | cast {e : Rex D} {x : Operand D} {ti : SQLTypeInfo} (h : ReadsOperand P e x) :
      ReadsOperand P (.oper .kCAST [e] ti) (.cast ti x)

/-- The expression reads as the formula in the plan. -/
inductive Reads (P : Plan) : Rex D → Formula (Atom D) → Prop
  | compare {op : SQLOps} {ti : SQLTypeInfo} {e₁ e₂ : Rex D} {x y : Operand D}
      (hop : op.isComparison = true) (hx : ReadsOperand P e₁ x)
      (hy : ReadsOperand P e₂ y) :
      Reads P (.oper op [e₁, e₂] ti) (.atom (.compare op ti x y))
  | nullTest {negated : Bool} {ti : SQLTypeInfo} {e : Rex D} {x : Operand D}
      (hx : ReadsOperand P e x) :
      Reads P (.oper (nullOp negated) [e] ti) (.atom (.nullTest negated ti x))
  | junction {conj : Bool} {ti : SQLTypeInfo} (ps : List (Rex D × Formula (Atom D)))
      (hlen : 2 ≤ ps.length) (h : ∀ p ∈ ps, Reads P p.1 p.2) :
      Reads P (.oper (junctionOp conj) (ps.map Prod.fst) ti)
        (.junction conj (ps.map Prod.snd))
  | not {ti : SQLTypeInfo} {e : Rex D} {φ : Formula (Atom D)} (h : Reads P e φ) :
      Reads P (.oper .kNOT [e] ti) (.not φ)

/-- A conjunct: a predicate over the columns of one table, or a bare
comparison of two columns of different tables. -/
inductive Conjunct : Formula (Atom D) → Prop
  | single {φ : Formula (Atom D)} (t : Nat)
      (h : ∀ a ∈ φ.atoms, ∀ t' ∈ a.tables, t' = t) : Conjunct φ
  | joint {op : SQLOps} {ti : SQLTypeInfo} {t c t' c' : Nat} (h : t ≠ t') :
      Conjunct (.atom (.compare op ti (.column t c) (.column t' c')))

def joinColumns (s : Nat) (φ : Formula (Atom D)) : List Nat :=
  φ.atoms.flatMap (Atom.joinColumns s)

/-- The columns of the scan that stay: those that are projected and those
of the join conditions. -/
def needed (s : Nat) (projected : List ColInfo) (φ : Formula (Atom D)) (c : Nat) :
    Bool :=
  projected.any (fun x => x.1 == c) || (joinColumns s φ).contains c

/-- The push-down to the scan takes nothing of the condition, or loses
nothing of it. -/
def splits (φ : Formula (Atom D)) (t : Target) : Bool :=
  !φ.survives (Atom.pushable t.scanId)
    || (φ.atoms.all Atom.castFree
      && φ.harmless (Atom.pushable t.scanId) true
      && φ.harmless (Atom.stays t.scanId (needed t.scanId t.projected φ)) true)

-- ======== targets

/-- The scan is in the plan and its columns have names. -/
def Plan.NamedScan (P : Plan) (s : Nat) : Prop :=
  ∃ fields, P.root.find? s = some (.scan s fields) ∧ "" ∉ fields

/-- The scans of the loop are different scans of the plan, and the
compounds are new nodes. -/
structure ValidTargets (P : Plan) (targets : List Target) : Prop where
  scans : ∀ t ∈ targets, P.NamedScan t.scanId
  scans_nodup : (targets.map Target.scanId).Nodup
  fresh : ∀ t ∈ targets, t.compoundId ∉ P.root.ids
  compounds_nodup : (targets.map Target.compoundId).Nodup

end Compass.PushDown
