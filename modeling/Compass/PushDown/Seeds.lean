/-
The sketches of the scans and their seeds (`findSketchFromTemplates`,
FilterPushDownSketch.cpp).

A scan gets one sketch column for each of its join columns. Its seeds are
those of the template for the join, when the session has one; else those
that the other end of the join has put into `getNewSeeds()`; else new
ones, which it puts there itself. Templates and new seeds are found by the
tables and the columns of the join, in the order in which the scan sees
them, and not by the scans: `"t--c--t'--c'"`, a text from which the four
numbers can be read again, so that the key is the four numbers here.

The random numbers are a parameter, all that `RandomGenerate` will return
one after the other.
-/
import Compass.JoinOrder.Estimate
import Compass.Sketch.Host

namespace Compass.PushDown

open Compass.JoinOrder (JoinCol JoinCols)
open Compass.Sketch (XiCW2B XiEH3)

-- ======== seeds

/-- The seeds that the constructors of `Xi_CW2B` and `Xi_EH3` make of two
random numbers. -/
def xiSeeds (i1 i2 : UInt32) : UInt32 × UInt32 :=
  let seed0 := (i1 <<< 16) ^^^ (i2 &&& (0xffff : UInt32))
  let i1 : UInt32 := (36969 : UInt32) * (i1 &&& (0xffff : UInt32)) + (i1 >>> 16)
  let i2 : UInt32 := (18000 : UInt32) * (i2 &&& (0xffff : UInt32)) + (i2 >>> 16)
  (seed0, (i1 <<< 16) ^^^ (i2 &&& (0xffff : UInt32)))

/-- `std::pair<Xi_CW2B*, Xi_EH3*>`: one generator of each kind for a row. -/
structure Seeds where
  xiBucket : List XiCW2B
  xiPm1 : List XiEH3

/-- `generateSeeds`, at its call number `call`: four random numbers for
each row. -/
def generateSeeds (rowNo : Nat) (bucketSize : UInt32) (random : Nat → UInt32)
    (call : Nat) : Seeds where
  xiBucket := (List.range rowNo).map fun i =>
    let k := 4 * (call * rowNo + i)
    ⟨xiSeeds (random k) (random (k + 1)), bucketSize⟩
  xiPm1 := (List.range rowNo).map fun i =>
    let k := 4 * (call * rowNo + i)
    ⟨xiSeeds (random (k + 2)) (random (k + 3))⟩

-- ======== the templates

/-- `table_id--column_id--join_table_id--join_column_id`. -/
structure JoinKey where
  tableId : Nat
  columnId : Nat
  joinTableId : Nat
  joinColumnId : Nat
deriving DecidableEq, Repr

/-- `other_key_value`. -/
def JoinKey.other (k : JoinKey) : JoinKey :=
  ⟨k.joinTableId, k.joinColumnId, k.tableId, k.columnId⟩

def joinKey (tableId : Nat) (j : JoinCol) : JoinKey :=
  ⟨tableId, j.columnId, j.otherTableId, j.otherColumnId⟩

/-- A template: its seeds and its cells. -/
structure SketchTemplate (σ : Type) where
  seeds : σ
  sketchElem : Nat → ℚ

/-- One column of a sketch. -/
structure SketchColumn (σ : Type) where
  seeds : σ
  separateSketchElem : Nat → ℚ

/-- The seeds the executor has made so far. -/
structure SeedPool (σ : Type) where
  /-- `getNewSeeds()`. -/
  newSeeds : JoinKey → Option σ
  /-- The number of calls of `generateSeeds`. -/
  calls : Nat

section

variable {σ : Type} (templates : JoinKey → Option (SketchTemplate σ)) (generate : Nat → σ)

namespace SeedPool

/-- The column for a join: from its template, all of it or the seeds only;
or with the seeds of the other end; or with new ones. -/
def column (noSelection : Bool) (pool : SeedPool σ) (key : JoinKey) :
    SketchColumn σ × SeedPool σ :=
  match templates key with
  | some t => (⟨t.seeds, if noSelection then t.sketchElem else fun _ => 0⟩, pool)
  | none =>
    match pool.newSeeds key.other with
    | some seeds => (⟨seeds, fun _ => 0⟩, pool)
    | none =>
      let seeds := generate pool.calls
      (⟨seeds, fun _ => 0⟩, ⟨Function.update pool.newSeeds key (some seeds), pool.calls + 1⟩)

/-- The columns for a list of joins. -/
def columns (noSelection : Bool) :
    SeedPool σ → List JoinKey → List (SketchColumn σ) × SeedPool σ
  | pool, [] => ([], pool)
  | pool, key :: keys =>
    let (c, pool) := column templates generate noSelection pool key
    let (cs, pool) := columns noSelection pool keys
    (c :: cs, pool)

end SeedPool

structure SeedState (σ : Type) where
  pool : SeedPool σ
  /-- `getSketchInstances()`. -/
  sketchInstances : Nat → List (SketchColumn σ)

def SeedState.init : SeedState σ := ⟨⟨fun _ => none, 0⟩, fun _ => []⟩

def findSketchFromTemplates (joins : JoinCols) (node tableId : Nat) (noSelection : Bool)
    (st : SeedState σ) : SeedState σ :=
  let (cs, pool) := st.pool.columns templates generate noSelection
    ((joins node).map (joinKey tableId))
  ⟨pool, Function.update st.sketchInstances node cs⟩

end

-- ======== the query

/-- What the scans of a query are joined on, and what the session has. -/
structure SketchInput where
  nodes : Finset Nat
  joins : JoinCols
  /-- The physical table of a scan. -/
  tableId : Nat → Nat
  /-- No predicate on the scan: the cells of a template can be used. -/
  noSelection : Nat → Bool
  templates : JoinKey → Option (SketchTemplate Seeds)
  rowNo : Nat
  bucketSize : UInt32
  rowNo_pos : 0 < rowNo
  /-- A join leads to another scan, which has it from its own side. -/
  joined : ∀ n ∈ nodes, ∀ j ∈ joins n,
    j.otherNode ∈ nodes ∧ j.otherNode ≠ n ∧ j.otherTableId = tableId j.otherNode
      ∧ ⟨j.otherTableId, j.otherColumnId, n, tableId n, j.columnId⟩ ∈ joins j.otherNode

namespace SketchInput

variable (q : SketchInput)

/-- The scans one after the other, in the order in which
`evaluateAndPushDown` comes to them. -/
def run (random : Nat → UInt32) (order : List Nat) : SeedState Seeds :=
  order.foldl
    (fun st node =>
      findSketchFromTemplates q.templates
        (generateSeeds q.rowNo q.bucketSize random) q.joins node (q.tableId node)
        (q.noSelection node) st)
    .init

/-- The seeds of the column of `node` for its join number `i`. -/
def seedsAt (st : SeedState Seeds) (node i : Nat) : Option Seeds :=
  ((st.sketchInstances node)[i]?).map SketchColumn.seeds

/-- The two ends of a join edge: the joins of two scans with each other,
with mirrored columns. -/
def IsEdge (n i m i' : Nat) : Prop :=
  n ∈ q.nodes ∧ ∃ j, (q.joins n)[i]? = some j ∧ j.otherNode = m
    ∧ (q.joins m)[i']?
      = some ⟨j.otherTableId, j.otherColumnId, n, q.tableId n, j.columnId⟩

/-- In every order of the scans and with any random numbers, the two ends
of every edge have the same seeds. -/
def SeedsAgree : Prop :=
  ∀ order : List Nat, order.Nodup → (∀ n, n ∈ order ↔ n ∈ q.nodes) → ∀ random,
    ∀ n i m i', q.IsEdge n i m i' → ∃ seeds, seedsAt (q.run random order) n i = some seeds
        ∧ seedsAt (q.run random order) m i' = some seeds

/-- A join that is not on one column of one table has the same template
seeds from both sides; or there are no templates for it, and no other join
of the query is between the same columns of the same tables. -/
def UniqueKeys : Prop :=
  ∀ n ∈ q.nodes, ∀ (i : Nat) (j k), (q.joins n)[i]? = some j → joinKey (q.tableId n) j = k →
    k ≠ k.other →
      (q.templates k).map SketchTemplate.seeds = (q.templates k.other).map SketchTemplate.seeds
      ∧ (q.templates k = none → ∀ n' ∈ q.nodes, ∀ (i' : Nat) (j'), (q.joins n')[i']? = some j' →
          joinKey (q.tableId n') j' = k → n' = n ∧ i' = i)

end SketchInput

end Compass.PushDown
