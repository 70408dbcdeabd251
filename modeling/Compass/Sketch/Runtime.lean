/-
The host's `FAGMS_Sketch` (QueryEngine/Sketch/Sketches.h) as the join
ordering uses it, over exact rational numbers in place of `double`.

A sketch has one array of cells for each join column of its table,
`separate_sketch_elem`, filled once and never changed afterwards, and one
working array `sketch_elem` that every estimate overwrites: either with
one column (`Add_Sketch_Values`) or with the per-cell minimum of several
(`Set_Sketch_With_Max`, `Choose_Sketch_Min_Val`, `Merge_Zero`). All
sketches of a session have the same number of rows and buckets, so the
dimensions are a parameter here and not a field. The xi seeds are left
out: nothing in the ordering reads them.

`Size_Of_Join` multiplies the working arrays cell by cell, sums over the
buckets of a row and takes the median of the absolute row sums. Its two
overloads have separate loops in the source and are kept apart here.

The runtime half of the Fast-AGMS sketch: the hash and sign functions of
RuntimeFunctions.cpp and `agg_count_and_update_sketch`, the aggregate
the generated code calls once per surviving row.

# What the model keeps

`hash31`, `CW2B`, `seq_xor` and `EH3` are the C functions over the
machine words the C++ uses (`UInt64`, `UInt32`), so every wrap-around is
the source's. Join keys are `Int64` and are reinterpreted as `uint64_t`
for the bucket hash and truncated to `uint32_t` for the sign, as the
implicit conversions at the two call sites do.

The sketch buffer is an `int64_t*`, but the update statement is
`sketch_data[bucket_idx] += EH3(...) * 1.0`: the cell is converted to
`double`, the sign is added there, and the sum is converted back.
`addSign` is that statement, so a cell of magnitude `2 ^ 53` no longer
moves away from zero.

`pthread_self()` only rotates the order in which the sketch rows are
visited; the thread id is a parameter of the call.

# Dimensions

`SketchDims` carries what the update relies on: at least one row and one
bucket (both are divisors), no signed overflow in
`num_buckets * num_rows` (an `int` product), and a whole buffer that a
`uint32_t` index can address. `SessionInfo` fixes 1021 buckets and 11
rows, and `num_cols_to_update` is passed as a `uint8_t`;
`catSketchDims` is that instance.
-/
import Mathlib.Algebra.Order.AbsoluteValue.Basic
import Compass.Lib.IntDouble
import Compass.Lib.Sorting

namespace Compass.Sketch

structure FagmsDims where
  bucketsNo : Nat
  rowsNo : Nat

/-- The cells of one array. -/
def FagmsDims.cells (dims : FagmsDims) : Nat :=
  dims.bucketsNo * dims.rowsNo

structure FagmsSketch where
  keysNo : Nat
  sketchElem : Nat → ℚ
  separateSketchElem : Nat → Nat → ℚ

-- ======== median

/-- `Median` of SketchUtil.cpp. -/
def median (x : List ℚ) : ℚ :=
  let n := x.length
  if n = 1 then x.getD 0 0
  else if n = 2 then (x.getD 0 0 + x.getD 1 0) / 2
  else
    let sorted := BubbleSort.bubbleSort x
    if n % 2 = 0 then (sorted.getD (n / 2 - 1) 0 + sorted.getD (n / 2) 0) / 2
    else sorted.getD (n / 2) 0

namespace FagmsSketch

variable (dims : FagmsDims)

-- ======== working array

/-- `std::numeric_limits<unsigned>::max()`. -/
def unsignedMax : ℚ := 4294967295

/-- A loop over all cells that assigns `f i` to cell `i`. -/
def setCells (s : FagmsSketch) (f : Nat → ℚ) : FagmsSketch :=
  { s with sketchElem := fun i =>
      if i < dims.cells then f i else s.sketchElem i }

def setSketchWithMax (s : FagmsSketch) : FagmsSketch :=
  s.setCells dims fun _ => unsignedMax

def mergeZero (s : FagmsSketch) : FagmsSketch :=
  s.setCells dims fun i =>
    if s.sketchElem i = unsignedMax then 0 else s.sketchElem i

/-- The cell update of `Choose_Sketch_Min_Val`: a non-zero value of
strictly smaller magnitude replaces the current one. -/
def chooseMin (current v : ℚ) : ℚ :=
  if v ≠ 0 ∧ |current| > |v| then v else current

def chooseSketchMinVal (colIdx : Nat) (s : FagmsSketch) : FagmsSketch :=
  s.setCells dims fun i =>
    chooseMin (s.sketchElem i) (s.separateSketchElem colIdx i)

/-- The merge of a list of columns, as the estimates call it. -/
def mergeChosen (cols : List Nat) (s : FagmsSketch) : FagmsSketch :=
  (cols.foldl (fun s colIdx => s.chooseSketchMinVal dims colIdx)
    (s.setSketchWithMax dims)).mergeZero dims

def addSketchValues (colIdx : Nat) (s : FagmsSketch) : FagmsSketch :=
  s.setCells dims fun i => s.separateSketchElem colIdx i

/-- The number of non-zero buckets of a column in its fullest row. -/
def maxNonZeroBuckets (colIdx : Nat) (s : FagmsSketch) : Nat :=
  (List.range dims.rowsNo).foldl (fun maxC i =>
    let cnt := (List.range dims.bucketsNo).countP fun j =>
      s.separateSketchElem colIdx (i * dims.bucketsNo + j) ≠ 0
    if cnt > maxC then cnt else maxC) 0

-- ======== size of join

/-- `if (t == 0) t = pow(10, -4)`. -/
def nonZero (t : ℚ) : ℚ :=
  if t = 0 then 1 / 10000 else t

/-- `Size_Of_Join` with one other sketch. -/
def sizeOfJoin (s s1 : FagmsSketch) : ℚ :=
  median ((List.range dims.rowsNo).map fun i =>
    |(List.range dims.bucketsNo).foldl (fun est j =>
      let cell := i * dims.bucketsNo + j
      est + nonZero (s.sketchElem cell) * nonZero (s1.sketchElem cell)) 0|)

/-- `Size_Of_Join` with an array of other sketches. -/
def sizeOfJoins (s : FagmsSketch) (s1 : List FagmsSketch) : ℚ :=
  median ((List.range dims.rowsNo).map fun i =>
    |(List.range dims.bucketsNo).foldl (fun est j =>
      let cell := i * dims.bucketsNo + j
      est + s1.foldl (fun bp t => bp * nonZero (t.sketchElem cell))
        (nonZero (s.sketchElem cell))) 0|)

end FagmsSketch


-- ======== hash and sign

/-- `RANDOM_GEN_SCHEME_MOD`: the Mersenne prime `2^31 - 1`. -/
def randomGenSchemeMod : Nat := 2147483647

/-- `hash31`: Carter-Wegman hash with the Mersenne folding trick. -/
def hash31 (a b x : UInt64) : UInt32 :=
  let result := a * x + b
  let folded := ((result >>> 31) + result) &&& UInt64.ofNat randomGenSchemeMod
  folded.toUInt32

/-- `CW2B`: the bucket of key `x` among `m` buckets. -/
def cw2b (a b : UInt32) (x : UInt64) (m : UInt32) : UInt32 :=
  let pRes := hash31 a.toUInt64 b.toUInt64 x
  if m = UInt32.ofNat randomGenSchemeMod then pRes else pRes % m

/-- `seq_xor`: the parity of the bits of `x`. -/
def seqXor (x : UInt32) : UInt32 :=
  let x := x ^^^ (x >>> 16)
  let x := x ^^^ (x >>> 8)
  let x := x ^^^ (x >>> 4)
  let x := x ^^^ (x >>> 2)
  let x := x ^^^ (x >>> 1)
  x &&& 1

/-- `EH3`: the variable of key `j`, plus or minus one. The mask `(1U == 1U)` of the
source is the integer one. -/
def eh3 (i0 i1 j : UInt32) : Int :=
  let pRes := (i1 &&& j) ^^^ (j &&& (j <<< 1) &&& 0xAAAAAAAA)
  if (i0 ^^^ seqXor pRes) &&& 1 ≠ 0 then 1 else -1

-- ======== dimensions

/-- The dimensions the generated code passes to the update, with the
bounds its index arithmetic relies on. -/
structure SketchDims where
  /-- `num_cols_to_update` -/
  numCols : Nat
  /-- `num_buckets` -/
  numBuckets : Nat
  /-- `num_rows` -/
  numRows : Nat
  cols_u8 : numCols < 2 ^ 8
  buckets_u16 : numBuckets < 2 ^ 16
  rows_u16 : numRows < 2 ^ 16
  buckets_pos : 0 < numBuckets
  rows_pos : 0 < numRows
  size_int : numBuckets * numRows < 2 ^ 31
  total_u32 : numCols * (numBuckets * numRows) < 2 ^ 32

/-- `sketch_size`: the cells of one column's sketch. -/
def SketchDims.sketchSize (d : SketchDims) : Nat :=
  d.numBuckets * d.numRows

/-- The cells of the whole buffer, `data_alloc_size` on the CPU. -/
def SketchDims.totalSize (d : SketchDims) : Nat :=
  d.numCols * d.sketchSize

/-- `CAT_SKETCH_BUCKETS` and `CAT_SKETCH_ROWS` with any number of
columns the `uint8_t` parameter holds. -/
def catSketchDims (cols : Nat) (h : cols < 2 ^ 8) : SketchDims where
  numCols := cols
  numBuckets := 1021
  numRows := 11
  cols_u8 := h
  buckets_u16 := by decide
  rows_u16 := by decide
  buckets_pos := by decide
  rows_pos := by decide
  size_int := by decide
  total_u32 := by omega

/-- The seed arrays `xi_bucket` and `xi_pm1`, flattened by the codegen
to two words per (row, column). -/
structure Seeds where
  xiBucket : Nat → UInt32
  xiPm1 : Nat → UInt32

/-- The join-key values of one row, `keys[j]` for column `j`. -/
abbrev Keys := Nat → Int64

-- ======== one cell's update

variable (d : SketchDims) (xi : Seeds)

/-- `first_seed_idx` of (row, column). -/
def firstSeedIdx (rowIdx j : Nat) : Nat := 2 * (d.numCols * rowIdx + j)

/-- `b`: the bucket of column `j`'s key in sketch row `rowIdx`. -/
def bucketOf (keys : Keys) (rowIdx j : Nat) : Nat :=
  (cw2b (xi.xiBucket (firstSeedIdx d rowIdx j))
    (xi.xiBucket (firstSeedIdx d rowIdx j + 1))
    (keys j).toUInt64 (UInt32.ofNat d.numBuckets)).toNat

/-- `bucket_idx`: the cell of the flat buffer that (row, column)
updates, truncated to `uint32_t` as the source does. -/
def bucketIdx (keys : Keys) (rowIdx j : Nat) : Nat :=
  let rowBuckets := rowIdx * d.numBuckets % 2 ^ 32
  (j * d.sketchSize + rowBuckets + bucketOf d xi keys rowIdx j) % 2 ^ 32

/-- The sign that (row, column) adds to its cell. -/
def signOf (keys : Keys) (rowIdx j : Nat) : Int :=
  eh3 (xi.xiPm1 (firstSeedIdx d rowIdx j))
    (xi.xiPm1 (firstSeedIdx d rowIdx j + 1)) (keys j).toUInt64.toUInt32

/-- `cell += sign * 1.0` on an `int64_t` cell. -/
def addSign (cell sign : Int) : Int :=
  IntDouble.add (IntDouble.ofInt cell) sign

-- ======== the aggregate

/-- What the aggregate mutates: the row counter and the sketch buffer. -/
structure AggState where
  counter : Int
  sketchData : Nat → Int

/-- `sketch_data[idx] += sign * 1.0`. -/
def AggState.addTo (st : AggState) (idx : Nat) (sign : Int) : AggState :=
  { st with
    sketchData := Function.update st.sketchData idx
      (addSign (st.sketchData idx) sign) }

/-- The zeroed buffer `executePlanWithoutGroupBy` hands to the query. -/
def AggState.zero : AggState := { counter := 0, sketchData := fun _ => 0 }

/-- The double loop of the update: every sketch row, starting at
`rowFirstModulo` and wrapping around, and every column in it. The CPU
and the GPU aggregates differ only in what the body does. -/
def forRowsAndCols {σ : Type} (d : SketchDims) (rowFirstModulo : Nat)
    (body : σ → Nat → Nat → σ) (init : σ) : σ :=
  (List.range d.numRows).foldl
    (fun st i =>
      let rowIdx := (rowFirstModulo + i) % d.numRows
      (List.range d.numCols).foldl (fun st j => body st rowIdx j) st)
    init

/-- `agg_count_and_update_sketch`, called by the thread `threadId` on a
row with the given keys. -/
def aggCountAndUpdateSketch (threadId : Nat) (keys : Keys) (st : AggState) : AggState :=
  let st' := forRowsAndCols d (threadId % d.numRows)
    (fun st rowIdx j =>
      st.addTo (bucketIdx d xi keys rowIdx j) (signOf d xi keys rowIdx j))
    st
  { st' with counter := st'.counter + 1 }

/-- One call of the aggregate: who makes it, on which row. -/
structure Call where
  threadId : Nat
  keys : Keys

/-- The rows of a list of calls. -/
def rowsOf (calls : List Call) : List Keys := calls.map Call.keys

/-- A sequence of calls on one buffer. -/
def feed (st : AggState) (calls : List Call) : AggState :=
  calls.foldl (fun st c => aggCountAndUpdateSketch d xi c.threadId c.keys st)
    st

/-- The sketch that a sequence of calls leaves in a zeroed buffer. -/
def sketchOf (calls : List Call) : Nat → Int :=
  (feed d xi AggState.zero calls).sketchData

/-- Cell-wise sum of the sketches of several buffers. -/
def mergeSketches (sketches : List (Nat → Int)) : Nat → Int :=
  fun c => (sketches.map fun s => s c).sum

end Compass.Sketch
