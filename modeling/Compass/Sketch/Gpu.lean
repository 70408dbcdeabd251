/-
The GPU half of the sketch update: the device copies of the hash and
sign functions and `agg_count_and_update_sketch_gpu`
(cuda_mapd_rt.cu), the buffer the executor allocates for a launch
(Execute.cpp, `executePlanWithoutGroupBy`) and the reduction over blocks
that `launchGpuCode` makes on the host (GroupByAndAggregate.cpp).

# Layout

The buffer holds one region per block: `blockDim.x` counters, one per
thread, followed by the block's own copy of the whole sketch. The device
computes a region's start from the sketch dimensions, the host from the
allocated size, and the allocated size is computed in a third place;
`blockSet`, `counterSketchSize` and `dataAllocSize` are those three
products. All operands of the allocation are `unsigned`, so the product
is taken modulo `2 ^ 32` before it is stored in a `uint64_t`.

Each update call of a thread is one atomic step; a launch is any list of
such calls.

# Dispatch

How the sketch of a table is put together: `dispatchFragments` starts
one kernel per fragment on the CPU and one per device on the GPU, and
each kernel ends in `executePlanWithoutGroupBy` (Execute.cpp), which
runs the query on a buffer of its own and then copies the sketch out of
it into the executor's `separate_sketch_elements`.

The row count of a kernel goes into the ordinary per-fragment results
and is reduced with the others. The sketch does not: it leaves through
the copy-out loop, whose comment announces an "Addition operation" after
each thread, and whose assignment installs the freshly copied column in
place of what the previous kernel left there.
-/
import Compass.Sketch.Runtime

namespace Compass.Sketch

-- ======== device copies

/-- The device copy of `hash31`. -/
def Device.hash31 (a b x : UInt64) : UInt32 :=
  let result := a * x + b
  let folded := ((result >>> 31) + result) &&& UInt64.ofNat randomGenSchemeMod
  folded.toUInt32

/-- The device copy of `CW2B`, which takes the seeds as `uint64_t`. -/
def Device.cw2b (a b x : UInt64) (m : UInt32) : UInt32 :=
  let pRes := Device.hash31 a b x
  if m = UInt32.ofNat randomGenSchemeMod then pRes else pRes % m

/-- The device copy of `seq_xor`. -/
def Device.seqXor (x : UInt32) : UInt32 :=
  let x := x ^^^ (x >>> 16)
  let x := x ^^^ (x >>> 8)
  let x := x ^^^ (x >>> 4)
  let x := x ^^^ (x >>> 2)
  let x := x ^^^ (x >>> 1)
  x &&& 1

/-- The device copy of `EH3`. -/
def Device.eh3 (i0 i1 j : UInt32) : Int :=
  let pRes := (i1 &&& j) ^^^ (j &&& (j <<< 1) &&& 0xAAAAAAAA)
  if (i0 ^^^ Device.seqXor pRes) &&& 1 ≠ 0 then 1 else -1

-- ======== the launch

/-- A launch configuration, `gridSize()` and `blockSize()`. -/
structure LaunchShape where
  gridSize : Nat
  blockSize : Nat

variable (d : SketchDims) (xi : Seeds) (shape : LaunchShape)

/-- `data_alloc_size` of the GPU path: an `unsigned` product. -/
def dataAllocSize : Nat :=
  shape.gridSize
    * (shape.blockSize + d.numRows * d.numBuckets * d.numCols % 2 ^ 32)
    % 2 ^ 32

/-- `block_set`: where the region of a block starts, as the device
computes it. -/
def blockSet (blockIdx : Nat) : Nat :=
  (d.sketchSize * d.numCols + shape.blockSize) * blockIdx % 2 ^ 64

/-- `sketch_start_point`: the block's sketch follows its counters. -/
def sketchStartPoint (blockIdx : Nat) : Nat :=
  blockSet d shape blockIdx + shape.blockSize

/-- One update call on the device. -/
structure DeviceCall where
  blockIdx : Nat
  threadIdx : Nat
  keys : Keys

/-- The rows a launch is fed, in call order. -/
def deviceRows (calls : List DeviceCall) : List Keys :=
  calls.map DeviceCall.keys

/-- `bucket_idx` on the device. -/
def deviceBucketIdx (keys : Keys) (rowIdx j : Nat) : Nat :=
  let rowBuckets := rowIdx * d.numBuckets % 2 ^ 32
  let b := (Device.cw2b (xi.xiBucket (firstSeedIdx d rowIdx j)).toUInt64
    (xi.xiBucket (firstSeedIdx d rowIdx j + 1)).toUInt64
    (keys j).toUInt64 (UInt32.ofNat d.numBuckets)).toNat
  (j * d.sketchSize + rowBuckets + b) % 2 ^ 32

/-- The sign of (row, column) on the device. -/
def deviceSign (keys : Keys) (rowIdx j : Nat) : Int :=
  Device.eh3 (xi.xiPm1 (firstSeedIdx d rowIdx j))
    (xi.xiPm1 (firstSeedIdx d rowIdx j + 1)) (keys j).toUInt64.toUInt32

/-- `agg_count_and_update_sketch_gpu` as one atomic step on the launch's
buffer. -/
def aggCountAndUpdateSketchGpu (call : DeviceCall) (mem : Nat → Int) :
    Nat → Int :=
  let counterIdx := blockSet d shape call.blockIdx + call.threadIdx
  let mem := Function.update mem counterIdx (mem counterIdx + 1)
  forRowsAndCols d (call.threadIdx % d.numRows)
    (fun (mem : Nat → Int) rowIdx j =>
      let idx := sketchStartPoint d shape call.blockIdx
        + deviceBucketIdx d xi call.keys rowIdx j
      Function.update mem idx
        (addSign (mem idx) (deviceSign d xi call.keys rowIdx j)))
    mem

/-- The cells a device call writes. -/
def deviceWrites (call : DeviceCall) : List Nat :=
  (blockSet d shape call.blockIdx + call.threadIdx)
    :: (List.range d.numRows).flatMap fun rowIdx =>
        (List.range d.numCols).map fun j =>
          sketchStartPoint d shape call.blockIdx
            + deviceBucketIdx d xi call.keys rowIdx j

/-- A launch: the calls of all threads, in the order they take effect,
on the zeroed buffer. -/
def runLaunch (calls : List DeviceCall) : Nat → Int :=
  calls.foldl (fun mem call => aggCountAndUpdateSketchGpu d xi shape call mem)
    fun _ => 0

-- ======== the host reduction

/-- `sketch_size` as the host recovers it from the buffer's size. -/
def hostSketchSize : Nat :=
  dataAllocSize d shape / shape.gridSize - shape.blockSize

/-- `counter_sketch_size`: the stride of the host's walk. -/
def counterSketchSize : Nat := shape.blockSize + hostSketchSize d shape

/-- `counts`: the counters of all threads, block by block. -/
def hostCounts (mem : Nat → Int) : List Int :=
  (List.range shape.gridSize).flatMap fun blockIdx =>
    (List.range shape.blockSize).map fun threadIdx =>
      mem (counterSketchSize d shape * blockIdx + threadIdx)

/-- The row count `reduceResults` makes of the counters. -/
def hostRowCount (mem : Nat → Int) : Int := (hostCounts d shape mem).sum

/-- `updated_sketch`: the blocks' sketches added up. -/
def updatedSketch (mem : Nat → Int) (c : Nat) : Int :=
  ((List.range shape.gridSize).map fun blockIdx =>
    mem (counterSketchSize d shape * blockIdx + shape.blockSize + c)).sum

end Compass.Sketch

namespace Compass.Sketch

-- ======== the dispatch

/-- `ExecutorDeviceType`, less the hybrid mode that picks one of the two
per fragment. -/
inductive ExecutorDeviceType where
  | cpu
  | gpu
  deriving DecidableEq

/-- A fragment of the scanned table: the device that holds it and the
join keys of its rows that pass the filter. -/
structure Fragment where
  deviceId : Nat
  rows : List Keys

/-- The fragments each kernel scans: every fragment by itself on the
CPU, all fragments of a device together on the GPU. -/
def dispatchFragments : ExecutorDeviceType → List Fragment →
    List (List Fragment)
  | .cpu, frags => frags.map fun f => [f]
  | .gpu, frags =>
    (frags.map Fragment.deviceId).dedup.map fun dev =>
      frags.filter fun f => f.deviceId = dev

/-- One execution of a kernel: the aggregate calls it makes, with the
thread ids or the launch they are made from. -/
inductive KernelRun where
  | cpu (calls : List Call)
  | gpu (shape : LaunchShape) (calls : List DeviceCall)

/-- The rows a kernel execution was fed. -/
def KernelRun.rows : KernelRun → List Keys
  | .cpu calls => rowsOf calls
  | .gpu _ calls => deviceRows calls

variable (d : SketchDims) (xi : Seeds)

/-- The sketch a kernel execution computes in its own buffer. -/
def KernelRun.sketch : KernelRun → Nat → Int
  | .cpu calls => sketchOf d xi calls
  | .gpu shape calls =>
    updatedSketch d shape (runLaunch d xi shape calls)

/-- The row count a kernel execution computes. -/
def KernelRun.count : KernelRun → Int
  | .cpu calls => (feed d xi AggState.zero calls).counter
  | .gpu shape calls => hostRowCount d shape (runLaunch d xi shape calls)

/-- What the kernels of one query share: the sketch columns and the
per-fragment results. -/
structure DispatchState where
  separateSketchElements : Nat → Nat → Int
  fragmentCounts : List Int

/-- Freshly seeded sketch columns and no results. -/
def DispatchState.init : DispatchState :=
  { separateSketchElements := fun _ _ => 0, fragmentCounts := [] }

/-- `executePlanWithoutGroupBy` of the sketch query: copy every column
of the kernel's buffer out, and hand the count to the reduction. -/
def executePlanWithoutGroupBy (st : DispatchState) (run : KernelRun) :
    DispatchState where
  separateSketchElements :=
    (List.range d.numCols).foldl
      (fun elems i =>
        let columnSketch := fun j => run.sketch d xi (i * d.sketchSize + j)
        Function.update elems i columnSketch)
      st.separateSketchElements
  fragmentCounts := st.fragmentCounts ++ [run.count d xi]

/-- All kernels of a query, in the order in which they finish. -/
def runKernels (runs : List KernelRun) : DispatchState :=
  runs.foldl (executePlanWithoutGroupBy d xi) DispatchState.init

end Compass.Sketch
