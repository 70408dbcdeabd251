/-
The streaming top-k heap of a thread (QueryEngine/TopKRuntime.cpp).

# The buffer

`heaps` begins with the node count of every thread, behind these are the
heaps, k quadwords for a thread, and behind these the rows, k for a thread.
A heap holds the numbers of rows; the first quadword of a row is its own
number, and the key stands in it at `key_offset`.

Quadwords are counted from `heaps` on, keys are addressed by bytes. The two
are apart: the quadwords that are read and written here are the counts, the
heaps and the first one of a row, and a key lies behind that (`Layout`).
`uint32_t` products wrap around.

# Keys

Any ordered type. Of `float` and `double` these are the numbers; a NaN is in
no order.
-/
import Compass.Lib.HeapOrder

namespace Compass.TopN

inductive HeapOrdering where
  | MIN | MAX
deriving DecidableEq, Repr

inductive NullsOrdering where
  | FIRST | LAST
deriving DecidableEq, Repr

-- ======== memory

/-- The quadwords of a buffer, and the keys in it. -/
structure Memory (K : Type) where
  quad : Nat → Nat
  key : Nat → K

namespace Memory

variable {K : Type}

def setQuad (mem : Memory K) (addr value : Nat) : Memory K :=
  { mem with quad := fun a => if a = addr then value else mem.quad a }

def setKey (mem : Memory K) (addr : Nat) (value : K) : Memory K :=
  { mem with key := fun a => if a = addr then value else mem.key a }

end Memory

structure KeyAccessor where
  /-- The address of the rows, in bytes. -/
  buffer : Nat
  stride : Nat
  index : Nat
  /-- `sizeof(KeyT)`. -/
  size : Nat

def KeyAccessor.get {K : Type} (accessor : KeyAccessor) (mem : Memory K) (rowid : Nat) : K :=
  mem.key (accessor.buffer + accessor.stride * rowid + accessor.size * accessor.index)

-- ======== comparison

structure KeyComparator (K : Type) where
  heapOrdering : HeapOrdering
  hasNulls : Bool
  nullKey : K
  nullsOrdering : NullsOrdering

/-- `KeyComparator::operator()`. -/
def KeyComparator.compare {K : Type} [LinearOrder K] (c : KeyComparator K) (lhs rhs : K) : Bool :=
  let less := match c.heapOrdering with
    | .MIN => decide (lhs < rhs)
    | .MAX => decide (lhs > rhs)
  if c.hasNulls then
    match c.nullsOrdering with
    | .FIRST =>
      if rhs = c.nullKey then true
      else if lhs = c.nullKey then false
      else less
    | .LAST =>
      if lhs = c.nullKey then true
      else if rhs = c.nullKey then false
      else less
  else less

-- ======== sifts

section

variable {K : Type} (compare : K → K → Bool) (accessor : KeyAccessor) (heap : Nat)

/-- The exchange of two elements of the heap. -/
def exchangeNodes (mem : Memory K) (i j : Nat) : Memory K :=
  let tempId := mem.quad (heap + i)
  (mem.setQuad (heap + i) (mem.quad (heap + j))).setQuad (heap + j) tempId

/-- The child that `sift_down` looks at, or `last`. -/
def candidateIdx (mem : Memory K) (last i : Nat) : Nat :=
  let leftChild := min (2 * i + 1) last
  let rightChild := min (2 * i + 2) last
  if leftChild < last then
    if rightChild < last then
      let leftKey := accessor.get mem (mem.quad (heap + leftChild))
      let rightKey := accessor.get mem (mem.quad (heap + rightChild))
      if compare leftKey rightKey then leftChild else rightChild
    else leftChild
  else rightChild

theorem lt_candidateIdx {mem : Memory K} {last i : Nat}
    (h : candidateIdx compare accessor heap mem last i < last) :
    i < candidateIdx compare accessor heap mem last i := by
  simp only [candidateIdx] at h ⊢
  split_ifs at h ⊢ <;> omega

def siftDown (mem : Memory K) (last i : Nat) : Memory K :=
  if i < last then
    let candidate := candidateIdx compare accessor heap mem last i
    if _ : candidate < last then
      let currKey := accessor.get mem (mem.quad (heap + i))
      let candidateKey := accessor.get mem (mem.quad (heap + candidate))
      if compare currKey candidateKey then mem
      else siftDown (exchangeNodes heap mem i candidate) last candidate
    else mem
  else mem
termination_by last - i
decreasing_by
  have := lt_candidateIdx compare accessor heap ‹_›
  omega

def siftUp (mem : Memory K) (i : Nat) : Memory K :=
  if 0 < i then
    let parent := (i - 1) / 2
    let currKey := accessor.get mem (mem.quad (heap + i))
    let parentKey := accessor.get mem (mem.quad (heap + parent))
    if compare parentKey currKey then mem
    else siftUp (exchangeNodes heap mem i parent) parent
  else mem
termination_by i
decreasing_by omega

-- ======== the heap

/-- `push_heap`. -/
def pushHeap (nodeCount rows rowSizeQuad keyOffset : Nat) (mem : Memory K) (currKey : K) :
    Memory K :=
  let binIndex := mem.quad nodeCount
  let mem := mem.setQuad nodeCount (binIndex + 1)
  let mem := mem.setQuad (heap + binIndex) binIndex
  let rowPtr := 8 * (rows + binIndex * rowSizeQuad)
  let mem := mem.setKey (rowPtr + keyOffset) currKey
  siftUp compare accessor heap mem binIndex

/-- `pop_and_push_heap`. -/
def popAndPushHeap (nodeCount rows rowSizeQuad keyOffset : Nat) (mem : Memory K) (currKey : K) :
    Memory K × Bool :=
  let topBinIdx := mem.quad heap
  let topKey := 8 * (rows + topBinIdx * rowSizeQuad) + keyOffset
  if compare currKey (mem.key topKey) then (mem, false)
  else
    let mem := mem.setKey topKey currKey
    (siftDown compare accessor heap mem nodeCount 0, true)

end

/-- What the kernel is called with, for a thread: `pos_start_impl` and
`pos_step_impl` give the index of the thread and the count of the threads, 0
and 1 on the host. The buffer has fewer than 2^32 quadwords. -/
structure Layout where
  threadGlobalIndex : Nat
  threadCount : Nat
  k : Nat
  rowSizeQuad : Nat
  keyOffset : Nat
  /-- `sizeof(KeyT)`. -/
  keySize : Nat
  index_lt : threadGlobalIndex < threadCount
  k_pos : 1 ≤ k
  heaps_fit : threadCount * k < 2 ^ 32
  rows_fit : threadGlobalIndex * rowSizeQuad * k < 2 ^ 32
  keySize_pos : 0 < keySize
  key_aligned : keySize ∣ keyOffset
  key_behind : 8 ≤ keyOffset
  key_inside : keyOffset + keySize ≤ 8 * rowSizeQuad

namespace Layout

variable (L : Layout)

/-- `heap_ptr`. -/
def heapPtr : Nat :=
  L.threadCount + L.threadGlobalIndex * L.k % 2 ^ 32

/-- `rows_ptr`. -/
def rowsPtr : Nat :=
  L.threadCount + L.threadCount * L.k % 2 ^ 32
    + L.threadGlobalIndex * L.rowSizeQuad % 2 ^ 32 * L.k % 2 ^ 32

def accessor : KeyAccessor where
  buffer := 8 * L.rowsPtr
  stride := L.rowSizeQuad * 8
  index := L.keyOffset / L.keySize
  size := L.keySize

end Layout

section

variable {K : Type} [LinearOrder K] (L : Layout) (minHeap hasNull nullsFirst : Bool) (nullKey : K)

def comparator : KeyComparator K where
  heapOrdering := if minHeap then .MIN else .MAX
  hasNulls := hasNull
  nullKey := nullKey
  nullsOrdering := if nullsFirst then .FIRST else .LAST

/-- `get_bin_from_k_heap_impl`, with the quadword that the pointer it returns
points to. -/
def getBinFromKHeap (mem : Memory K) (currKey : K) : Memory K × Option Nat :=
  let compare := (comparator minHeap hasNull nullsFirst nullKey).compare
  let nodeCount := L.threadGlobalIndex
  if mem.quad nodeCount < L.k then
    let mem := pushHeap compare L.accessor L.heapPtr nodeCount L.rowsPtr L.rowSizeQuad L.keyOffset
      mem currKey
    let lastBinIndex := mem.quad nodeCount - 1
    let rowPtr := L.rowsPtr + lastBinIndex * L.rowSizeQuad
    (mem.setQuad rowPtr lastBinIndex, some (rowPtr + 1))
  else
    let topBinIdx := mem.quad L.heapPtr
    let (mem, accepted) := popAndPushHeap compare L.accessor L.heapPtr (mem.quad nodeCount)
      L.rowsPtr L.rowSizeQuad L.keyOffset mem currKey
    if !accepted then (mem, none)
    else
      let rowPtr := L.rowsPtr + topBinIdx * L.rowSizeQuad
      (mem.setQuad rowPtr topBinIdx, some (rowPtr + 1))

/-- The calls of one thread for a sequence of keys. -/
def run (mem : Memory K) (keys : List K) : Memory K :=
  keys.foldl (fun mem key => (getBinFromKHeap L minHeap hasNull nullsFirst nullKey mem key).1) mem

end

-- ======== the claim

/-- `x` is at most as good as `y`: smaller for a heap with the minimum on top,
and NULL the best or the worst. -/
def KeyComparator.AtMost {K : Type} [LinearOrder K] (c : KeyComparator K) (x y : K) : Prop :=
  let least := match c.heapOrdering with
    | .MIN => x ≤ y
    | .MAX => y ≤ x
  if c.hasNulls then
    match c.nullsOrdering with
    | .FIRST => y = c.nullKey ∨ (x ≠ c.nullKey ∧ least)
    | .LAST => x = c.nullKey ∨ (y ≠ c.nullKey ∧ least)
  else least

namespace Layout

variable {K : Type} (L : Layout) (mem : Memory K)

/-- The node count of the thread. -/
def count : Nat :=
  mem.quad L.threadGlobalIndex

/-- An element of the heap of the thread. -/
def node (i : Nat) : Nat :=
  mem.quad (L.heapPtr + i)

/-- The key in a row of the thread. -/
def rowKey (bin : Nat) : K :=
  mem.key (8 * (L.rowsPtr + bin * L.rowSizeQuad) + L.keyOffset)

/-- The keys in the rows up to the node count. -/
def keptKeys : List K :=
  (List.range (L.count mem)).map (L.rowKey mem)

/-- What a call for a key leaves in memory, by what it returns. -/
def Stored (x : K) (mem mem' : Memory K) : Option Nat → Prop
  | none => mem' = mem
  | some ptr => ∃ bin < L.count mem', ptr = L.rowsPtr + bin * L.rowSizeQuad + 1
      ∧ L.rowKey mem' bin = x ∧ mem'.quad (L.rowsPtr + bin * L.rowSizeQuad) = bin

/-- The heap is a permutation of the rows, its root is a worst one, and their
keys are the k best. -/
structure KeepsBest [LinearOrder K] (c : KeyComparator K) (keys : List K) (mem : Memory K) :
    Prop where
  count : L.count mem = min L.k keys.length
  permutation : ((List.range (L.count mem)).map (L.node mem)).Perm (List.range (L.count mem))
  root_worst : ∀ bin < L.count mem, c.AtMost (L.rowKey mem (L.node mem 0)) (L.rowKey mem bin)
  best : HeapOrder.Best c.AtMost L.k keys (L.keptKeys mem)

end Layout

end Compass.TopN
