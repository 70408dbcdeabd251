/-
Runs of the buffer pool, and what is to hold in every state of a run.

What is asked of `findFreeBuffer` (BufferMgr.cpp).

It is called with the pool as it is between two operations, or in the
middle of `createBuffer`, when the new key has a segment that is not sized
yet. The client may do anything, and the allocator may refuse any slab.

The largest slab that is still asked for shrinks with every refusal. The
sizes that are tried in one call are `Asked`: from the largest on, half of
a size as long as the request fits into it, and at last the request itself.

The buffers of the pool with their data (Buffer.cpp, BufferMgr.cpp).

`BufferMgr` leaves out what is in the buffers. Here a buffer has its size,
its dirty flags and the flags of its pages, and the slabs have their bytes.
A buffer that moves to another segment takes the first `size_` bytes with
it; the flags are resized once the segment is there.

A function that throws leaves the pool as it is by then.
-/
import Compass.BufferPool.BufferMgr

namespace Compass.BufferPool

/-- What a client does. The operations on a buffer name it by its key; the
allocator says which slabs it has while an operation runs. -/
inductive Op
  | createBuffer (key : ChunkKey) (chunkPageSize initialSize : Nat)
      (canAlloc : Nat → Bool)
  | reserve (key : ChunkKey) (numBytes : Nat) (canAlloc : Nat → Bool)
  | pin (key : ChunkKey)
  | unPin (key : ChunkKey)
  | deleteBuffer (key : ChunkKey)
  | deleteBuffersWithPrefix (keyPrefix : ChunkKey)
  | clearSlabs

namespace BufferMgr

variable (cfg : Config) (mgr : BufferMgr)

/-- The buffer of a key: `chunkIndex_[key]->buffer`. -/
def bufferOf (key : ChunkKey) : Option Nat :=
  ((StdMap.find? mgr.chunkIndex key).bind mgr.deref).bind Segment.buffer

def pinCountOf (key : ChunkKey) : Option Int :=
  ((mgr.bufferOf key).bind mgr.buffers).map Buffer.pinCount

/-- `++pinCount_` or `--pinCount_`. -/
def addPin (key : ChunkKey) (n : Int) : Except Fault BufferMgr :=
  match mgr.bufferOf key with
  | none => .error .undefined
  | some b =>
    match mgr.buffers b with
    | none => .error .undefined
    | some buf =>
      .ok (mgr.setBuffer b (some { buf with pinCount := buf.pinCount + n }))

def step : Op → Except Fault BufferMgr
  | .createBuffer key chunkPageSize initialSize canAlloc =>
    mgr.createBuffer cfg canAlloc key chunkPageSize initialSize
  | .reserve key numBytes canAlloc =>
    match mgr.bufferOf key with
    | none => .error .undefined
    | some b => mgr.reserve cfg canAlloc b numBytes
  | .pin key => mgr.addPin key 1
  | .unPin key => mgr.addPin key (-1)
  | .deleteBuffer key => mgr.deleteBuffer key
  | .deleteBuffersWithPrefix keyPrefix => mgr.deleteBuffersWithPrefix keyPrefix
  | .clearSlabs => mgr.clearSlabs

/-- A client pins, unpins and grows buffers that are there, and only grows
what is pinned. -/
def Allowed : Op → Prop
  | .reserve key _ _ => ∃ n, mgr.pinCountOf key = some n ∧ 0 < n
  | .pin key => key ∈ mgr.chunkIndex.map Prod.fst
  | .unPin key => key ∈ mgr.chunkIndex.map Prod.fst
  | _ => True

-- ======== the condition

/-- The loop that adds slabs gets one, or gives up for good, or is not
reached since the request is too large for any. -/
def GetsSlab (canAlloc : Nat → Bool) (numPagesRequested : Nat) : Prop :=
  let search := addSlabLoop cfg canAlloc numPagesRequested
    mgr.numPagesAllocated mgr.currentMaxSlabPageSize mgr.allocationsCapped
  cfg.maxNumPagesPerSlab < numPagesRequested
    ∨ search.added ≠ none ∨ search.allocationsCapped

/-- A request that finds no slab gets one: the pool is not left without a
slab and without a cap. -/
def FirstSlab (canAlloc : Nat → Bool) (pageSize numBytes : Nat) : Prop :=
  mgr.slabs = [] → pagesFor pageSize numBytes = 0
    ∨ mgr.GetsSlab cfg canAlloc (pagesFor cfg.pageSize
      (pageSize * pagesFor pageSize numBytes % 2 ^ 64))

/-- The condition under which a step does what is claimed. -/
def Meets : Op → Prop
  | .createBuffer key chunkPageSize initialSize canAlloc =>
    key ≠ [] ∧ mgr.FirstSlab cfg canAlloc
      (if chunkPageSize = 0 then cfg.pageSize else chunkPageSize) initialSize
  | .reserve key numBytes canAlloc =>
    ∀ b buf, mgr.bufferOf key = some b → mgr.buffers b = some buf →
      mgr.FirstSlab cfg canAlloc buf.pageSize numBytes
  | .deleteBuffersWithPrefix keyPrefix =>
    -- the first key after the ones with the prefix is the last one read
    ∀ kv, ((StdMap.lowerBound mgr.chunkIndex keyPrefix).dropWhile
        fun kv => startsWith keyPrefix kv.1 = some true).head? = some kv →
      keyPrefix.length ≤ kv.1.length
  | _ => True

-- ======== the claim

/-- The representation invariant of the pool. -/
structure Represents : Prop where
  tiled : ∀ slab ∈ mgr.slabs, TilesPages 0 slab.segs slab.numPages
  keys : (mgr.chunkIndex.map Prod.fst).Nodup
  indexed : ∀ key addr, (key, addr) ∈ mgr.chunkIndex →
    ∃ seg, mgr.deref addr = some seg ∧ seg.memStatus = .used
      ∧ seg.chunkKey = key
  disjoint : ∀ slab ∈ mgr.slabs, ∀ seg ∈ slab.segs, ∀ seg' ∈ slab.segs,
    ∀ key key', (key, seg.addr) ∈ mgr.chunkIndex →
      (key', seg'.addr) ∈ mgr.chunkIndex → key ≠ key' →
      seg.startPage + seg.numPages ≤ seg'.startPage
        ∨ seg'.startPage + seg'.numPages ≤ seg.startPage

/-- The keys that an operation is asked to delete. -/
def Deletes : Op → ChunkKey → Prop
  | .deleteBuffer key, k => k = key
  | .deleteBuffersWithPrefix keyPrefix, k => startsWith keyPrefix k = some true
  | _, _ => False

/-- A pinned buffer stays where its key finds it, unless it is deleted. -/
def KeepsPinned (op : Op) (mgr' : BufferMgr) : Prop :=
  ∀ key n, mgr.pinCountOf key = some n → 0 < n → ¬Deletes op key →
    mgr'.bufferOf key = mgr.bufferOf key

/-- What a step may do: it ends well or out of memory, with no pinned
buffer evicted, or stops at a `CHECK` on its arguments. -/
def StepSound (op : Op) : Prop :=
  match mgr.step cfg op with
  | .ok mgr' => mgr.KeepsPinned op mgr'
  | .error (.outOfMemory mgr') => mgr.KeepsPinned op mgr'
  | .error .check => True
  | .error .evictsPinned => False
  | .error .undefined => False

/-- The states that a run reaches if all of its steps are as `P` says. -/
inductive Reached (P : BufferMgr → Op → Prop) : BufferMgr → Prop
  | start : Reached P (init cfg)
  | ok {mgr mgr' : BufferMgr} {op : Op} (hmgr : Reached P mgr) (hop : P mgr op)
      (hstep : mgr.step cfg op = .ok mgr') : Reached P mgr'
  | threw {mgr mgr' : BufferMgr} {op : Op} (hmgr : Reached P mgr)
      (hop : P mgr op)
      (hstep : mgr.step cfg op = .error (.outOfMemory mgr')) : Reached P mgr'

/-- In every state of every such run the pool is as it should be, and so is
what the next step does. -/
def RunsSound (P : BufferMgr → Op → Prop) : Prop :=
  ∀ mgr, Reached cfg P mgr →
    mgr.Represents ∧ ∀ op, P mgr op → mgr.StepSound cfg op

end BufferMgr


namespace BufferMgr

variable (cfg : Config) (mgr : BufferMgr)

/-- Whatever a client does. -/
def Anything (_ : BufferMgr) (_ : Op) : Prop := True

/-- The states that `findFreeBuffer` is called in. -/
inductive Calls : BufferMgr → Prop
  | between {mgr : BufferMgr} (h : Reached cfg Anything mgr) : Calls mgr
  | creating {mgr : BufferMgr} (h : Reached cfg Anything mgr) (key : ChunkKey)
      (pageSize : Nat) : Calls (mgr.insertUnsized key pageSize)

-- ======== the slabs

/-- The pages of the largest slab that is still asked for. -/
def slabLimit : Nat :=
  min (cfg.maxNumPages - mgr.numPagesAllocated) mgr.currentMaxSlabPageSize

/-- No slab is asked for any more. -/
def Closed : Prop :=
  mgr.allocationsCapped = true ∨ cfg.maxNumPages ≤ mgr.numPagesAllocated

/-- The sizes that are tried for a request of `n` pages, from `limit` on,
if all of them are refused. -/
inductive Asked (n limit : Nat) : Nat → Prop
  | limit (hfit : n ≤ limit) : Asked n limit limit
  | half {size : Nat} (h : Asked n limit size) (hfit : n ≤ size / 2)
      (hlarge : cfg.maxNumPagesPerSlab / 8 ≤ size / 2) : Asked n limit (size / 2)
  | request {size : Nat} (h : Asked n limit size) (hhalf : size / 2 < n) : Asked n limit n

/-- The allocator has no slab of this size; one of no pages is always there. -/
def Refused (canAlloc : Nat → Bool) (size : Nat) : Prop :=
  0 < size ∧ canAlloc size = false

/-- No further slab can be added for a request of `n` pages. -/
def NoSlab (canAlloc : Nat → Bool) (n : Nat) : Prop :=
  cfg.maxNumPagesPerSlab < n ∨ mgr.Closed cfg ∨
    ∀ size, Asked cfg n (mgr.slabLimit cfg) size → Refused canAlloc size

-- ======== the outcome

/-- An iterator to a used segment of exactly `n` pages, in a slab that is
there. -/
def Hands (n addr : Nat) : Prop :=
  ∃ seg slabNum slab, mgr.deref addr = some seg ∧ seg.memStatus = .used ∧ seg.numPages = n ∧
    seg.slabNum = some slabNum ∧ mgr.slabs[slabNum]? = some slab ∧ seg ∈ slab.segs

/-- Segments of a slab that follow each other, free or not pinned, with at
least `n` pages. -/
def HasRun (n : Nat) (slab : Slab) : Prop :=
  ∃ before run after, slab.segs = before ++ (run ++ after) ∧ run ≠ [] ∧
    (∀ seg ∈ run, seg.memStatus = .free ∨ mgr.isPinned seg = false) ∧
    n ≤ (run.map Segment.numPages).sum

/-- How `findFreeBuffer` may end. -/
def FoundOrFull (canAlloc : Nat → Bool) (n : Nat) : Except Fault (Nat × BufferMgr) → Prop
  | .ok (addr, mgr') => mgr'.Hands n addr
  | .error (.outOfMemory _) =>
    (∀ slab ∈ mgr.slabs, ¬mgr.HasRun n slab) ∧ mgr.NoSlab cfg canAlloc n
  | .error _ => False

def FreeBufferFound (canAlloc : Nat → Bool) (n : Nat) : Prop :=
  mgr.FoundOrFull cfg canAlloc n (mgr.findFreeBuffer cfg canAlloc n)

/-- There is no slab, and none comes, although the pool does not give up
asking for slabs: the request is larger than what is still asked for, or it
is so large that half of it is not yet too small to ask for. -/
def Slabless (canAlloc : Nat → Bool) (n : Nat) : Prop :=
  mgr.slabs = [] ∧ mgr.allocationsCapped = false ∧ n ≤ cfg.maxNumPagesPerSlab ∧
    (cfg.maxNumPages = 0 ∨ mgr.slabLimit cfg < n ∨ cfg.maxNumPagesPerSlab / 8 ≤ n / 2 ∧
      ∀ size, Asked cfg n (mgr.slabLimit cfg) size → Refused canAlloc size)

end BufferMgr


/-- The fields of `AbstractBuffer` and `Buffer` that are about the data. -/
structure BufferData where
  size : Nat
  isDirty : Bool
  isAppended : Bool
  isUpdated : Bool
  pageDirtyFlags : List Bool
deriving DecidableEq, Repr

/-- `memory n i` is the byte `i` of the slab `n`, whatever it is before it
has been written. -/
structure Pool where
  mgr : BufferMgr
  data : Nat → BufferData
  memory : Nat → Nat → UInt8

/-- How an operation can end, other than well; see `Fault`. -/
inductive PoolFault
  | outOfMemory (pool : Pool)
  | check
  | evictsPinned
  | undefined

namespace Pool

variable (pool : Pool)

/-- What the manager throws reaches the buffers. -/
def raise : Fault → PoolFault
  | .outOfMemory mgr => .outOfMemory { pool with mgr := mgr }
  | .check => .check
  | .evictsPinned => .evictsPinned
  | .undefined => .undefined

/-- The byte that a page of a slab starts at. -/
def pageStart (cfg : Config) (page : Int) : Nat := page.toNat * cfg.pageSize

/-- `memcpy` of `size` bytes, between two pages. -/
def copyPages (cfg : Config) (src dst : Nat × Int) (size : Nat) : Nat → Nat → UInt8 :=
  fun slab i =>
    if slab = dst.1 ∧ pageStart cfg dst.2 ≤ i ∧ i < pageStart cfg dst.2 + size then
      pool.memory src.1 (pageStart cfg src.2 + (i - pageStart cfg dst.2))
    else pool.memory slab i

/-- The bytes of a buffer: the first `size_` ones behind `mem_`. -/
def contents (cfg : Config) (b : Nat) : Option (List UInt8) :=
  ((pool.mgr.buffers b).bind Buffer.mem).map fun mem =>
    (List.range (pool.data b).size).map fun i =>
      pool.memory mem.1 (pageStart cfg mem.2 + i)

/-- The buffer moves, with its bytes if it had a page before. -/
def relocate (cfg : Config) (addr newAddr : Nat) : Except PoolFault Pool :=
  match pool.mgr.relocate addr newAddr with
  | .error fault => .error (pool.raise fault)
  | .ok mgr =>
    match pool.mgr.deref addr, pool.mgr.deref newAddr with
    | some seg, some newSeg =>
      if 0 ≤ seg.startPage then
        -- the segment that is left has a slab, and so has the new one
        match seg.buffer, (seg.buffer.bind pool.mgr.buffers).bind Buffer.mem, newSeg.slabNum with
        | some b, some src, some slabNum =>
          .ok { pool with
            mgr := mgr
            memory := pool.copyPages cfg src (slabNum, newSeg.startPage) (pool.data b).size }
        | _, _, _ => .error .undefined
      else .ok { pool with mgr := mgr }
    | _, _ => .error .undefined

def reserveBuffer (cfg : Config) (canAlloc : Nat → Bool) (addr numBytes : Nat) :
    Except PoolFault (Nat × Pool) :=
  match pool.mgr.deref addr with
  | none => .error .undefined
  | some seg =>
    let numPagesRequested := pagesFor cfg.pageSize numBytes
    if numPagesRequested < seg.numPages then .ok (addr, pool)
    else
      match pool.mgr.growInPlace seg numPagesRequested with
      | some mgr => .ok (addr, { pool with mgr := mgr })
      | none =>
        match pool.mgr.findFreeBuffer cfg canAlloc numPagesRequested with
        | .error fault => .error (pool.raise fault)
        | .ok (newAddr, mgr) =>
          match relocate { pool with mgr := mgr } cfg addr newAddr with
          | .error fault => .error fault
          | .ok pool => .ok (newAddr, pool)

/-- `pageDirtyFlags_.resize`. -/
def resizeFlags (numPages : Nat) (data : BufferData) : BufferData :=
  { data with
    pageDirtyFlags := data.pageDirtyFlags.take numPages ++
      List.replicate (numPages - data.pageDirtyFlags.length) false }

/-- `Buffer::reserve`, of the buffer `b`. -/
def reserve (cfg : Config) (canAlloc : Nat → Bool) (b numBytes : Nat) : Except PoolFault Pool :=
  match pool.mgr.buffers b with
  | none => .error .undefined
  | some buf =>
    let numPages := pagesFor buf.pageSize numBytes
    if buf.numPages < numPages then
      match pool.reserveBuffer cfg canAlloc buf.segIt (buf.pageSize * numPages % 2 ^ 64) with
      | .error fault => .error fault
      | .ok (addr, pool) =>
        match pool.mgr.buffers b with
        | none => .error .undefined
        | some buf =>
          .ok { pool with
            mgr := pool.mgr.setBuffer b (some { buf with segIt := addr, numPages := numPages })
            data := Function.update pool.data b (resizeFlags numPages (pool.data b)) }
    else .ok pool

end Pool

/-- A buffer as it was: its segment, its size and pages, its flags and its
bytes. -/
structure BufferUnchanged (cfg : Config) (pool pool' : Pool) (b : Nat) : Prop where
  buffer : pool'.mgr.buffers b = pool.mgr.buffers b
  segment : ∀ buf, pool.mgr.buffers b = some buf →
    pool'.mgr.deref buf.segIt = pool.mgr.deref buf.segIt
  data : pool'.data b = pool.data b
  contents : pool'.contents cfg b = pool.contents cfg b

end Compass.BufferPool
