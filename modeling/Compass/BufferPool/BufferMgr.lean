/-
The segments of a slab (BufferMgr.cpp, BufferSeg.h).

A slab is a run of pages, and its `BufferList` cuts it into segments, used
or free. What the manager does to one list stands here: it takes a free
segment, grows a used one into the free one after it, evicts a few that
follow each other, and gives one back.

An iterator of a `std::list` stays valid until its element is erased, so a
segment has an address; the addresses of new elements are given to each
operation. `none` is an iterator that points to no element.

The buffer pool (BufferMgr.cpp, Buffer.cpp), used by one client at a time.

The pool is a list of slabs, each with its segments, the segments that are
not sized yet, and `chunkIndex_`, which maps a key to the segment of its
buffer. A buffer holds an iterator to its segment too. Slabs are added as
long as the allocator gives them; when it does not, buffers that no one
has pinned are evicted.

The buffers are objects on the heap, named by a number; the data in them
is left out. Byte counts are `size_t` and wrap; a slab has fewer pages
than an `int` can count, so that page numbers do not. Whether the
allocator has a slab of some number of pages is asked of it anew in every
operation; it never asks twice for the same number.
-/
import Compass.Lib.StdMap
import Compass.Lib.Tiling

namespace Compass.BufferPool

abbrev ChunkKey := List Int

inductive MemStatus
  | free
  | used
deriving DecidableEq, Repr

/-- `BufferSeg`. The buffer is a reference to the heap; `slabNum` is none
for a segment that is not sized yet. -/
structure Segment where
  addr : Nat
  startPage : Int
  numPages : Nat
  memStatus : MemStatus
  buffer : Option Nat
  chunkKey : ChunkKey
  slabNum : Option Nat
  lastTouched : Nat
deriving DecidableEq, Repr

namespace Segment

/-- `BufferSeg(startPage, numPages, FREE)`. -/
def ofFree (addr : Nat) (startPage : Int) (numPages : Nat) : Segment :=
  ⟨addr, startPage, numPages, .free, none, [], none, 0⟩

end Segment

abbrev BufferList := List Segment

/-- The segments tile the pages from `a` to `c`. -/
abbrev TilesPages (a : Int) (segs : BufferList) (c : Int) : Prop :=
  Tiling.Tiles Segment.startPage Segment.numPages a segs c

namespace BufferList

/-- The segment an iterator points to, with what is before and after it. -/
def split (addr : Nat) : BufferList → Option (BufferList × Segment × BufferList)
  | [] => none
  | seg :: rest =>
    if seg.addr = addr then some ([], seg, rest)
    else (split addr rest).map fun p => (seg :: p.1, p.2)

/-- `findFreeBufferInSlab`: the address of the segment taken, and the list. -/
def findFreeBufferInSlab (slabNum numPagesRequested epoch newAddr : Nat) :
    BufferList → Option (Nat × BufferList)
  | [] => none
  | seg :: rest =>
    if seg.memStatus = .free ∧ numPagesRequested ≤ seg.numPages then
      let excessPages := seg.numPages - numPagesRequested
      let taken := { seg with
        numPages := numPagesRequested
        memStatus := .used
        lastTouched := epoch
        slabNum := some slabNum }
      if 0 < excessPages then
        let freeSeg :=
          Segment.ofFree newAddr (seg.startPage + numPagesRequested) excessPages
        some (seg.addr, taken :: freeSeg :: rest)
      else some (seg.addr, taken :: rest)
    else
      (findFreeBufferInSlab slabNum numPagesRequested epoch newAddr rest).map
        fun p => (p.1, seg :: p.2)

/-- The first part of `reserveBuffer`: the free segment after `addr` gives
the pages that are missing. `none` if there is no such segment, or too
small a one. -/
def growInPlace (addr numPagesRequested : Nat) (segs : BufferList) :
    Option BufferList :=
  match split addr segs with
  | some (before, seg, next :: after) =>
    if next.memStatus = .free ∧ numPagesRequested - seg.numPages ≤ next.numPages
    then
      let leftoverPages := next.numPages - (numPagesRequested - seg.numPages)
      some (before ++ { seg with numPages := numPagesRequested }
        :: { next with
              numPages := leftoverPages
              startPage := seg.startPage + numPagesRequested }
        :: after)
    else none
  | _ => none

/-- The part of `removeSegment` about the segment before `seg`. -/
def mergePrev (before : BufferList) (seg : Segment) : BufferList × Segment :=
  match before.getLast? with
  | some prev =>
    if prev.memStatus = .free then
      (before.dropLast, { seg with
        startPage := prev.startPage
        numPages := seg.numPages + prev.numPages })
    else (before, seg)
  | none => (before, seg)

/-- The part of `removeSegment` about the segment after `seg`. -/
def mergeNext (seg : Segment) : BufferList → Segment × BufferList
  | [] => (seg, [])
  | next :: after =>
    if next.memStatus = .free then
      ({ seg with numPages := seg.numPages + next.numPages }, after)
    else (seg, next :: after)

/-- `removeSegment`, for a segment of a slab. -/
def removeSegment (addr : Nat) (segs : BufferList) : Option BufferList :=
  (split addr segs).map fun (before, seg, after) =>
    let (before, seg) := mergePrev before seg
    let (seg, after) := mergeNext seg after
    before ++ { seg with memStatus := .free, buffer := none } :: after

-- ======== evict

/-- How the loop of `evict` can end. -/
inductive Eviction
  /-- The segments erased, their pages, and the segments left. -/
  | enough (erased : BufferList) (numPages : Nat) (rest : BufferList)
  /-- The `CHECK` that no pinned buffer is evicted. -/
  | pinned
  /-- The loop goes past the end of the list. -/
  | pastEnd

def Eviction.cons (seg : Segment) : Eviction → Eviction
  | .enough erased numPages rest => .enough (seg :: erased) numPages rest
  | .pinned => .pinned
  | .pastEnd => .pastEnd

def evictLoop (isPinned : Segment → Bool) (numPagesRequested : Nat) :
    Nat → BufferList → Eviction
  | numPages, [] =>
    if numPages < numPagesRequested then .pastEnd else .enough [] numPages []
  | numPages, seg :: rest =>
    if numPages < numPagesRequested then
      if seg.memStatus = .used && isPinned seg then .pinned
      else
        (evictLoop isPinned numPagesRequested (numPages + seg.numPages) rest).cons
          seg
    else .enough [] numPages (seg :: rest)

/-- What stands after the segments erased: the new segment, and the pages
that were too many, in the free segment that follows or in one of their
own. -/
def evictTail (startPage : Int) (numPagesRequested numPages slabNum epoch : Nat)
    (newAddr : Nat) (rest : BufferList) : BufferList :=
  let dataSeg : Segment :=
    ⟨newAddr, startPage, numPagesRequested, .used, none, [], some slabNum, epoch⟩
  if numPagesRequested < numPages then
    let excessPages := numPages - numPagesRequested
    let freeSeg :=
      Segment.ofFree (newAddr + 1) (startPage + numPagesRequested) excessPages
    match rest with
    | next :: after =>
      if next.memStatus = .free then
        dataSeg :: { next with
          startPage := startPage + numPagesRequested
          numPages := next.numPages + excessPages } :: after
      else dataSeg :: freeSeg :: next :: after
    | [] => [dataSeg, freeSeg]
  else dataSeg :: rest

-- ======== what to evict

/-- How the inner loop of the search can end. -/
inductive Window
  | found (score : Nat)
  | pinned
  | pastEnd
deriving DecidableEq, Repr

/-- Can the segments from here on be evicted until there are enough pages,
and how recently were they touched? -/
def window (isPinned : Segment → Bool) (numPagesRequested : Nat) :
    Nat → Nat → BufferList → Window
  | _, _, [] => .pastEnd
  | pageCount, score, seg :: rest =>
    if seg.memStatus = .used && isPinned seg then .pinned
    else
      let pageCount := pageCount + seg.numPages
      let score :=
        if seg.memStatus = .used then max score seg.lastTouched else score
      if numPagesRequested ≤ pageCount then .found score
      else window isPinned numPagesRequested pageCount score rest

/-- The best start of an eviction so far: its score, slab and address. -/
structure Candidate where
  minScore : Nat
  slabNum : Nat
  addr : Nat
deriving DecidableEq, Repr

/-- `score < minScore`; at first `minScore` is the largest `size_t`. -/
def better (score : Nat) : Option Candidate → Bool
  | none => score < 2 ^ 64 - 1
  | some best => score < best.minScore

/-- The search in one slab. It stops at the first segment that has not
enough pages after it. -/
def bestInSlab (isPinned : Segment → Bool) (numPagesRequested slabNum : Nat) :
    Option Candidate → BufferList → Option Candidate
  | best, [] => best
  | best, seg :: rest =>
    match window isPinned numPagesRequested 0 0 (seg :: rest) with
    | .found score =>
      let best :=
        if better score best then some ⟨score, slabNum, seg.addr⟩ else best
      bestInSlab isPinned numPagesRequested slabNum best rest
    | .pinned => bestInSlab isPinned numPagesRequested slabNum best rest
    | .pastEnd => best

end BufferList


/-- The sizes that the pool is made with. -/
structure Config where
  pageSize : Nat
  maxBufferSize : Nat
  maxSlabSize : Nat
deriving DecidableEq, Repr

namespace Config

variable (cfg : Config)

def maxNumPages : Nat := cfg.maxBufferSize / cfg.pageSize

def maxNumPagesPerSlab : Nat := cfg.maxSlabSize / cfg.pageSize

end Config

/-- `Buffer`; `mem` is the slab and the page that `mem_` points to. -/
structure Buffer where
  segIt : Nat
  pageSize : Nat
  numPages : Nat
  pinCount : Int
  mem : Option (Nat × Int)
deriving DecidableEq, Repr

structure Slab where
  numPages : Nat
  segs : BufferList
deriving DecidableEq, Repr

/-- The pool: slabs, the segments without pages, and the index of chunks. -/
structure BufferMgr where
  slabs : List Slab
  unsizedSegs : BufferList
  chunkIndex : List (ChunkKey × Nat)
  buffers : Nat → Option Buffer
  numPagesAllocated : Nat
  currentMaxSlabPageSize : Nat
  allocationsCapped : Bool
  bufferEpoch : Nat
  nextAddr : Nat
  nextBuffer : Nat

/-- How an operation can end, other than well. `OutOfMemory` is thrown with
the manager as it is by then. -/
inductive Fault
  | outOfMemory (mgr : BufferMgr)
  /-- A `CHECK` on the arguments of an operation. -/
  | check
  /-- The `CHECK` of `evict` that no pinned buffer goes. -/
  | evictsPinned
  /-- An iterator, a pointer or an index that points to nothing. -/
  | undefined

/-- `(numBytes + pageSize - 1) / pageSize`, in a `size_t`. -/
def pagesFor (pageSize numBytes : Nat) : Nat :=
  (numBytes + pageSize - 1) % 2 ^ 64 / pageSize

namespace BufferMgr

/-- The manager when it is constructed. -/
def init (cfg : Config) : BufferMgr :=
  ⟨[], [], [], fun _ => none, 0, cfg.maxNumPagesPerSlab, false, 0, 0, 0⟩

variable (mgr : BufferMgr)

def segs : BufferList := mgr.unsizedSegs ++ mgr.slabs.flatMap Slab.segs

/-- What an iterator points to. -/
def deref (addr : Nat) : Option Segment :=
  mgr.segs.find? fun seg => seg.addr = addr

/-- Assigns to fields of the segment an iterator points to. -/
def modifySeg (addr : Nat) (f : Segment → Segment) : BufferMgr :=
  let g := fun seg => if seg.addr = addr then f seg else seg
  { mgr with
    slabs := mgr.slabs.map fun slab => { slab with segs := slab.segs.map g }
    unsizedSegs := mgr.unsizedSegs.map g }

def setBuffer (b : Nat) (buf : Option Buffer) : BufferMgr :=
  { mgr with buffers := Function.update mgr.buffers b buf }

/-- `segIt->buffer->getPinCount() > 0`. -/
def isPinned (seg : Segment) : Bool :=
  match seg.buffer.bind mgr.buffers with
  | some buf => 0 < buf.pinCount
  | none => false

def setSegs (slabNum : Nat) (slab : Slab) (segs : BufferList) : BufferMgr :=
  { mgr with slabs := mgr.slabs.set slabNum { slab with segs := segs } }

-- ======== removeSegment

def removeSegment (addr : Nat) : Except Fault BufferMgr :=
  match mgr.deref addr with
  | none => .error .undefined
  | some seg =>
    match seg.slabNum with
    | none =>
      .ok { mgr with
        unsizedSegs := mgr.unsizedSegs.filter fun seg => seg.addr ≠ addr }
    | some slabNum =>
      match mgr.slabs[slabNum]? with
      | none => .error .undefined
      | some slab =>
        match slab.segs.removeSegment addr with
        | none => .error .undefined
        | some segs => .ok (mgr.setSegs slabNum slab segs)

-- ======== findFreeBuffer

/-- The first loop: a free segment in one of the slabs. -/
def findInSlabs (numPagesRequested epoch newAddr : Nat) :
    Nat → List Slab → Option (Nat × List Slab)
  | _, [] => none
  | slabNum, slab :: rest =>
    match slab.segs.findFreeBufferInSlab slabNum numPagesRequested epoch newAddr
    with
    | some (addr, segs) => some (addr, { slab with segs := segs } :: rest)
    | none =>
      (findInSlabs numPagesRequested epoch newAddr (slabNum + 1) rest).map
        fun p => (p.1, slab :: p.2)

/-- How the loop that adds a slab ends: with a slab of so many pages, or
without one; and what it leaves in the fields it changes. -/
structure SlabSearch where
  added : Option Nat
  currentMaxSlabPageSize : Nat
  allocationsCapped : Bool
deriving DecidableEq, Repr

/-- The loop that adds a slab. It asks for ever smaller ones. A slab of no
pages is always there. -/
def addSlabLoop (cfg : Config) (canAlloc : Nat → Bool)
    (numPagesRequested numPagesAllocated : Nat) (currentMax : Nat) (capped : Bool) : SlabSearch :=
  if !capped && numPagesAllocated < cfg.maxNumPages then
    let currentMax := min (cfg.maxNumPages - numPagesAllocated) currentMax
    if numPagesRequested ≤ currentMax then
      if currentMax = 0 || canAlloc currentMax then
        ⟨some currentMax, currentMax, capped⟩
      else if currentMax / 2 < numPagesRequested
          ∧ currentMax ≠ numPagesRequested then
        addSlabLoop cfg canAlloc numPagesRequested numPagesAllocated
          numPagesRequested capped
      else
        addSlabLoop cfg canAlloc numPagesRequested numPagesAllocated
          (currentMax / 2) (currentMax / 2 < cfg.maxNumPagesPerSlab / 8)
    else ⟨none, currentMax, capped⟩
  else ⟨none, currentMax, capped⟩
termination_by currentMax
decreasing_by
  all_goals grind

/-- The fields that the loop changes. -/
def withSearch (search : SlabSearch) : BufferMgr :=
  { mgr with
    currentMaxSlabPageSize := search.currentMaxSlabPageSize
    allocationsCapped := search.allocationsCapped }

/-- `addSlab`: the new slab is one free segment. -/
def addSlab (numPages : Nat) : BufferMgr :=
  { mgr with
    slabs := mgr.slabs ++ [⟨numPages, [Segment.ofFree mgr.nextAddr 0 numPages]⟩]
    numPagesAllocated := mgr.numPagesAllocated + numPages
    nextAddr := mgr.nextAddr + 1 }

def nextEpoch : Nat := (mgr.bufferEpoch + 1) % 2 ^ 32

/-- A free segment of the slabs from `firstSlab` on. -/
def takeFree (firstSlab numPagesRequested : Nat) : Option (Nat × BufferMgr) :=
  (findInSlabs numPagesRequested mgr.bufferEpoch mgr.nextAddr firstSlab
    (mgr.slabs.drop firstSlab)).map
    fun p => (p.1, { mgr with
      slabs := mgr.slabs.take firstSlab ++ p.2
      bufferEpoch := mgr.nextEpoch
      nextAddr := mgr.nextAddr + 1 })

/-- The search for the segments to evict, over all slabs. -/
def bestEviction (numPagesRequested : Nat) :
    Nat → Option BufferList.Candidate → List Slab → Option BufferList.Candidate
  | _, best, [] => best
  | slabNum, best, slab :: rest =>
    bestEviction numPagesRequested (slabNum + 1)
      (BufferList.bestInSlab mgr.isPinned numPagesRequested slabNum best slab.segs)
      rest

/-- The keys of the segments erased leave the index, unless they are empty. -/
def eraseKeys (erased : BufferList) (index : List (ChunkKey × Nat)) :
    List (ChunkKey × Nat) :=
  erased.foldl (fun index seg =>
    if seg.memStatus = .used ∧ seg.chunkKey ≠ [] then
      StdMap.erase index seg.chunkKey
    else index) index

def evict (addr numPagesRequested slabNum : Nat) :
    Except Fault (Nat × BufferMgr) :=
  match mgr.slabs[slabNum]? with
  | none => .error .undefined
  | some slab =>
    match slab.segs.split addr with
    | none => .error .undefined
    | some (before, evictStart, after) =>
      match BufferList.evictLoop mgr.isPinned numPagesRequested 0
        (evictStart :: after) with
      | .pinned => .error .evictsPinned
      | .pastEnd => .error .undefined
      | .enough erased numPages rest =>
        let segs := before ++ BufferList.evictTail evictStart.startPage
          numPagesRequested numPages slabNum mgr.bufferEpoch mgr.nextAddr rest
        .ok (mgr.nextAddr, { mgr.setSegs slabNum slab segs with
          chunkIndex := eraseKeys erased mgr.chunkIndex
          bufferEpoch := mgr.nextEpoch
          nextAddr := mgr.nextAddr + 2 })

/-- The last part: no slab could be added. `slabSegments_[0]` is read even
when there is no slab. -/
def findByEviction (numPagesRequested : Nat) : Except Fault (Nat × BufferMgr) :=
  if mgr.numPagesAllocated = 0 ∧ mgr.allocationsCapped then
    .error (.outOfMemory mgr)
  else if mgr.slabs = [] then .error .undefined
  else
    match mgr.bestEviction numPagesRequested 0 none mgr.slabs with
    | none => .error (.outOfMemory mgr)
    | some best => mgr.evict best.addr numPagesRequested best.slabNum

/-- `findFreeBuffer`: the segment taken, which has no buffer yet. -/
def findFreeBuffer (cfg : Config) (canAlloc : Nat → Bool)
    (numPagesRequested : Nat) : Except Fault (Nat × BufferMgr) :=
  if cfg.maxNumPagesPerSlab < numPagesRequested then .error (.outOfMemory mgr)
  else
    match mgr.takeFree 0 numPagesRequested with
    | some found => .ok found
    | none =>
      let numSlabs := mgr.slabs.length
      let search := addSlabLoop cfg canAlloc numPagesRequested
        mgr.numPagesAllocated mgr.currentMaxSlabPageSize mgr.allocationsCapped
      let mgr := mgr.withSearch search
      match search.added with
      | some numPages =>
        match (mgr.addSlab numPages).takeFree numSlabs numPagesRequested with
        | some found => .ok found
        | none => .error .undefined
      | none => mgr.findByEviction numPagesRequested

-- ======== reserveBuffer

/-- The buffer moves from the segment `addr` to the segment `newAddr`. -/
def relocate (addr newAddr : Nat) : Except Fault BufferMgr :=
  match mgr.deref addr, mgr.deref newAddr with
  | some seg, some newSeg =>
    match seg.buffer with
    | none => .error .undefined
    | some b =>
      match mgr.buffers b with
      | none => .error .undefined
      | some buf =>
        let mgr := mgr.modifySeg newAddr fun s =>
          { s with buffer := some b, chunkKey := seg.chunkKey }
        let mgr := mgr.setBuffer b (some { buf with
          mem := newSeg.slabNum.map fun slabNum => (slabNum, newSeg.startPage) })
        match mgr.removeSegment addr with
        | .error fault => .error fault
        | .ok mgr =>
          .ok { mgr with
            chunkIndex := StdMap.set mgr.chunkIndex seg.chunkKey newAddr }
  | _, _ => .error .undefined

/-- The segment grown in place, if it can be. -/
def growInPlace (seg : Segment) (numPagesRequested : Nat) : Option BufferMgr :=
  match seg.slabNum with
  | none => none
  | some slabNum =>
    match mgr.slabs[slabNum]? with
    | none => none
    | some slab =>
      (slab.segs.growInPlace seg.addr numPagesRequested).map
        (mgr.setSegs slabNum slab)

def reserveBuffer (cfg : Config) (canAlloc : Nat → Bool)
    (addr numBytes : Nat) : Except Fault (Nat × BufferMgr) :=
  match mgr.deref addr with
  | none => .error .undefined
  | some seg =>
    let numPagesRequested := pagesFor cfg.pageSize numBytes
    if numPagesRequested < seg.numPages then .ok (addr, mgr)
    else
      match mgr.growInPlace seg numPagesRequested with
      | some mgr => .ok (addr, mgr)
      | none =>
        match mgr.findFreeBuffer cfg canAlloc numPagesRequested with
        | .error fault => .error fault
        | .ok (newAddr, mgr) =>
          match mgr.relocate addr newAddr with
          | .error fault => .error fault
          | .ok mgr => .ok (newAddr, mgr)

/-- `Buffer::reserve`, of the buffer `b`. -/
def reserve (cfg : Config) (canAlloc : Nat → Bool) (b numBytes : Nat) :
    Except Fault BufferMgr :=
  match mgr.buffers b with
  | none => .error .undefined
  | some buf =>
    let numPages := pagesFor buf.pageSize numBytes
    if buf.numPages < numPages then
      match mgr.reserveBuffer cfg canAlloc buf.segIt
        (buf.pageSize * numPages % 2 ^ 64) with
      | .error fault => .error fault
      | .ok (addr, mgr) =>
        match mgr.buffers b with
        | none => .error .undefined
        | some buf =>
          .ok (mgr.setBuffer b
            (some { buf with segIt := addr, numPages := numPages }))
    else .ok mgr

-- ======== deleteBuffer

/-- Deletes the buffer of a segment, if it has one. -/
def dropBuffer (addr : Nat) : Except Fault BufferMgr :=
  match mgr.deref addr with
  | none => .error .undefined
  | some seg =>
    match seg.buffer with
    | none => .ok mgr
    | some b =>
      .ok ((mgr.setBuffer b none).modifySeg addr fun s => { s with buffer := none })

def deleteBuffer (key : ChunkKey) : Except Fault BufferMgr :=
  match StdMap.find? mgr.chunkIndex key with
  | none => .error .check
  | some addr =>
    let mgr := { mgr with chunkIndex := StdMap.erase mgr.chunkIndex key }
    match mgr.dropBuffer addr with
    | .error fault => .error fault
    | .ok mgr => mgr.removeSegment addr

/-- The `std::search` for the prefix in as many elements of the key. It
reads past the end of a shorter key; an empty prefix is not found. -/
def startsWith (keyPrefix key : ChunkKey) : Option Bool :=
  if key.length < keyPrefix.length then none
  else some (keyPrefix ≠ [] && key.take keyPrefix.length = keyPrefix)

def deletePrefixLoop (keyPrefix : ChunkKey) :
    List (ChunkKey × Nat) → BufferMgr → Except Fault BufferMgr
  | [], mgr => .ok mgr
  | (key, addr) :: rest, mgr =>
    match startsWith keyPrefix key with
    | none => .error .undefined
    | some false => .ok mgr
    | some true =>
      match mgr.dropBuffer addr with
      | .error fault => .error fault
      | .ok mgr =>
        match mgr.removeSegment addr with
        | .error fault => .error fault
        | .ok mgr =>
          deletePrefixLoop keyPrefix rest
            { mgr with chunkIndex := StdMap.erase mgr.chunkIndex key }

def deleteBuffersWithPrefix (keyPrefix : ChunkKey) : Except Fault BufferMgr :=
  deletePrefixLoop keyPrefix (StdMap.lowerBound mgr.chunkIndex keyPrefix) mgr

-- ======== clearSlabs

/-- One step of `clearSlabs`. A segment that an earlier step has merged into
another was free, so the loop does nothing for it either way. -/
def clearSegment (addr : Nat) : Except Fault BufferMgr :=
  match mgr.deref addr with
  | none => .ok mgr
  | some seg =>
    if seg.memStatus = .free then .ok mgr
    else if mgr.isPinned seg then .ok mgr
    else mgr.deleteBuffer seg.chunkKey

def clearSlabs : Except Fault BufferMgr :=
  ((mgr.slabs.flatMap Slab.segs).map Segment.addr).foldlM clearSegment mgr

-- ======== createBuffer

/-- The segment and the buffer object of a new key, before it is sized. -/
def insertUnsized (key : ChunkKey) (pageSize : Nat) : BufferMgr :=
  { mgr with
    unsizedSegs := mgr.unsizedSegs
      ++ [⟨mgr.nextAddr, -1, 0, .used, some mgr.nextBuffer, key, none, 0⟩]
    chunkIndex := StdMap.set mgr.chunkIndex key mgr.nextAddr
    buffers := Function.update mgr.buffers mgr.nextBuffer
      (some ⟨mgr.nextAddr, pageSize, 0, 1, none⟩)
    nextAddr := mgr.nextAddr + 1
    nextBuffer := mgr.nextBuffer + 1 }

/-- The handler of `createBuffer`: the constructor of the buffer has failed,
so there is no object to delete. -/
def undoCreate (key : ChunkKey) (b : Nat) : Except Fault BufferMgr :=
  match StdMap.find? mgr.chunkIndex key with
  | none => .error .check
  | some addr =>
    ((mgr.setBuffer b none).modifySeg addr
      fun s => { s with buffer := none }).deleteBuffer key

def createBuffer (cfg : Config) (canAlloc : Nat → Bool) (key : ChunkKey)
    (chunkPageSize initialSize : Nat) : Except Fault BufferMgr :=
  let pageSize := if chunkPageSize = 0 then cfg.pageSize else chunkPageSize
  match StdMap.find? mgr.chunkIndex key with
  | some _ => .error .check
  | none =>
    let b := mgr.nextBuffer
    let mgr := mgr.insertUnsized key pageSize
    if initialSize = 0 then .ok mgr
    else
      match mgr.reserve cfg canAlloc b initialSize with
      | .error (.outOfMemory mgr) =>
        match mgr.undoCreate key b with
        | .error fault => .error fault
        | .ok mgr => .error (.outOfMemory mgr)
      | .error fault => .error fault
      | .ok mgr =>
        match (mgr.buffers b).bind Buffer.mem with
        | none => .error .check
        | some _ => .ok mgr

end BufferMgr

end Compass.BufferPool
