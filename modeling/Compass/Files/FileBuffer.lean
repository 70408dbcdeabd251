/-
The files of one table and their pages: `FileInfo` and the part of
`FileMgr` that a `FileBuffer` reaches through its `fm_`.

A file is cut into `numPages` pages of `pageSize` bytes. The process keeps
for each file the set of its free pages; the disk keeps the bytes. Files
are named by their position, which is the order of their creation, and
`fileIndex_` lists the files of one page size in that order.

A chunk of a table on disk: `FileBuffer`.

The bytes of a chunk are cut into runs of `pageDataSize_`, one for each of
its multi-pages. A multi-page keeps every version of its page, oldest
first, with the epoch each was made in. On disk a page starts with
`reservedHeaderSize_` bytes for its header, and the data follow.

The methods take what they reach through `fm_` and return it changed. A
method that fails a `CHECK`, indexes a vector past its end or divides by
zero returns `none`.

The reader threads of `FileBuffer::read`.

`read` cuts the pages it needs into one run for each thread and describes
each run by a `readThreadDS`: its pages, how many bytes it is to read, and
where in the destination they go. The threads then read page by page, each
page into the place behind the last. A destination is named by its distance
from `dst`.
-/
import Mathlib.Data.List.Sort
import Compass.Lib.Bytes
import Compass.Lib.StdMap

namespace Compass.Files

/-- `METADATA_PAGE_SIZE`. -/
def metadataPageSize : Nat := 4096

/-- `MAX_FILE_N_PAGES`. -/
def maxFileNPages : Nat := 256

/-- `MAX_FILE_N_METADATA_PAGES`. -/
def maxFileNMetadataPages : Nat := 4096

structure Page where
  fileId : Nat
  pageNum : Nat
deriving DecidableEq, Repr

structure FileInfo where
  pageSize : Nat
  numPages : Nat
  /-- A `std::set`: the page numbers in increasing order. -/
  freePages : List Nat
deriving DecidableEq, Repr

-- ======== what is written

/-- The bytes of an `int`. -/
def intBytes (i : Int32) : List UInt8 :=
  (List.range 4).map fun k => UInt8.ofNat (i.toBitVec.toNat / 256 ^ k)

/-- A new file of `size` bytes: `File_Namespace::create` seeks to the last
one and puts an `EOF` there. -/
def createFileOfSize (size : Nat) : ByteFile :=
  (ByteFile.mk (fun _ => 0) 0).write (size - 1) [255]

-- ======== the store

/-- What the file manager of a table holds besides its chunk index. -/
structure PageStore where
  /-- `files_`, by file id. -/
  files : List FileInfo
  /-- The files on disk, by file id. -/
  disk : List DiskFile
  /-- `epoch_`. -/
  epoch : Nat
  /-- `free_pages`: freed, and not to be given out before a checkpoint. -/
  freedPages : List Page

namespace PageStore

/-- The contents of a file. -/
def contents (st : PageStore) (fileId : Nat) : ByteFile :=
  (st.disk.getD fileId ⟨createFileOfSize 0, []⟩).contents

/-- `FileInfo::write`. -/
def write (st : PageStore) (fileId offset : Nat) (buf : List UInt8) : PageStore :=
  { st with disk := st.disk.modify fileId (·.write offset buf) }

/-- `FileInfo::read`; the read is checked to be complete. -/
def read (st : PageStore) (fileId offset size : Nat) : Option (List UInt8) :=
  (st.contents fileId).read offset size

/-- `initNewFile`'s writes: the first four bytes of every header are zero. -/
def initNewFile (f : DiskFile) (pageSize numPages : Nat) : DiskFile :=
  (List.range numPages).foldl (fun f pageId => f.write (pageId * pageSize) (intBytes 0)) f

/-- `createFile`. -/
def createFile (st : PageStore) (pageSize numPages : Nat) : PageStore :=
  { st with
    files := st.files ++ [⟨pageSize, numPages, List.range numPages⟩]
    disk := st.disk ++
      [initNewFile ⟨createFileOfSize (pageSize * numPages), []⟩ pageSize numPages] }

/-- The first file of `pageSize` that has a free page, and that page. -/
def getFreePage (pageSize : Nat) : Nat → List FileInfo → Option Page
  | _, [] => none
  | fileId, f :: fs =>
    match f.freePages with
    | p :: _ =>
      if f.pageSize = pageSize then some ⟨fileId, p⟩
      else getFreePage pageSize (fileId + 1) fs
    | [] => getFreePage pageSize (fileId + 1) fs

/-- The page leaves the free set of its file. -/
def takePage (st : PageStore) (page : Page) : PageStore :=
  { st with
    files := st.files.modify page.fileId fun f =>
      { f with freePages := f.freePages.erase page.pageNum } }

/-- `requestFreePage`. -/
def requestFreePage (st : PageStore) (pageSize : Nat) (isMetadata : Bool) :
    Page × PageStore :=
  match getFreePage pageSize 0 st.files with
  | some page => (page, st.takePage page)
  | none =>
    let st := st.createFile pageSize
      (if isMetadata then maxFileNMetadataPages else maxFileNPages)
    let page : Page := ⟨st.files.length - 1, 0⟩
    (page, st.takePage page)

end PageStore


abbrev ChunkKey := List Int32

/-- One entry of `pageVersions` with its entry of `epochs`. -/
structure PageVersion where
  epoch : Nat
  page : Page
deriving DecidableEq, Repr

/-- A `MultiPage`: the versions of one page, the newest last. -/
abbrev MultiPage := List PageVersion

structure FileBuffer where
  /-- `pageSize_`. -/
  pageSize : Nat
  /-- `chunkKey_`. -/
  chunkKey : ChunkKey
  /-- `size_`. -/
  size : Nat
  /-- `multiPages_`. -/
  multiPages : List MultiPage
  /-- `metadataPages_`. -/
  metadataPages : MultiPage
  isDirty : Bool
  isAppended : Bool
  isUpdated : Bool
deriving DecidableEq, Repr

namespace FileBuffer

-- ======== sizes of a page

/-- `headerBufferOffset_`. -/
def headerBufferOffset : Nat := 32

/-- The bytes of a header: its size, the key, the page id and the epoch. -/
def headerSize (chunkKey : ChunkKey) : Nat := (chunkKey.length + 3) * 4

/-- `calcHeaderBuffer`. -/
def calcHeaderBuffer (chunkKey : ChunkKey) : Nat :=
  let reservedHeaderSize := headerSize chunkKey
  let headerMod := reservedHeaderSize % headerBufferOffset
  if 0 < headerMod then reservedHeaderSize + (headerBufferOffset - headerMod)
  else reservedHeaderSize

/-- `reservedHeaderSize_`. -/
def reservedHeaderSize (fb : FileBuffer) : Nat := calcHeaderBuffer fb.chunkKey

/-- `pageDataSize_`, a difference of two `size_t`. -/
def pageDataSize (fb : FileBuffer) : Nat :=
  (fb.pageSize + (2 ^ 64 - fb.reservedHeaderSize)) % 2 ^ 64

/-- The constructor of a new chunk. -/
def new (pageSize : Nat) (chunkKey : ChunkKey) : FileBuffer :=
  ⟨pageSize, chunkKey, 0, [], [], false, false, false⟩

-- ======== headers

/-- The header of a page. -/
def header (fb : FileBuffer) (pageId : Int32) (epoch : Nat) : List UInt8 :=
  ((Int32.ofNat ((fb.chunkKey.length + 2) * 4) :: fb.chunkKey)
    ++ [pageId, Int32.ofNat epoch]).flatMap intBytes

def writeHeader (fb : FileBuffer) (st : PageStore) (page : Page) (pageId : Int32)
    (epoch : Nat) (writeMetadata : Bool) : PageStore :=
  let pageSize := if writeMetadata then metadataPageSize else fb.pageSize
  st.write page.fileId (page.pageNum * pageSize) (fb.header pageId epoch)

-- ======== pages

/-- `copyPage`. -/
def copyPage (fb : FileBuffer) (st : PageStore) (srcPage destPage : Page)
    (numBytes offset : Nat) : Option PageStore := do
  guard (offset + numBytes < fb.pageDataSize)
  let buffer ← st.read srcPage.fileId
    (srcPage.pageNum * fb.pageSize + offset + fb.reservedHeaderSize) numBytes
  some (st.write destPage.fileId
    (destPage.pageNum * fb.pageSize + offset + fb.reservedHeaderSize) buffer)

/-- `addNewMultiPage`, and the header every caller writes to the page. -/
def addNewMultiPage (fb : FileBuffer) (st : PageStore) (pageNum : Nat) :
    Page × FileBuffer × PageStore :=
  let (page, st) := st.requestFreePage fb.pageSize false
  let fb := { fb with multiPages := fb.multiPages ++ [[⟨st.epoch, page⟩]] }
  (page, fb, fb.writeHeader st page (Int32.ofNat pageNum) st.epoch false)

/-- The data part of a page gets the next bytes of the source: those that
fit behind `startPageOffset`. -/
def writeData (fb : FileBuffer) (st : PageStore) (page : Page) (startPageOffset : Nat)
    (src : List UInt8) : PageStore :=
  st.write page.fileId
    (page.pageNum * fb.pageSize + startPageOffset + fb.reservedHeaderSize)
    (src.take (fb.pageDataSize - startPageOffset))

-- ======== append

/-- The loop of `append`, `numPages` pages before its end: `initialNumPages`
is the number of pages there were, `startPageOffset` the place in the page
at `pageNum` (zero on every page but the first), `src` what is left. -/
def appendPages (initialNumPages : Nat) :
    Nat → Nat → Nat → List UInt8 → FileBuffer → PageStore → Option (FileBuffer × PageStore)
  | 0, _, _, src, fb, st => if src = [] then some (fb, st) else none
  | numPages + 1, pageNum, startPageOffset, src, fb, st => do
      let (page, fb, st) ←
        if initialNumPages ≤ pageNum then some (fb.addNewMultiPage st pageNum)
        else do
          let current ← (← fb.multiPages[pageNum]?).getLast?
          some (current.page, fb, st)
      appendPages initialNumPages numPages (pageNum + 1) 0
        (src.drop (fb.pageDataSize - startPageOffset)) fb
        (fb.writeData st page startPageOffset src)

def append (fb : FileBuffer) (st : PageStore) (src : List UInt8) :
    Option (FileBuffer × PageStore) := do
  let pageDataSize := fb.pageDataSize
  guard (pageDataSize ≠ 0)
  let startPage := fb.size / pageDataSize
  let startPageOffset := fb.size % pageDataSize
  let numPagesToWrite := (src.length + startPageOffset + pageDataSize - 1) / pageDataSize
  appendPages fb.multiPages.length numPagesToWrite startPage startPageOffset src
    { fb with isDirty := true, isAppended := true, size := fb.size + src.length } st

-- ======== write

/-- The pages of a gap between the last page and the first one written. -/
def addGapPages : Nat → Nat → FileBuffer → PageStore → FileBuffer × PageStore
  | 0, _, fb, st => (fb, st)
  | gap + 1, pageNum, fb, st =>
    let (_, fb, st) := fb.addNewMultiPage st pageNum
    addGapPages gap (pageNum + 1) fb st

/-- What the loop of `write` does not change. -/
structure WriteRange where
  startPage : Nat
  startPageOffset : Nat
  numPagesToWrite : Nat
  /-- The number of pages before the write. -/
  initialNumPages : Nat
  /-- Whether the write makes the chunk longer. -/
  tempIsAppended : Bool
deriving DecidableEq, Repr

/-- The page that takes the data of page `pageNum`, ready for them: a new
page, a new version of a page that lags the epoch, or the current version.
`bytesLeft` is what is left to write. -/
def pageForWrite (r : WriteRange) (pageNum bytesLeft : Nat) (fb : FileBuffer)
    (st : PageStore) : Option (Page × FileBuffer × PageStore) :=
  if r.initialNumPages ≤ pageNum then some (fb.addNewMultiPage st pageNum)
  else do
    let multiPage ← fb.multiPages[pageNum]?
    let last ← multiPage.getLast?
    if last.epoch < st.epoch then
      let (page, st) := st.requestFreePage fb.pageSize false
      let fb := { fb with
        multiPages := fb.multiPages.set pageNum (multiPage ++ [⟨st.epoch, page⟩]) }
      -- the part of the page in front of the write
      let st ←
        if pageNum = r.startPage ∧ 0 < r.startPageOffset then
          fb.copyPage st last.page page r.startPageOffset 0
        else some st
      -- the part behind it
      let st ←
        if pageNum = r.startPage + r.numPagesToWrite ∧ 0 < bytesLeft then
          fb.copyPage st last.page page (fb.pageDataSize - bytesLeft) bytesLeft
        else some st
      some (page, fb, fb.writeHeader st page (Int32.ofNat pageNum) st.epoch false)
    else some (last.page, fb, st)

/-- After the last page of a write that made the chunk longer. -/
def rewriteHeader (r : WriteRange) (pageNum : Nat) (page : Page) (fb : FileBuffer)
    (st : PageStore) : Option PageStore :=
  if r.tempIsAppended = true ∧ pageNum = r.startPage + r.numPagesToWrite - 1 then do
    let first ← (← fb.multiPages[0]?).getLast?
    some (fb.writeHeader st page 0 first.epoch true)
  else some st

/-- The loop of `write`, `numPages` pages before its end. -/
def writePages (r : WriteRange) :
    Nat → Nat → Nat → List UInt8 → FileBuffer → PageStore → Option (FileBuffer × PageStore)
  | 0, _, _, src, fb, st => if src = [] then some (fb, st) else none
  | numPages + 1, pageNum, startPageOffset, src, fb, st => do
      let (page, fb, st) ← pageForWrite r pageNum src.length fb st
      let st := fb.writeData st page startPageOffset src
      let st ← rewriteHeader r pageNum page fb st
      writePages r numPages (pageNum + 1) 0
        (src.drop (fb.pageDataSize - startPageOffset)) fb st

def writeRange (fb : FileBuffer) (offset numBytes : Nat) : WriteRange where
  startPage := offset / fb.pageDataSize
  startPageOffset := offset % fb.pageDataSize
  numPagesToWrite :=
    (numBytes + offset % fb.pageDataSize + fb.pageDataSize - 1) / fb.pageDataSize
  initialNumPages := fb.multiPages.length
  tempIsAppended := fb.size < offset + numBytes

def write (fb : FileBuffer) (st : PageStore) (src : List UInt8) (offset : Nat) :
    Option (FileBuffer × PageStore) := do
  guard (fb.pageDataSize ≠ 0)
  let r := fb.writeRange offset src.length
  let fb := { fb with
    isDirty := true
    isUpdated := fb.isUpdated || offset < fb.size
    isAppended := fb.isAppended || r.tempIsAppended
    size := if r.tempIsAppended then offset + src.length else fb.size }
  let (fb, st) := addGapPages (r.startPage - r.initialNumPages) r.initialNumPages fb st
  writePages r r.numPagesToWrite r.startPage r.startPageOffset src fb st

end FileBuffer

/-- A `readThreadDS`, without what all threads share: the file manager and
the pages. -/
structure ReadThreadDS where
  startPage : Nat
  endPage : Nat
  curPtr : Nat
  bytesLeft : Nat
  /-- For the first page of the buffer only. -/
  startPageOffset : Nat
  isFirstPage : Bool
deriving DecidableEq, Repr

/-- The pages of a thread. -/
def ReadThreadDS.numPages (ds : ReadThreadDS) : Nat := ds.endPage - ds.startPage

/-- What one page read puts into the destination. -/
structure PageRead where
  dst : Nat
  bytes : List UInt8
deriving DecidableEq, Repr

namespace FileBuffer

-- ======== the descriptors

/-- The descriptor of the thread behind `ds`, with `numBytesCurrent` bytes
still to be read. -/
def nextThreadDS (pageDataSize numPagesPerThread : Nat) (ds : ReadThreadDS)
    (numExtraPages numBytesCurrent : Nat) : ReadThreadDS :=
  let startPage := ds.startPage + (ds.endPage - ds.startPage)
  let endPage := startPage + numPagesPerThread + (if 0 < numExtraPages then 1 else 0)
  { ds with
    isFirstPage := false
    curPtr := ds.curPtr + ds.bytesLeft
    startPage := startPage
    endPage := endPage
    bytesLeft := min ((endPage - startPage) * pageDataSize) numBytesCurrent }

/-- The loop over the threads, `numThreads` before its end: `ds` describes
the next one. -/
def threadDSArr (pageDataSize numPagesPerThread : Nat) :
    Nat → ReadThreadDS → Nat → Nat → List ReadThreadDS
  | 0, _, _, _ => []
  | numThreads + 1, ds, numExtraPages, numBytesCurrent =>
    let numBytesCurrent := numBytesCurrent - ds.bytesLeft
    ds :: threadDSArr pageDataSize numPagesPerThread numThreads
      (nextThreadDS pageDataSize numPagesPerThread ds numExtraPages numBytesCurrent)
      (numExtraPages - 1) numBytesCurrent

/-- The descriptor of the first thread. -/
def firstThreadDS (pageDataSize numPagesPerThread numExtraPages numBytes offset : Nat) :
    ReadThreadDS :=
  let startPage := offset / pageDataSize
  let startPageOffset := offset % pageDataSize
  let endPage := startPage + numPagesPerThread + (if 0 < numExtraPages then 1 else 0)
  { startPage := startPage
    endPage := endPage
    curPtr := 0
    bytesLeft := min ((endPage - startPage) * pageDataSize - startPageOffset) numBytes
    startPageOffset := startPageOffset
    isFirstPage := true }

/-- `numPagesToRead`. -/
def numPagesToRead (pageDataSize numBytes offset : Nat) : Nat :=
  (numBytes + offset % pageDataSize + pageDataSize - 1) / pageDataSize

/-- The descriptors that `read` hands to its threads. -/
def readThreadDSs (pageDataSize numReaderThreads numBytes offset : Nat) : List ReadThreadDS :=
  let numPagesToRead := numPagesToRead pageDataSize numBytes offset
  let numPagesPerThread :=
    if numReaderThreads < numPagesToRead then numPagesToRead / numReaderThreads else 1
  let numExtraPages :=
    if numReaderThreads < numPagesToRead then
      numPagesToRead - numReaderThreads * numPagesPerThread
    else 0
  threadDSArr pageDataSize numPagesPerThread (min numReaderThreads numPagesToRead)
    (firstThreadDS pageDataSize numPagesPerThread numExtraPages numBytes offset)
    (numExtraPages - 1) numBytes

-- ======== the threads

/-- The loop of `readForThread`, `numPages` pages before its end, with the
`CHECK` behind it. -/
def readThreadPages (fb : FileBuffer) (st : PageStore) (startPageOffset : Nat) :
    Nat → Nat → Nat → Nat → Bool → Option (List PageRead)
  | 0, _, _, bytesLeft, _ => if bytesLeft = 0 then some [] else none
  | numPages + 1, pageNum, curPtr, bytesLeft, isFirstPage => do
      let current ← (← fb.multiPages[pageNum]?).getLast?
      let bytes ←
        if isFirstPage then
          st.read current.page.fileId
            (current.page.pageNum * fb.pageSize + startPageOffset + fb.reservedHeaderSize)
            (min (fb.pageDataSize - startPageOffset) bytesLeft)
        else
          st.read current.page.fileId
            (current.page.pageNum * fb.pageSize + fb.reservedHeaderSize)
            (min fb.pageDataSize bytesLeft)
      let reads ← readThreadPages fb st startPageOffset numPages (pageNum + 1)
        (curPtr + bytes.length) (bytesLeft - bytes.length) false
      some (⟨curPtr, bytes⟩ :: reads)

def readForThread (fb : FileBuffer) (st : PageStore) (ds : ReadThreadDS) :
    Option (List PageRead) :=
  fb.readThreadPages st ds.startPageOffset ds.numPages ds.startPage ds.curPtr ds.bytesLeft
    ds.isFirstPage

/-- `totalBytesRead`. -/
def totalBytesRead (reads : List PageRead) : Nat := (reads.map (·.bytes.length)).sum

/-- `read`: the page reads of each thread. -/
def readThreaded (fb : FileBuffer) (st : PageStore) (numReaderThreads numBytes offset : Nat) :
    Option (List (List PageRead)) := do
  let pageDataSize := fb.pageDataSize
  guard (pageDataSize ≠ 0)
  guard (offset / pageDataSize + numPagesToRead pageDataSize numBytes offset
    ≤ fb.multiPages.length)
  -- the quotient of the pages and the threads
  guard (numReaderThreads ≠ 0)
  let threads ← (readThreadDSs pageDataSize numReaderThreads numBytes offset).mapM
    (fb.readForThread st)
  guard ((threads.map totalBytesRead).sum = numBytes)
  some threads

/-- A page read arrives in the destination. -/
def arrive (dst : Nat → UInt8) (r : PageRead) : Nat → UInt8 :=
  fun i => if r.dst ≤ i then (r.bytes[i - r.dst]?).getD (dst i) else dst i

end FileBuffer

end Compass.Files
