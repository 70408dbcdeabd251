/-
Threaded reads are sequential reads.

`readThreadDSs_tile` is the arithmetic: the descriptors cut the pages and
the bytes of a read into consecutive runs, and each run begins where its
first page has the next byte wanted. From it, each thread reads all it is
to read (`readForThread_spec`), so no `CHECK` fails, and the threads may
take their pages in any order (`readThreaded_spec`).
-/
import Compass.Files.Proofs.Held
import Compass.Lib.Interleave
import Compass.Lib.Results
import Compass.Lib.Tiling

namespace Compass.Files

open Tiling Interleave List

namespace FileBuffer

-- ======== specification

/-- The data of a page in its newest version. -/
def pageData (fb : FileBuffer) (st : PageStore) (multiPage : MultiPage) : List UInt8 :=
  match multiPage.getLast? with
  | some current => (st.contents current.page.fileId).slice
      (current.page.pageNum * fb.pageSize + fb.reservedHeaderSize) fb.pageDataSize
  | none => []

/-- All bytes of the chunk, one page behind the other. -/
def contents (fb : FileBuffer) (st : PageStore) : List UInt8 :=
  fb.multiPages.flatMap (fb.pageData st)

/-- The read brings the bytes of the chunk that belong at its place in the
destination, `offset` bytes further on in the chunk. -/
def Faithful (data : List UInt8) (offset : Nat) (r : PageRead) : Prop :=
  r.bytes = (data.drop (offset + r.dst)).take r.bytes.length

/-- Reads that fill the destination from `a` to `c`. -/
abbrev ReadsTile (a : Nat) (reads : List PageRead) (c : Nat) : Prop :=
  Tiles (fun r : PageRead => (r.dst : Int)) (fun r => r.bytes.length) a reads c

-- ======== one page

variable {fb : FileBuffer} {st : PageStore}

theorem Held.length_pageData (h : fb.Held st) {multiPage : MultiPage}
    (hmem : multiPage ∈ fb.multiPages) : (fb.pageData st multiPage).length = fb.pageDataSize := by
  obtain ⟨current, hcur, -⟩ := h.page multiPage hmem
  rw [pageData, hcur]
  exact ByteFile.slice_length _ _ _

/-- Pieces of one length: behind `k` of them comes the next. -/
theorem drop_flatMap {α β : Type*} {f : α → List β} {n : Nat} {xs : List α}
    (hlen : ∀ x ∈ xs, (f x).length = n) {k : Nat} (hk : k < xs.length) :
    (xs.flatMap f).drop (k * n) = f xs[k] ++ (xs.drop (k + 1)).flatMap f := by
  induction k generalizing xs with
  | zero =>
    obtain ⟨x, xs, rfl⟩ := exists_cons_of_length_pos hk
    simp
  | succ k ih =>
    obtain ⟨x, xs, rfl⟩ := exists_cons_of_length_pos (Nat.zero_lt_of_lt hk)
    have hmul : (k + 1) * n = (f x).length + k * n := by
      rw [hlen x mem_cons_self, Nat.succ_mul, Nat.add_comm]
    rw [flatMap_cons, hmul, drop_length_add_append,
      ih (fun y hy => hlen y (mem_cons_of_mem _ hy)) (Nat.lt_of_succ_lt_succ hk)]
    rfl

variable {offset pageDataSize : Nat}

theorem drop_take_slice (f : ByteFile) {size place n : Nat} (h : place + n ≤ size) :
    ((f.slice offset size).drop place).take n = f.slice (offset + place) n := by
  refine ext_getElem ?_ fun i hi hi' => ?_
  · rw [length_take, length_drop, ByteFile.slice_length, ByteFile.slice_length]
    omega
  · rw [getElem_take, getElem_drop, ByteFile.getElem_slice, ByteFile.getElem_slice, Nat.add_assoc]

/-- A part of a page that is read from its file. -/
theorem Held.read_page (h : fb.Held st) {pageNum : Nat} (hnum : pageNum < fb.multiPages.length)
    {place size : Nat} (hsize : place + size ≤ fb.pageDataSize) :
    ∃ current, fb.multiPages[pageNum].getLast? = some current ∧
      st.read current.page.fileId
        (current.page.pageNum * fb.pageSize + place + fb.reservedHeaderSize) size =
        some (((fb.contents st).drop (pageNum * fb.pageDataSize + place)).take size) := by
  obtain ⟨current, hcur, hfile⟩ := h.page _ (getElem_mem hnum)
  refine ⟨current, hcur, ?_⟩
  have hdata : fb.pageData st fb.multiPages[pageNum] = (st.contents current.page.fileId).slice
      (current.page.pageNum * fb.pageSize + fb.reservedHeaderSize) fb.pageDataSize := by
    rw [pageData, hcur]
  have hinside : current.page.pageNum * fb.pageSize + place + fb.reservedHeaderSize + size ≤
      (st.contents current.page.fileId).length := by
    have hheader := h.header
    rw [h.pageDataSize_eq] at hsize
    rw [PageStore.Inside, Nat.succ_mul] at hfile
    omega
  rw [PageStore.read, ByteFile.read_eq_some hinside, contents, ← drop_drop,
    drop_flatMap (fun mp hmp => h.length_pageData hmp) hnum, hdata,
    drop_append_of_le_length (by rw [ByteFile.slice_length]; omega),
    take_append_of_le_length (by rw [length_drop, ByteFile.slice_length]; omega),
    drop_take_slice _ hsize, Nat.add_right_comm]

/-- The bytes there are behind a place of a page. -/
theorem Held.length_slice (h : fb.Held st) {pageNum : Nat}
    (hnum : pageNum < fb.multiPages.length) {place size : Nat}
    (hsize : place + size ≤ fb.pageDataSize) :
    (((fb.contents st).drop (pageNum * fb.pageDataSize + place)).take size).length = size := by
  have hlen := h.length_pageData (getElem_mem hnum)
  rw [contents, ← drop_drop, drop_flatMap (fun mp hmp => h.length_pageData hmp) hnum,
    length_take, length_drop, length_append]
  omega

-- ======== one thread

/-- The loop of a thread reads all it is to read, page by page, if its pages
are there and hold it, and its first page is where the next byte is. -/
theorem Held.readThreadPages (h : fb.Held st) {startPageOffset : Nat} (numPages : Nat)
    {pageNum curPtr bytesLeft place : Nat} {isFirstPage : Bool}
    (hfirst : place = if isFirstPage then startPageOffset else 0) (hlt : place < fb.pageDataSize)
    (hpages : pageNum + numPages ≤ fb.multiPages.length)
    (hleft : bytesLeft ≤ numPages * fb.pageDataSize - place)
    (hplace : bytesLeft = 0 ∨ offset + curPtr = pageNum * fb.pageDataSize + place) :
    ∃ reads, fb.readThreadPages st startPageOffset numPages pageNum curPtr bytesLeft isFirstPage =
        some reads ∧
      ReadsTile curPtr reads (curPtr + bytesLeft : Nat) ∧
      ∀ r ∈ reads, Faithful (fb.contents st) offset r := by
  induction numPages generalizing pageNum curPtr bytesLeft place isFirstPage with
  | zero =>
    obtain rfl : bytesLeft = 0 := by omega
    exact ⟨[], rfl, rfl, by simp⟩
  | succ numPages ih =>
    have hnum : pageNum < fb.multiPages.length := by omega
    have hpos := h.pageDataSize_pos
    rw [Nat.succ_mul] at hleft
    obtain ⟨size, hsize⟩ : ∃ size, size = min (fb.pageDataSize - place) bytesLeft := ⟨_, rfl⟩
    have hfit : place + size ≤ fb.pageDataSize := by omega
    obtain ⟨current, hcur, hread⟩ := h.read_page hnum hfit
    have hlen := h.length_slice hnum hfit
    generalize hbytes : ((fb.contents st).drop (pageNum * fb.pageDataSize + place)).take size
      = bytes at hread hlen
    -- the page behind it is read from its start
    obtain ⟨reads, hrun, htile, hfaith⟩ := @ih (pageNum + 1) (curPtr + size)
      (bytesLeft - size) 0 false rfl hpos (by omega) (by omega) (by rw [Nat.succ_mul]; omega)
    refine ⟨⟨curPtr, bytes⟩ :: reads, ?_, ⟨rfl, ?_⟩, ?_⟩
    · subst hfirst hsize
      rw [FileBuffer.readThreadPages, getElem?_eq_getElem hnum]
      cases isFirstPage <;> simp_all
    · have hend : curPtr + size + (bytesLeft - size) = curPtr + bytesLeft := by omega
      rw [hend] at htile
      change Tiles _ _ ((curPtr : Int) + (bytes.length : Nat)) reads _
      rw [hlen]
      exact_mod_cast htile
    · intro r hr
      rcases mem_cons.mp hr with rfl | hr
      · rw [Faithful, hlen]
        rcases hplace with hzero | hplace
        · obtain rfl : size = 0 := by omega
          rw [take_zero]
          exact length_eq_zero_iff.mp hlen
        · rw [hplace, hbytes]
      · exact hfaith r hr

-- ======== the descriptors

/-- The place in its first page where a thread begins. -/
def place (ds : ReadThreadDS) : Nat := if ds.isFirstPage then ds.startPageOffset else 0

/-- The pages of consecutive threads. -/
abbrev PagesTile (a : Nat) (arr : List ReadThreadDS) (c : Nat) : Prop :=
  Tiles (fun ds : ReadThreadDS => (ds.startPage : Int)) ReadThreadDS.numPages a arr c

/-- The bytes of consecutive threads. -/
abbrev BytesTile (a : Nat) (arr : List ReadThreadDS) (c : Nat) : Prop :=
  Tiles (fun ds : ReadThreadDS => (ds.curPtr : Int)) ReadThreadDS.bytesLeft a arr c

/-- What a thread is told: its pages hold its bytes, and the first of them,
if there is any, is where its pages begin. -/
structure Told (pageDataSize offset : Nat) (ds : ReadThreadDS) : Prop where
  place_lt : place ds < pageDataSize
  bytesLeft_le : ds.bytesLeft ≤ ds.numPages * pageDataSize - place ds
  aligned : ds.bytesLeft = 0 ∨ offset + ds.curPtr = ds.startPage * pageDataSize + place ds

theorem numPages_nextThreadDS (pageDataSize numPagesPerThread : Nat) (ds : ReadThreadDS)
    (numExtraPages numBytesCurrent : Nat) :
    (nextThreadDS pageDataSize numPagesPerThread ds numExtraPages numBytesCurrent).numPages =
      numPagesPerThread + (if 0 < numExtraPages then 1 else 0) := by
  unfold nextThreadDS ReadThreadDS.numPages
  dsimp only
  omega

/-- From a thread on, with `numThreads` behind it: if the pages left hold
the bytes left, both are cut into consecutive runs. -/
theorem threadDSArr_tile {pageDataSize numPagesPerThread offset : Nat}
    (hper : 0 < numPagesPerThread) (numThreads : Nat) {ds : ReadThreadDS}
    {numExtraPages numBytesCurrent : Nat} (hplace : place ds < pageDataSize)
    (hpages : 0 < ds.numPages)
    (hbytes : ds.bytesLeft = min (ds.numPages * pageDataSize - place ds) numBytesCurrent)
    (halign : ds.bytesLeft = 0 ∨ offset + ds.curPtr = ds.startPage * pageDataSize + place ds)
    (hextra : numExtraPages ≤ numThreads) (hcap : numBytesCurrent + place ds ≤
      (ds.numPages + (numThreads * numPagesPerThread + numExtraPages)) * pageDataSize) :
    PagesTile ds.startPage
        (threadDSArr pageDataSize numPagesPerThread (numThreads + 1) ds numExtraPages
          numBytesCurrent)
        (ds.startPage + (ds.numPages + (numThreads * numPagesPerThread + numExtraPages))) ∧
      BytesTile ds.curPtr
        (threadDSArr pageDataSize numPagesPerThread (numThreads + 1) ds numExtraPages
          numBytesCurrent)
        (ds.curPtr + numBytesCurrent) ∧
      ∀ d ∈ threadDSArr pageDataSize numPagesPerThread (numThreads + 1) ds numExtraPages
        numBytesCurrent, Told pageDataSize offset d := by
  have htold : Told pageDataSize offset ds := ⟨hplace, by omega, halign⟩
  rw [Nat.add_mul] at hcap
  induction numThreads generalizing ds numExtraPages numBytesCurrent with
  | zero =>
    obtain rfl : numExtraPages = 0 := by omega
    rw [Nat.zero_mul, Nat.zero_add] at *
    have hall : ds.bytesLeft = numBytesCurrent := by omega
    refine ⟨⟨rfl, ?_⟩, ⟨rfl, ?_⟩, ?_⟩
    · simp [threadDSArr]
    · simp [threadDSArr, hall]
    · intro d hd
      obtain rfl := mem_singleton.mp hd
      exact htold
  | succ numThreads ih =>
    have hmul : pageDataSize ≤ ds.numPages * pageDataSize := Nat.le_mul_of_pos_left _ hpages
    rw [threadDSArr]
    -- the descriptor of the next thread
    generalize hnext : nextThreadDS pageDataSize numPagesPerThread ds numExtraPages
      (numBytesCurrent - ds.bytesLeft) = next
    have hstart : next.startPage = ds.startPage + ds.numPages := hnext ▸ rfl
    have hcur : next.curPtr = ds.curPtr + ds.bytesLeft := hnext ▸ rfl
    have hzero : place next = 0 := hnext ▸ rfl
    have hnum : next.numPages = numPagesPerThread + (if 0 < numExtraPages then 1 else 0) :=
      hnext ▸ numPages_nextThreadDS ..
    have hleft : next.bytesLeft =
        min (next.numPages * pageDataSize - place next) (numBytesCurrent - ds.bytesLeft) := by
      rw [hzero, ← hnext]
      rfl
    have hpagesLeft : next.numPages + (numThreads * numPagesPerThread + (numExtraPages - 1)) =
        (numThreads + 1) * numPagesPerThread + numExtraPages := by
      rw [hnum, Nat.succ_mul]
      split_ifs <;> omega
    have halign' : next.bytesLeft = 0 ∨
        offset + next.curPtr = next.startPage * pageDataSize + place next := by
      rw [hstart, hcur, hzero, Nat.add_mul]
      omega
    have hcap' : numBytesCurrent - ds.bytesLeft + place next ≤ next.numPages * pageDataSize +
        (numThreads * numPagesPerThread + (numExtraPages - 1)) * pageDataSize := by
      rw [← Nat.add_mul, hpagesLeft, hzero]
      omega
    obtain ⟨hpagesTile, hbytesTile, htolds⟩ := ih (by omega) (by omega) hleft halign' (by omega)
      hcap' ⟨by omega, by omega, halign'⟩
    rw [hstart, hpagesLeft] at hpagesTile
    rw [hcur] at hbytesTile
    have hend : ds.curPtr + ds.bytesLeft + (numBytesCurrent - ds.bytesLeft) =
        ds.curPtr + numBytesCurrent := by omega
    refine ⟨⟨rfl, ?_⟩, ⟨rfl, ?_⟩, forall_mem_cons.mpr ⟨htold, htolds⟩⟩
    · rw [Nat.add_assoc] at hpagesTile
      exact_mod_cast hpagesTile
    · rw [← hend]
      exact_mod_cast hbytesTile

theorem le_numPagesToRead (hpos : 0 < pageDataSize) (numBytes offset : Nat) :
    numBytes + offset % pageDataSize ≤
      numPagesToRead pageDataSize numBytes offset * pageDataSize := by
  have hdiv := Nat.div_add_mod (numBytes + offset % pageDataSize + pageDataSize - 1) pageDataSize
  have hlt := Nat.mod_lt (numBytes + offset % pageDataSize + pageDataSize - 1) hpos
  rw [numPagesToRead, Nat.mul_comm]
  omega

/-- The pages that are read are pages of the data. -/
theorem numPagesToRead_le {numPages numBytes : Nat} (hpos : 0 < pageDataSize)
    (hin : offset + numBytes ≤ numPages * pageDataSize) :
    offset / pageDataSize + numPagesToRead pageDataSize numBytes offset ≤ numPages := by
  have hoffset := Nat.div_add_mod' offset pageDataSize
  have hsum : offset / pageDataSize + numPagesToRead pageDataSize numBytes offset =
      (numBytes + offset + pageDataSize - 1) / pageDataSize := by
    have hmove : numBytes + offset + pageDataSize - 1 =
        numBytes + offset % pageDataSize + pageDataSize - 1
          + offset / pageDataSize * pageDataSize := by omega
    rw [hmove, Nat.add_mul_div_right _ _ hpos, numPagesToRead, Nat.add_comm]
  rw [hsum, ← Nat.lt_succ_iff, Nat.div_lt_iff_lt_mul hpos, Nat.succ_mul]
  omega

theorem firstThreadDS_numPages (pageDataSize per extra numBytes offset : Nat) :
    (firstThreadDS pageDataSize per extra numBytes offset).numPages =
      per + (if 0 < extra then 1 else 0) := by
  unfold firstThreadDS ReadThreadDS.numPages
  dsimp only
  omega

theorem firstThreadDS_pages {per extra behind pages : Nat}
    (h : (behind + 1) * per + extra = pages) :
    per + (if 0 < extra then 1 else 0) + (behind * per + (extra - 1)) = pages := by
  rw [Nat.succ_mul] at h
  split_ifs <;> omega

theorem firstThreadDS_tile {per extra behind pages numBytes : Nat} (hpos : 0 < pageDataSize)
    (hper : 0 < per) (hextra : extra ≤ behind) (hsum : (behind + 1) * per + extra = pages)
    (hcap : numBytes + offset % pageDataSize ≤ pages * pageDataSize) :
    let arr := threadDSArr pageDataSize per (behind + 1)
      (firstThreadDS pageDataSize per extra numBytes offset) (extra - 1) numBytes
    PagesTile (offset / pageDataSize) arr (offset / pageDataSize + pages) ∧
      BytesTile 0 arr numBytes ∧ ∀ ds ∈ arr, Told pageDataSize offset ds := by
  have hnum := firstThreadDS_numPages pageDataSize per extra numBytes offset
  have hpages := firstThreadDS_pages hsum
  have htile := @threadDSArr_tile pageDataSize per offset hper behind
    (firstThreadDS pageDataSize per extra numBytes offset) (extra - 1) numBytes
    (Nat.mod_lt offset hpos) (by omega) rfl
    (.inr (Nat.div_add_mod' offset pageDataSize).symm) (by omega)
    (by rw [hnum, hpages]; exact hcap)
  have hstart : (firstThreadDS pageDataSize per extra numBytes offset).curPtr = 0 := rfl
  rw [hnum, hpages, hstart, Nat.zero_add numBytes] at htile
  exact htile

/-- The descriptors cut the pages and the bytes of a read into consecutive
runs. -/
theorem readThreadDSs_tile {numReaderThreads : Nat} (numBytes offset : Nat)
    (hpos : 0 < pageDataSize) (hthreads : 0 < numReaderThreads) :
    PagesTile (offset / pageDataSize)
        (readThreadDSs pageDataSize numReaderThreads numBytes offset)
        (offset / pageDataSize + numPagesToRead pageDataSize numBytes offset) ∧
      BytesTile 0 (readThreadDSs pageDataSize numReaderThreads numBytes offset) numBytes ∧
      ∀ ds ∈ readThreadDSs pageDataSize numReaderThreads numBytes offset,
        Told pageDataSize offset ds := by
  have hcap := le_numPagesToRead hpos numBytes offset
  unfold readThreadDSs
  generalize numPagesToRead pageDataSize numBytes offset = pages at hcap ⊢
  by_cases hmany : numReaderThreads < pages
  · obtain ⟨behind, rfl⟩ : ∃ behind, numReaderThreads = behind + 1 :=
      ⟨numReaderThreads - 1, by omega⟩
    have hmod := Nat.mod_lt pages hthreads
    have hdiv := Nat.div_add_mod pages (behind + 1)
    have hper : 0 < pages / (behind + 1) := Nat.div_pos hmany.le hthreads
    simp only [hmany, if_true, min_eq_left hmany.le]
    exact firstThreadDS_tile hpos hper (by omega) (by omega) hcap
  · simp only [hmany, if_false, min_eq_right (not_lt.mp hmany)]
    cases pages with
    | zero =>
      obtain rfl : numBytes = 0 := by omega
      exact ⟨rfl, rfl, by simp [threadDSArr]⟩
    | succ behind => exact firstThreadDS_tile hpos Nat.one_pos (Nat.zero_le _) (by omega) hcap

-- ======== all threads

/-- The reads of the threads fill the destination together. -/
theorem tile_flatten {a c : Int} {arr : List ReadThreadDS} {threads : List (List PageRead)}
    (htile : Tiles (fun ds : ReadThreadDS => (ds.curPtr : Int)) ReadThreadDS.bytesLeft a arr c)
    (hreads : Forall₂ (fun ds reads =>
      ReadsTile ds.curPtr reads (ds.curPtr + ds.bytesLeft : Nat)) arr threads) :
    Tiles (fun r : PageRead => (r.dst : Int)) (fun r => r.bytes.length) a threads.flatten c := by
  induction hreads generalizing a with
  | nil => exact htile
  | @cons ds reads arr threads hds _ ih =>
    obtain ⟨rfl, htile⟩ := htile
    exact tiles_append.mpr ⟨_, hds, ih (by exact_mod_cast htile)⟩

theorem totalBytesRead_flatten (threads : List (List PageRead)) :
    totalBytesRead threads.flatten = (threads.map totalBytesRead).sum := by
  induction threads with
  | nil => rfl
  | cons reads threads ih =>
    rw [flatten_cons, totalBytesRead, map_append, sum_append, map_cons, sum_cons, ← ih]
    rfl

/-- The read brings the byte that goes to place `i`. -/
def Brings (i : Nat) (r : PageRead) : Prop := r.dst ≤ i ∧ i < r.dst + r.bytes.length

instance (i : Nat) (r : PageRead) : Decidable (Brings i r) := by unfold Brings; infer_instance

theorem arrive_eq {data : List UInt8} {r : PageRead} (hfaith : Faithful data offset r)
    (dst : Nat → UInt8) (i : Nat) :
    arrive dst r i = if Brings i r then (data[offset + i]?).getD (dst i) else dst i := by
  unfold arrive
  by_cases hle : r.dst ≤ i
  · by_cases hlt : i < r.dst + r.bytes.length
    · have hbrings : Brings i r := ⟨hle, hlt⟩
      have hplace : offset + r.dst + (i - r.dst) = offset + i := by omega
      rw [if_pos hle, if_pos hbrings, hfaith, getElem?_take_of_lt (by omega), getElem?_drop, hplace]
    · have hnot : ¬ Brings i r := fun h => hlt h.2
      rw [if_pos hle, if_neg hnot, getElem?_eq_none (by omega)]
      rfl
  · have hnot : ¬ Brings i r := fun h => hle h.1
    rw [if_neg hle, if_neg hnot]

/-- What reads from the right places leave in the destination, whatever
their order: the bytes of the chunk where a read brings one. -/
theorem foldl_arrive {data : List UInt8} {run : List PageRead}
    (hfaith : ∀ r ∈ run, Faithful data offset r) (dst : Nat → UInt8) (i : Nat) :
    run.foldl arrive dst i =
      if ∃ r ∈ run, Brings i r then (data[offset + i]?).getD (dst i) else dst i := by
  induction run generalizing dst with
  | nil => simp
  | cons r run ih =>
    have htwice (d : UInt8) : (data[offset + i]?).getD ((data[offset + i]?).getD d) =
        (data[offset + i]?).getD d := by cases data[offset + i]? <;> rfl
    rw [foldl_cons, ih fun r' hr' => hfaith r' (mem_cons_of_mem r hr'),
      arrive_eq (hfaith r mem_cons_self)]
    by_cases hr : Brings i r <;> simp [hr, htwice]

/-- Tiling reads bring every byte between their ends. -/
theorem exists_brings {a c i : Nat} {reads : List PageRead} (h : ReadsTile a reads c)
    (ha : a ≤ i) (hc : i < c) : ∃ r ∈ reads, Brings i r := by
  induction reads generalizing a with
  | nil =>
    have heq : (a : Int) = c := h
    omega
  | cons r reads ih =>
    obtain ⟨hfirst, htile⟩ := h
    have hstart : (r.dst : Int) = a := hfirst
    by_cases hlt : i < a + r.bytes.length
    · exact ⟨r, mem_cons_self, by unfold Brings; omega⟩
    · obtain ⟨r', hr', hbrings⟩ :=
        ih (a := a + r.bytes.length) (by exact_mod_cast htile) (by omega)
      exact ⟨r', mem_cons_of_mem r hr', hbrings⟩

-- ======== the result

theorem Held.contents_length (h : fb.Held st) :
    (fb.contents st).length = fb.multiPages.length * fb.pageDataSize := by
  rw [contents, length_flatMap, map_congr_left (fun mp hmp => h.length_pageData hmp)]
  simp

/-- A read within the chunk, by any number of threads: the descriptors cut
its pages and its bytes into consecutive runs, each thread reads all it is
to read, the page reads cut the destination, and no `CHECK` fails. However
the threads take turns, the destination ends up with the bytes of the
chunk, and nothing else of it changes. -/
theorem readThreaded_spec (hheld : fb.Held st) {numReaderThreads numBytes offset : Nat}
    (hthreads : 0 < numReaderThreads) (hin : offset + numBytes ≤ fb.size) :
    let arr := readThreadDSs fb.pageDataSize numReaderThreads numBytes offset
    PagesTile (offset / fb.pageDataSize) arr
        (offset / fb.pageDataSize + numPagesToRead fb.pageDataSize numBytes offset) ∧
      BytesTile 0 arr numBytes ∧
      ∃ threads, fb.readThreaded st numReaderThreads numBytes offset = some threads ∧
        (∀ ds ∈ arr, ∃ reads, fb.readForThread st ds = some reads ∧
          totalBytesRead reads = ds.bytesLeft) ∧
        ReadsTile 0 threads.flatten numBytes ∧
        ∀ dst run, Interleaves threads run →
          (∀ i < numBytes, (fb.contents st)[offset + i]? = some (run.foldl arrive dst i)) ∧
          ∀ i, numBytes ≤ i → run.foldl arrive dst i = dst i := by
  intro arr
  have hpos := hheld.pageDataSize_pos
  obtain ⟨hpages, hbytes, htold⟩ := readThreadDSs_tile numBytes offset hpos hthreads
  have hend := numPagesToRead_le hpos (hin.trans hheld.size)
  -- each thread
  have hthread : ∀ ds ∈ arr, ∃ reads, fb.readForThread st ds = some reads ∧
      (ReadsTile ds.curPtr reads (ds.curPtr + ds.bytesLeft : Nat) ∧
        ∀ r ∈ reads, Faithful (fb.contents st) offset r) := by
    intro ds hds
    have htold := htold ds hds
    have hlast := (hpages.mem hds).2
    exact hheld.readThreadPages ds.numPages rfl htold.place_lt (by omega) htold.bytesLeft_le
      htold.aligned
  obtain ⟨threads, hmap, hall⟩ := OptionFold.mapM_forall₂ hthread
  have htile : ReadsTile 0 threads.flatten numBytes :=
    tile_flatten hbytes (hall.imp fun _ _ h => h.1)
  refine ⟨hpages, hbytes, threads, ?_, fun ds hds => ?_, htile, ?_⟩
  · have htotal : (threads.map totalBytesRead).sum = numBytes := by
      have hsum := htile.eq_add_sum
      rw [← totalBytesRead_flatten, totalBytesRead]
      omega
    have hmap' : (readThreadDSs fb.pageDataSize numReaderThreads numBytes offset).mapM
        (fb.readForThread st) = some threads := hmap
    simp [readThreaded, hpos.ne', hthreads.ne', hend, hmap', htotal]
  · obtain ⟨reads, hrun, hreads, -⟩ := hthread ds hds
    have hsum := hreads.eq_add_sum
    exact ⟨reads, hrun, by rw [totalBytesRead]; omega⟩
  · intro dst run hrun
    have hmem (r : PageRead) : r ∈ run ↔ r ∈ threads.flatten := hrun.perm_flatten.mem_iff
    have hfaith : ∀ r ∈ run, Faithful (fb.contents st) offset r := by
      intro r hr
      obtain ⟨reads, hreads, hr⟩ := mem_flatten.mp ((hmem r).mp hr)
      obtain ⟨ds, hds, hrun⟩ := (OptionFold.mapM_mem hmap).1 reads hreads
      obtain ⟨reads', hrun', -, hfaith⟩ := hthread ds hds
      obtain rfl := Option.some.inj (hrun.symm.trans hrun')
      exact hfaith r hr
    refine ⟨fun i hi => ?_, fun i hi => ?_⟩
    · obtain ⟨r, hr, hbrings⟩ := exists_brings htile (Nat.zero_le i) hi
      have hlen : offset + i < (fb.contents st).length := by
        rw [hheld.contents_length]
        have hsize := hheld.size
        omega
      rw [foldl_arrive hfaith, if_pos ⟨r, (hmem r).mpr hr, hbrings⟩,
        getElem?_eq_getElem hlen, Option.getD_some]
    · have hnone : ¬ ∃ r ∈ run, Brings i r := by
        rintro ⟨r, hr, hbrings⟩
        have hin := (htile.mem ((hmem r).mp hr)).2
        have hlt := hbrings.2
        omega
      rw [foldl_arrive hfaith, if_neg hnone]

/-- A chunk of two pages of eight bytes, and the file they are in. -/
def twoPages : FileBuffer :=
  ⟨40, [1], 16, [[⟨0, ⟨0, 0⟩⟩], [⟨0, ⟨0, 1⟩⟩]], [], false, false, false⟩

@[inherit_doc twoPages]
def twoPagesStore : PageStore := ⟨[⟨40, 2, []⟩], [⟨createFileOfSize 80, []⟩], 0, []⟩

theorem twoPages_held : twoPages.Held twoPagesStore where
  header := by decide
  pageSize := by decide
  page := by
    intro multiPage hmem
    rcases mem_cons.mp hmem with rfl | hmem
    · exact ⟨_, rfl, (by decide : (0 + 1) * 40 ≤ 80)⟩
    · obtain rfl := mem_singleton.mp hmem
      exact ⟨_, rfl, (by decide : (1 + 1) * 40 ≤ 80)⟩
  size := by decide

/-- Eleven bytes over the seam of the two pages, with three threads. -/
theorem readThreaded_twoPages :
    PagesTile 0 (readThreadDSs 8 3 11 2) 2 ∧ BytesTile 0 (readThreadDSs 8 3 11 2) 11 ∧
      ∃ threads, twoPages.readThreaded twoPagesStore 3 11 2 = some threads ∧
        (∀ ds ∈ readThreadDSs 8 3 11 2, ∃ reads,
          twoPages.readForThread twoPagesStore ds = some reads ∧
            totalBytesRead reads = ds.bytesLeft) ∧
        ReadsTile 0 threads.flatten 11 ∧
        ∀ dst run, Interleaves threads run →
          (∀ i < 11, (twoPages.contents twoPagesStore)[2 + i]? = some (run.foldl arrive dst i)) ∧
          ∀ i, 11 ≤ i → run.foldl arrive dst i = dst i :=
  @readThreaded_spec twoPages twoPagesStore twoPages_held 3 11 2
    (by decide) (by decide)

end FileBuffer

end Compass.Files
