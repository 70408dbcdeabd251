/-
A chunk on disk is where its pages say.

`PageStore.Kept` is what the file manager keeps of its files: each is as
long as its pages, and only its own pages are free. `Held` is what a chunk
can rely on. Nothing ever shortens a file (`Grows`), so a page that lay in
its file stays there; `append` and `write` add as many pages as the chunk
gets longer (`Reached.held_kept`).
-/
import Compass.Files.FileBuffer

namespace Compass.Files

open List Option Nat

-- ======== the store

namespace PageStore

/-- Each file is as long as its pages, and its free pages are its own. -/
structure Kept (st : PageStore) : Prop where
  disk_length : st.disk.length = st.files.length
  long : ∀ (i : Nat) (f : FileInfo), st.files[i]? = some f →
    f.numPages * f.pageSize ≤ (st.contents i).length
  free : ∀ (i : Nat) (f : FileInfo), st.files[i]? = some f → ∀ p ∈ f.freePages, p < f.numPages

/-- No file gets shorter. -/
def Grows (st st' : PageStore) : Prop :=
  ∀ i, (st.contents i).length ≤ (st'.contents i).length

/-- The page lies in its file. -/
def Inside (st : PageStore) (pageSize : Nat) (page : Page) : Prop :=
  (page.pageNum + 1) * pageSize ≤ (st.contents page.fileId).length

variable {st : PageStore}

theorem Grows.refl (st : PageStore) : st.Grows st := fun _ => le_rfl

theorem Grows.trans {st₁ st₂ st₃ : PageStore} (h : st₁.Grows st₂) (h' : st₂.Grows st₃) :
    st₁.Grows st₃ := fun i => le_trans (h i) (h' i)

theorem Inside.grows {st' : PageStore} {pageSize : Nat} {page : Page}
    (h : st.Inside pageSize page) (hgrows : st.Grows st') : st'.Inside pageSize page :=
  le_trans h (hgrows page.fileId)

-- ------------------------------------------------------------- writes

theorem write_grows (st : PageStore) (fileId offset : Nat) (buf : List UInt8) :
    st.Grows (st.write fileId offset buf) := by
  intro i
  unfold contents write
  simp only [getD_eq_getElem?_getD, getElem?_modify]
  cases st.disk[i]? with
  | none => rfl
  | some f =>
    by_cases hi : fileId = i <;> simp [hi]

theorem Kept.write (h : st.Kept) (fileId offset : Nat) (buf : List UInt8) :
    (st.write fileId offset buf).Kept where
  disk_length := by
    have hlen := h.disk_length
    simpa [PageStore.write] using hlen
  long i f hf := le_trans (h.long i f hf) (write_grows st fileId offset buf i)
  free := h.free

-- --------------------------------------------------------- new files

theorem length_initNewFile (f : DiskFile) (pageSize numPages : Nat) :
    f.contents.length ≤ (initNewFile f pageSize numPages).contents.length := by
  unfold initNewFile
  generalize range numPages = pages
  induction pages generalizing f with
  | nil => rfl
  | cons p pages ih =>
    refine le_trans ?_ (ih _)
    rw [DiskFile.contents_write, ByteFile.write_length]
    exact le_max_left ..

theorem length_createFileOfSize (size : Nat) : max 1 size ≤ (createFileOfSize size).length := by
  simp only [createFileOfSize, ByteFile.write_length, length_singleton]
  omega

theorem length_newFile (pageSize numPages : Nat) :
    max 1 (pageSize * numPages) ≤ (initNewFile ⟨createFileOfSize (pageSize * numPages), []⟩
      pageSize numPages).contents.length :=
  le_trans (length_createFileOfSize _)
    (length_initNewFile ⟨createFileOfSize (pageSize * numPages), []⟩ pageSize numPages)

theorem createFile_grows (st : PageStore) (pageSize numPages : Nat) :
    st.Grows (st.createFile pageSize numPages) := by
  intro i
  have hnew := length_newFile pageSize numPages
  unfold contents createFile
  simp only [getD_eq_getElem?_getD, getElem?_append]
  split_ifs with hi
  · rfl
  · rw [getElem?_eq_none (by omega)]
    by_cases hlast : i - st.disk.length = 0
    · rw [hlast]
      exact le_trans (le_max_left 1 _) hnew
    · rw [getElem?_eq_none (by rw [length_singleton]; omega)]

theorem contents_createFile (st : PageStore) (pageSize numPages : Nat) :
    max 1 (pageSize * numPages) ≤
      ((st.createFile pageSize numPages).contents st.disk.length).length := by
  have hnew := length_newFile pageSize numPages
  simpa [contents, createFile] using hnew

/-- The files there were, and the new one. -/
theorem getElem?_createFile {pageSize numPages i : Nat} {f : FileInfo}
    (hf : (st.createFile pageSize numPages).files[i]? = some f) :
    st.files[i]? = some f ∨
      (i = st.files.length ∧ f = ⟨pageSize, numPages, List.range numPages⟩) := by
  simp only [createFile, getElem?_append] at hf
  split_ifs at hf with hi
  · exact .inl hf
  · obtain ⟨hlt, hfile⟩ := List.getElem?_eq_some_iff.mp hf
    rw [length_singleton] at hlt
    exact .inr ⟨by omega, by rw [← hfile, getElem_singleton]⟩

theorem Kept.createFile (h : st.Kept) (pageSize numPages : Nat) :
    (st.createFile pageSize numPages).Kept where
  disk_length := by simp [PageStore.createFile, h.disk_length]
  long i f hf := by
    rcases getElem?_createFile hf with hf | ⟨rfl, rfl⟩
    · exact le_trans (h.long i f hf) (createFile_grows st pageSize numPages i)
    · have hnew := contents_createFile st pageSize numPages
      rw [← h.disk_length, mul_comm]
      exact le_trans (le_max_right 1 _) hnew
  free i f hf p hp := by
    rcases getElem?_createFile hf with hf | ⟨-, rfl⟩
    · exact h.free i f hf p hp
    · exact mem_range.mp hp

-- --------------------------------------------------------- free pages

theorem getFreePage_eq_some {pageSize fileId : Nat} {fs : List FileInfo} {page : Page}
    (h : getFreePage pageSize fileId fs = some page) :
    ∃ (i : Nat) (f : FileInfo), fs[i]? = some f ∧ page.fileId = fileId + i ∧
      f.pageSize = pageSize ∧ page.pageNum ∈ f.freePages := by
  induction fs generalizing fileId with
  | nil => cases h
  | cons f fs ih =>
    have hlater (h : getFreePage pageSize (fileId + 1) fs = some page) :
        ∃ (i : Nat) (g : FileInfo), (f :: fs)[i]? = some g ∧ page.fileId = fileId + i ∧
          g.pageSize = pageSize ∧ page.pageNum ∈ g.freePages := by
      obtain ⟨i, g, hg, hid, hrest⟩ := ih h
      exact ⟨i + 1, g, hg, by omega, hrest⟩
    rw [getFreePage] at h
    split at h
    case h_1 p ps hfree =>
      split_ifs at h with hsize
      · cases h
        exact ⟨0, f, rfl, rfl, hsize, by rw [hfree]; exact mem_cons_self⟩
      · exact hlater h
    case h_2 => exact hlater h

theorem Kept.takePage (h : st.Kept) (page : Page) : (st.takePage page).Kept := by
  have hfile (i : Nat) (f : FileInfo) (hf : (st.takePage page).files[i]? = some f) :
      ∃ g, st.files[i]? = some g ∧ f.numPages = g.numPages ∧ f.pageSize = g.pageSize ∧
        ∀ p ∈ f.freePages, p ∈ g.freePages := by
    simp only [PageStore.takePage, getElem?_modify, Option.map_eq_map, map_eq_some_iff] at hf
    obtain ⟨g, hg, rfl⟩ := hf
    refine ⟨g, hg, ?_⟩
    split_ifs
    · exact ⟨rfl, rfl, fun p hp => mem_of_mem_erase hp⟩
    · exact ⟨rfl, rfl, fun p hp => hp⟩
  refine ⟨?_, fun i f hf => ?_, fun i f hf p hp => ?_⟩
  · have hlen := h.disk_length
    simpa [PageStore.takePage] using hlen
  · obtain ⟨g, hg, hnum, hsize, -⟩ := hfile i f hf
    rw [hnum, hsize]
    exact h.long i g hg
  · obtain ⟨g, hg, hnum, -, hfree⟩ := hfile i f hf
    rw [hnum]
    exact h.free i g hg p (hfree p hp)

/-- A page that is given out lies in its file. -/
theorem Kept.requestFreePage (h : st.Kept) (pageSize : Nat) (isMetadata : Bool) :
    (st.requestFreePage pageSize isMetadata).2.Kept ∧
      st.Grows (st.requestFreePage pageSize isMetadata).2 ∧
      (st.requestFreePage pageSize isMetadata).2.Inside pageSize
        (st.requestFreePage pageSize isMetadata).1 := by
  unfold PageStore.requestFreePage
  split
  case h_1 page hpage =>
    obtain ⟨i, f, hf, hid, rfl, hfree⟩ := getFreePage_eq_some hpage
    refine ⟨h.takePage page, Grows.refl st, ?_⟩
    have hlong := h.long i f hf
    have hlt := Nat.mul_le_mul_right f.pageSize (h.free i f hf _ hfree)
    rw [Nat.zero_add] at hid
    rw [Inside, hid]
    exact le_trans hlt hlong
  case h_2 =>
    generalize hnum : (if isMetadata = true then maxFileNMetadataPages else maxFileNPages)
      = numPages
    have hpos : 0 < numPages := by
      rw [← hnum]
      split_ifs <;> decide
    have hcreate := h.createFile pageSize numPages
    refine ⟨hcreate.takePage _, createFile_grows st pageSize numPages, ?_⟩
    have hnew := contents_createFile st pageSize numPages
    have hmul := Nat.mul_le_mul_left pageSize hpos
    have hid : (st.createFile pageSize numPages).files.length - 1 = st.disk.length := by
      rw [h.disk_length, PageStore.createFile, length_append, length_singleton, Nat.add_sub_cancel]
    rw [Nat.succ_eq_add_one, Nat.zero_add, Nat.mul_one] at hmul
    change (0 + 1) * pageSize ≤ ((st.createFile pageSize numPages).contents
      ((st.createFile pageSize numPages).files.length - 1)).length
    rw [hid, Nat.zero_add, Nat.one_mul]
    exact le_trans hmul (le_trans (le_max_right 1 _) hnew)

end PageStore

namespace FileBuffer

/-- The chunk is where its pages say: a page holds data behind its header,
each current page lies in its file, and the pages hold all of the chunk. -/
structure Held (fb : FileBuffer) (st : PageStore) : Prop where
  header : fb.reservedHeaderSize < fb.pageSize
  pageSize : fb.pageSize < 2 ^ 64
  page : ∀ multiPage ∈ fb.multiPages, ∃ current, multiPage.getLast? = some current ∧
    st.Inside fb.pageSize current.page
  size : fb.size ≤ fb.multiPages.length * fb.pageDataSize

variable {fb : FileBuffer} {st : PageStore}

theorem Held.pageDataSize_eq (h : fb.Held st) :
    fb.pageDataSize = fb.pageSize - fb.reservedHeaderSize := by
  have hheader := h.header
  have hpage := h.pageSize
  have hsum : fb.pageSize + (2 ^ 64 - fb.reservedHeaderSize) =
      fb.pageSize - fb.reservedHeaderSize + 2 ^ 64 := by omega
  rw [pageDataSize, hsum, add_mod_right, mod_eq_of_lt (by omega)]

theorem Held.pageDataSize_pos (h : fb.Held st) : 0 < fb.pageDataSize := by
  have hheader := h.header
  rw [h.pageDataSize_eq]
  omega

-- ======== the pages

/-- The store goes on: files that were kept are kept, and none is shorter. -/
structure Follows (st st' : PageStore) : Prop where
  kept : st.Kept → st'.Kept
  grows : st.Grows st'

theorem Follows.refl (st : PageStore) : Follows st st := ⟨id, .refl st⟩

theorem Follows.trans {st₁ st₂ st₃ : PageStore} (h : Follows st₁ st₂) (h' : Follows st₂ st₃) :
    Follows st₁ st₃ := ⟨h'.kept ∘ h.kept, h.grows.trans h'.grows⟩

theorem follows_write (st : PageStore) (fileId offset : Nat) (buf : List UInt8) :
    Follows st (st.write fileId offset buf) :=
  ⟨fun h => h.write fileId offset buf, st.write_grows fileId offset buf⟩

variable {st' : PageStore} {fb' : FileBuffer}

theorem follows_copyPage {fb : FileBuffer} {st : PageStore} {src dest : Page}
    {numBytes offset : Nat} (h : fb.copyPage st src dest numBytes offset = some st') :
    Follows st st' := by
  simp only [copyPage, bind_eq_bind, bind_eq_some_iff] at h
  obtain ⟨-, -, buffer, -, h⟩ := h
  cases h
  exact follows_write ..

/-- The chunk has `n` pages, each in its file, in a store that has gone on
from `st₀`. -/
structure Paged (st₀ : PageStore) (n : Nat) (fb : FileBuffer) (st : PageStore) : Prop where
  since : Follows st₀ st
  kept : st.Kept
  length : fb.multiPages.length = n
  page : ∀ multiPage ∈ fb.multiPages, ∃ current, multiPage.getLast? = some current ∧
    st.Inside fb.pageSize current.page

/-- What no page operation changes. -/
structure SameChunk (fb fb' : FileBuffer) : Prop where
  pageSize : fb'.pageSize = fb.pageSize
  chunkKey : fb'.chunkKey = fb.chunkKey
  size : fb'.size = fb.size

theorem SameChunk.refl (fb : FileBuffer) : SameChunk fb fb := ⟨rfl, rfl, rfl⟩

theorem SameChunk.trans {fb₁ fb₂ fb₃ : FileBuffer} (h : SameChunk fb₁ fb₂)
    (h' : SameChunk fb₂ fb₃) : SameChunk fb₁ fb₃ :=
  ⟨h'.pageSize.trans h.pageSize, h'.chunkKey.trans h.chunkKey, h'.size.trans h.size⟩

variable {st₀ : PageStore} {n : Nat}

theorem Paged.follows (h : Paged st₀ n fb st) (hst : Follows st st') : Paged st₀ n fb st' where
  since := h.since.trans hst
  kept := hst.kept h.kept
  length := h.length
  page mp hmp := by
    obtain ⟨current, hcur, hinside⟩ := h.page mp hmp
    exact ⟨current, hcur, hinside.grows hst.grows⟩

variable {page : Page}

theorem Paged.addNewMultiPage (h : Paged st₀ n fb st) (pageNum : Nat)
    (hadd : fb.addNewMultiPage st pageNum = (page, fb', st')) :
    Paged st₀ (n + 1) fb' st' ∧ SameChunk fb fb' := by
  obtain ⟨hkept, hgrows, hinside⟩ := h.kept.requestFreePage fb.pageSize false
  cases hadd
  refine ⟨?_, ⟨rfl, rfl, rfl⟩⟩
  have hpages : Paged st₀ (n + 1)
      { fb with multiPages := fb.multiPages ++ [[⟨(st.requestFreePage fb.pageSize false).2.epoch,
        (st.requestFreePage fb.pageSize false).1⟩]] }
      (st.requestFreePage fb.pageSize false).2 := by
    refine ⟨h.since.trans ⟨fun _ => hkept, hgrows⟩, hkept, by simp [h.length], fun mp hmp => ?_⟩
    rcases mem_append.mp hmp with hmp | hmp
    · obtain ⟨current, hcur, hin⟩ := h.page mp hmp
      exact ⟨current, hcur, hin.grows hgrows⟩
    · obtain rfl := mem_singleton.mp hmp
      exact ⟨_, rfl, hinside⟩
  exact hpages.follows (follows_write ..)

/-- The newest version of a page is replaced. -/
theorem Paged.set (h : Paged st₀ n fb st) (pageNum : Nat) (versions : MultiPage)
    (version : PageVersion) (hinside : st.Inside fb.pageSize version.page) :
    Paged st₀ n { fb with multiPages := fb.multiPages.set pageNum (versions ++ [version]) } st where
  since := h.since
  kept := h.kept
  length := by rw [← h.length]; exact length_set
  page mp hmp := by
    rcases mem_or_eq_of_mem_set hmp with hmp | rfl
    · exact h.page mp hmp
    · exact ⟨version, by simp, hinside⟩

-- ======== append

variable {src : List UInt8} {pageNum : Nat}

theorem Paged.appendPages {initial numPages : Nat} {startPageOffset : Nat} {fb : FileBuffer}
    {st : PageStore} (h : Paged st₀ (max initial pageNum) fb st)
    (hrun : FileBuffer.appendPages initial numPages pageNum startPageOffset src fb st =
      some (fb', st')) : Paged st₀ (max initial (pageNum + numPages)) fb' st' ∧ SameChunk fb fb' := by
  induction numPages generalizing pageNum startPageOffset src fb st with
  | zero =>
    rw [FileBuffer.appendPages] at hrun
    split_ifs at hrun
    cases hrun
    exact ⟨h, .refl _⟩
  | succ numPages ih =>
    have hlen : pageNum + 1 + numPages = pageNum + (numPages + 1) := by omega
    by_cases hnew : initial ≤ pageNum
    · simp only [FileBuffer.appendPages, if_pos hnew, bind_eq_bind, bind_some]
        at hrun
      obtain ⟨hadd, hsame⟩ := h.addNewMultiPage pageNum rfl
      have hcount : max initial pageNum + 1 = max initial (pageNum + 1) := by omega
      rw [hcount] at hadd
      obtain ⟨hpaged, hsame'⟩ := ih (hadd.follows (follows_write ..)) hrun
      exact ⟨hlen ▸ hpaged, hsame.trans hsame'⟩
    · simp only [FileBuffer.appendPages, if_neg hnew, bind_eq_bind, bind_eq_some_iff] at hrun
      obtain ⟨versions, -, current, -, _, hpage, hrun⟩ := hrun
      cases hpage
      have hcount : max initial pageNum = max initial (pageNum + 1) := by omega
      rw [hcount] at h
      obtain ⟨hpaged, hsame⟩ := ih (h.follows (follows_write ..)) hrun
      exact ⟨hlen ▸ hpaged, hsame⟩

-- ======== write

theorem Paged.addGapPages {fb : FileBuffer} {st : PageStore} (h : Paged st₀ n fb st)
    (gap pageNum : Nat) :
    Paged st₀ (n + gap) (FileBuffer.addGapPages gap pageNum fb st).1
        (FileBuffer.addGapPages gap pageNum fb st).2 ∧
      SameChunk fb (FileBuffer.addGapPages gap pageNum fb st).1 := by
  induction gap generalizing n pageNum fb st with
  | zero => exact ⟨h, .refl fb⟩
  | succ gap ih =>
    obtain ⟨hadd, hsame⟩ := h.addNewMultiPage pageNum rfl
    obtain ⟨hpaged, hsame'⟩ := ih hadd (pageNum + 1)
    have hlen : n + 1 + gap = n + (gap + 1) := by omega
    exact ⟨hlen ▸ hpaged, hsame.trans hsame'⟩

variable {r : WriteRange}

section

variable {fb : FileBuffer} {st : PageStore} (h : Paged st₀ (max r.initialNumPages pageNum) fb st)
include h

theorem Paged.pageForWrite {bytesLeft : Nat}
    (hrun : FileBuffer.pageForWrite r pageNum bytesLeft fb st = some (page, fb', st')) :
    Paged st₀ (max r.initialNumPages (pageNum + 1)) fb' st' ∧ SameChunk fb fb' := by
  unfold FileBuffer.pageForWrite at hrun
  by_cases hnew : r.initialNumPages ≤ pageNum
  · rw [if_pos hnew] at hrun
    have hcount : max r.initialNumPages pageNum + 1 = max r.initialNumPages (pageNum + 1) := by
      omega
    exact hcount ▸ h.addNewMultiPage pageNum (some.inj hrun)
  · have hcount : max r.initialNumPages pageNum = max r.initialNumPages (pageNum + 1) := by omega
    rw [hcount] at h
    simp only [if_neg hnew, bind_eq_bind, bind_eq_some_iff] at hrun
    obtain ⟨versions, -, last, -, hrun⟩ := hrun
    by_cases hlag : last.epoch < st.epoch
    · obtain ⟨hkept, hgrows, hinside⟩ := h.kept.requestFreePage fb.pageSize false
      have hset := (h.follows ⟨fun _ => hkept, hgrows⟩).set pageNum versions
        ⟨(st.requestFreePage fb.pageSize false).2.epoch,
          (st.requestFreePage fb.pageSize false).1⟩ hinside
      rw [if_pos hlag] at hrun
      -- the old page's front and back are copied, each where it is needed
      split_ifs at hrun
      · obtain ⟨st₁, hfront, hrun⟩ := bind_eq_some_iff.mp hrun
        obtain ⟨st₂, hback, hrun⟩ := bind_eq_some_iff.mp hrun
        cases hrun
        exact ⟨hset.follows (((follows_copyPage hfront).trans (follows_copyPage hback)).trans
          (follows_write ..)), ⟨rfl, rfl, rfl⟩⟩
      · obtain ⟨st₁, hfront, hrun⟩ := bind_eq_some_iff.mp hrun
        cases hrun
        exact ⟨hset.follows ((follows_copyPage hfront).trans (follows_write ..)), ⟨rfl, rfl, rfl⟩⟩
      · obtain ⟨st₁, hfront, hrun⟩ := bind_eq_some_iff.mp hrun
        cases hfront
        obtain ⟨st₂, hback, hrun⟩ := bind_eq_some_iff.mp hrun
        cases hrun
        exact ⟨hset.follows ((follows_copyPage hback).trans (follows_write ..)), ⟨rfl, rfl, rfl⟩⟩
      · cases hrun
        exact ⟨hset.follows (follows_write ..), ⟨rfl, rfl, rfl⟩⟩
    · rw [if_neg hlag] at hrun
      cases hrun
      exact ⟨h, .refl _⟩

omit h in
theorem follows_rewriteHeader {fb : FileBuffer} {st : PageStore}
    (h : FileBuffer.rewriteHeader r pageNum page fb st = some st') : Follows st st' := by
  unfold FileBuffer.rewriteHeader at h
  split_ifs at h
  · simp only [bind_eq_bind, bind_eq_some_iff] at h
    obtain ⟨-, -, first, -, h⟩ := h
    cases h
    exact follows_write ..
  · cases h
    exact .refl _

theorem Paged.writePages {numPages startPageOffset : Nat}
    (hrun : FileBuffer.writePages r numPages pageNum startPageOffset src fb st = some (fb', st')) :
    Paged st₀ (max r.initialNumPages (pageNum + numPages)) fb' st' ∧ SameChunk fb fb' := by
  induction numPages generalizing pageNum startPageOffset src fb st with
  | zero =>
    rw [FileBuffer.writePages] at hrun
    split_ifs at hrun
    cases hrun
    exact ⟨h, .refl _⟩
  | succ numPages ih =>
    simp only [FileBuffer.writePages, bind_eq_bind, bind_eq_some_iff] at hrun
    obtain ⟨⟨page, fb₁, st₁⟩, hpage, st₂, hheader, hrun⟩ := hrun
    obtain ⟨hnext, hsame⟩ := h.pageForWrite hpage
    obtain ⟨hpaged, hsame'⟩ := ih
      (hnext.follows ((follows_write ..).trans (follows_rewriteHeader hheader))) hrun
    have hlen : pageNum + 1 + numPages = pageNum + (numPages + 1) := by omega
    exact ⟨hlen ▸ hpaged, hsame.trans hsame'⟩

end

-- ======== any run

/-- The pages an access touches reach its end. -/
theorem le_pages_mul {pageDataSize : Nat} (hpos : 0 < pageDataSize) (offset numBytes : Nat) :
    offset + numBytes ≤ (offset / pageDataSize +
      (numBytes + offset % pageDataSize + pageDataSize - 1) / pageDataSize) * pageDataSize := by
  have hoffset := div_add_mod' offset pageDataSize
  have hdiv := div_add_mod' (numBytes + offset % pageDataSize + pageDataSize - 1) pageDataSize
  have hlt := mod_lt (numBytes + offset % pageDataSize + pageDataSize - 1) hpos
  rw [add_mul]
  omega

theorem SameChunk.pageDataSize {fb : FileBuffer} (h : SameChunk fb fb') :
    fb'.pageDataSize = fb.pageDataSize := by
  simp only [FileBuffer.pageDataSize, reservedHeaderSize, h.pageSize, h.chunkKey]

/-- A chunk that pages were added to is held if they reach its new end. -/
theorem Held.of_paged {fb fb₁ : FileBuffer} {st : PageStore} (h : fb.Held st)
    (hpaged : Paged st₀ n fb' st') (hsame : SameChunk fb₁ fb') (hpageSize : fb₁.pageSize = fb.pageSize)
    (hchunkKey : fb₁.chunkKey = fb.chunkKey) (hsize : fb₁.size ≤ n * fb.pageDataSize) :
    fb'.Held st' := by
  have hsame' : SameChunk { fb with size := fb₁.size } fb' :=
    ⟨hsame.pageSize.trans hpageSize, hsame.chunkKey.trans hchunkKey, hsame.size⟩
  refine ⟨?_, ?_, hpaged.page, ?_⟩
  · have hheader := h.header
    rw [reservedHeaderSize] at hheader ⊢
    rw [hsame'.chunkKey, hsame'.pageSize]
    exact hheader
  · rw [hsame'.pageSize]
    exact h.pageSize
  · rw [hsame.size, hpaged.length, hsame'.pageDataSize]
    exact hsize

theorem Held.append {fb fb' : FileBuffer} {st st' : PageStore} {src : List UInt8}
    (h : fb.Held st) (hkept : st.Kept) (hrun : fb.append st src = some (fb', st')) :
    fb'.Held st' ∧ st'.Kept ∧ Follows st st' := by
  simp only [FileBuffer.append, bind_eq_bind, bind_eq_some_iff] at hrun
  obtain ⟨-, -, hrun⟩ := hrun
  have hstart : fb.size / fb.pageDataSize ≤ fb.multiPages.length :=
    Nat.div_le_of_le_mul (Nat.mul_comm .. ▸ h.size)
  have hpaged : Paged st (max fb.multiPages.length (fb.size / fb.pageDataSize))
      { fb with isDirty := true, isAppended := true, size := fb.size + src.length } st :=
    ⟨.refl st, hkept, (max_eq_left hstart).symm, h.page⟩
  obtain ⟨hpaged', hsame⟩ := hpaged.appendPages hrun
  have hend := le_pages_mul h.pageDataSize_pos fb.size src.length
  refine ⟨h.of_paged hpaged' hsame rfl rfl ?_, hpaged'.kept, hpaged'.since⟩
  exact hend.trans (Nat.mul_le_mul_right _ (le_max_right fb.multiPages.length _))

theorem Held.write {fb : FileBuffer} {st : PageStore} {offset : Nat} (h : fb.Held st)
    (hkept : st.Kept) (hrun : fb.write st src offset = some (fb', st')) :
    fb'.Held st' ∧ st'.Kept ∧ Follows st st' := by
  simp only [FileBuffer.write, bind_eq_bind, bind_eq_some_iff] at hrun
  obtain ⟨-, -, hrun⟩ := hrun
  generalize hfb : ({ fb with
    isDirty := true
    isUpdated := fb.isUpdated || offset < fb.size
    isAppended := fb.isAppended || (fb.writeRange offset src.length).tempIsAppended
    size := if (fb.writeRange offset src.length).tempIsAppended then offset + src.length
      else fb.size } : FileBuffer) = fb₁ at hrun
  have hpaged : Paged st fb.multiPages.length fb₁ st := by
    subst hfb
    exact ⟨.refl st, hkept, rfl, h.page⟩
  -- the pages of a gap, and then those that are written
  obtain ⟨hgap, hsame⟩ := hpaged.addGapPages
    ((fb.writeRange offset src.length).startPage - fb.multiPages.length)
    fb.multiPages.length
  have hcount : fb.multiPages.length +
      ((fb.writeRange offset src.length).startPage - fb.multiPages.length) =
      max fb.multiPages.length (fb.writeRange offset src.length).startPage := by omega
  rw [hcount] at hgap
  obtain ⟨hpaged', hsame'⟩ := hgap.writePages (r := fb.writeRange offset src.length) hrun
  have hend := (le_pages_mul h.pageDataSize_pos offset src.length).trans
    (mul_le_mul_right _ (le_max_right fb.multiPages.length _))
  have hsize := h.size.trans (mul_le_mul_right fb.pageDataSize (le_max_left _
    ((fb.writeRange offset src.length).startPage
      + (fb.writeRange offset src.length).numPagesToWrite)))
  subst hfb
  refine ⟨h.of_paged hpaged' (hsame.trans hsame') rfl rfl ?_, hpaged'.kept, hpaged'.since⟩
  split_ifs
  · exact hend
  · exact hsize

/-- A chunk, from its making on: it is appended to and written to, and in
between the store goes on with other chunks. -/
inductive Reached : FileBuffer → PageStore → Prop
  | new {st : PageStore} {pageSize : Nat} {chunkKey : ChunkKey} (hkept : st.Kept)
      (hheader : calcHeaderBuffer chunkKey < pageSize) (hpageSize : pageSize < 2 ^ 64) :
      Reached (FileBuffer.new pageSize chunkKey) st
  | append {fb fb' : FileBuffer} {st st' : PageStore} {src : List UInt8} (h : Reached fb st)
      (hrun : fb.append st src = some (fb', st')) : Reached fb' st'
  | write {fb fb' : FileBuffer} {st st' : PageStore} {src : List UInt8} {offset : Nat}
      (h : Reached fb st) (hrun : fb.write st src offset = some (fb', st')) : Reached fb' st'
  | store {fb : FileBuffer} {st st' : PageStore} (h : Reached fb st) (hst : Follows st st') :
      Reached fb st'

/-- What another chunk does on the same files is no more than `store` allows. -/
theorem Reached.append_other {fb other other' : FileBuffer} {st st' : PageStore}
    {src : List UInt8} (h : Reached fb st) (hother : other.Held st) (hkept : st.Kept)
    (hrun : other.append st src = some (other', st')) : Reached fb st' :=
  h.store (hother.append hkept hrun).2.2

theorem Reached.write_other {fb other other' : FileBuffer} {st st' : PageStore}
    {src : List UInt8} {offset : Nat} (h : Reached fb st) (hother : other.Held st) (hkept : st.Kept)
    (hrun : other.write st src offset = some (other', st')) : Reached fb st' :=
  h.store (hother.write hkept hrun).2.2

end FileBuffer

end Compass.Files
