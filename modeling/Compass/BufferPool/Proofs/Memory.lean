/-
A failed allocation leaves the pool as it was.

Memory runs out in `findFreeBuffer` only, before anything but the fields of
the slab search has changed. So a buffer that could not be grown is where
it was, with its bytes and flags, and the handler of `createBuffer` finds
the segment that was inserted for the key, and takes out nothing else.
-/
import Compass.BufferPool.Proofs.Grounded

namespace Compass.BufferPool

open List Except Prod

namespace BufferMgr

variable {cfg : Config} {mgr mgr' : BufferMgr} {canAlloc : Nat → Bool}

-- ======== where memory runs out

theorem findByEviction_outOfMemory {n : Nat}
    (h : mgr.findByEviction n = .error (.outOfMemory mgr')) : mgr' = mgr := by
  unfold findByEviction at h
  split at h
  · cases h
    rfl
  · split at h
    · cases h
    · split at h
      · cases h
        rfl
      · rcases evict_error h with hfault | hfault <;> cases hfault

theorem findFreeBuffer_outOfMemory {n : Nat}
    (h : mgr.findFreeBuffer cfg canAlloc n = .error (.outOfMemory mgr')) :
    ∃ search, mgr' = mgr.withSearch search := by
  unfold findFreeBuffer at h
  split at h
  · cases h
    exact ⟨⟨none, mgr.currentMaxSlabPageSize, mgr.allocationsCapped⟩, rfl⟩
  · split at h
    · cases h
    · simp only at h
      split at h
      · split at h <;> cases h
      · exact ⟨_, findByEviction_outOfMemory h⟩

theorem relocate_error {addr newAddr : Nat} {fault : Fault}
    (h : mgr.relocate addr newAddr = .error fault) : fault = .undefined := by
  unfold relocate at h
  split at h
  · split at h
    · exact (error.inj h).symm
    · split at h
      · exact (error.inj h).symm
      · simp only at h
        split at h
        · rename_i fault' hremove
          rw [← error.inj h]
          exact removeSegment_error hremove
        · cases h
  · exact (error.inj h).symm

theorem reserveBuffer_outOfMemory {addr numBytes : Nat}
    (h : mgr.reserveBuffer cfg canAlloc addr numBytes = .error (.outOfMemory mgr')) :
    ∃ search, mgr' = mgr.withSearch search := by
  unfold reserveBuffer at h
  split at h
  · cases h
  · simp only at h
    split at h
    · cases h
    · split at h
      · cases h
      · split at h
        · rename_i fault hfind
          cases h
          exact findFreeBuffer_outOfMemory hfind
        · split at h
          · rename_i fault hmove
            cases h
            cases relocate_error hmove
          · cases h

theorem reserve_outOfMemory {b numBytes : Nat}
    (h : mgr.reserve cfg canAlloc b numBytes = .error (.outOfMemory mgr')) :
    ∃ search, mgr' = mgr.withSearch search := by
  unfold reserve at h
  split at h
  · cases h
  · simp only at h
    split at h
    · split at h
      · rename_i fault hreserve
        cases h
        exact reserveBuffer_outOfMemory hreserve
      · split at h <;> cases h
    · cases h

-- ======== the handler

/-- No segment of the pool is at an address that has not been given out. -/
theorem map_clear_of_fresh {segs : BufferList} {f : Segment → Segment}
    (h : ∀ seg ∈ segs, seg.addr < mgr.nextAddr) :
    segs.map (fun seg => if seg.addr = mgr.nextAddr then f seg else seg) = segs := by
  refine (map_congr_left fun seg hseg => if_neg ?_).trans (map_id segs)
  have := h seg hseg
  omega

/-- The last segment that is not sized goes, if no buffer is in it. -/
theorem dropBuffer_unsized {segs : BufferList} {seg : Segment}
    (hsegs : mgr.unsizedSegs = segs ++ [seg]) (hother : ∀ s ∈ segs, s.addr ≠ seg.addr)
    (hslab : seg.slabNum = none) (hbuffer : seg.buffer = none) :
    mgr.dropBuffer seg.addr = .ok mgr ∧
      mgr.removeSegment seg.addr = .ok { mgr with unsizedSegs := segs } := by
  have hderef : mgr.deref seg.addr = some seg := by
    have hnone : segs.find? (fun s => s.addr = seg.addr) = none := by
      rw [find?_eq_none]
      exact fun s hs => by simpa using hother s hs
    rw [deref, BufferMgr.segs, hsegs, find?_append, find?_append, hnone]
    simp
  have hfilter : (segs ++ [seg]).filter (fun s => s.addr ≠ seg.addr) = segs := by
    rw [filter_append, filter_eq_self.2 fun s hs => decide_eq_true (hother s hs)]
    simp
  constructor
  · unfold dropBuffer
    rw [hderef]
    simp only [hbuffer]
  · unfold removeSegment
    rw [hderef]
    simp only [hslab]
    rw [hsegs, hfilter]

/-- The handler takes out what was inserted for the key. -/
theorem undoCreate_inserted (hg : Grounded cfg mgr) {key : ChunkKey}
    (hkey : key ∉ mgr.chunkIndex.map fst) (pageSize : Nat) (search : SlabSearch) :
    ∃ mgr', ((mgr.insertUnsized key pageSize).withSearch search).undoCreate key mgr.nextBuffer =
        .ok mgr' ∧
      mgr'.chunkIndex = mgr.chunkIndex ∧ mgr'.unsizedSegs = mgr.unsizedSegs ∧
        mgr'.slabs = mgr.slabs := by
  have hfresh := hg.sound.fresh
  have hunsized : ∀ seg ∈ mgr.unsizedSegs, seg.addr < mgr.nextAddr :=
    fun seg hseg => hfresh seg (mem_append_left _ hseg)
  have hfind : StdMap.find? (StdMap.set mgr.chunkIndex key mgr.nextAddr) key =
      some mgr.nextAddr := by
    rw [StdMap.find?_set hg.keys, if_pos rfl]
  have hslabs : (mgr.slabs.map fun slab => { slab with
      segs := slab.segs.map fun seg => if seg.addr = mgr.nextAddr then clearBuffer seg else seg }) =
      mgr.slabs := by
    refine (map_congr_left fun slab hslab => ?_).trans (map_id mgr.slabs)
    rw [map_clear_of_fresh fun seg hseg => hfresh seg (mem_append_right _
      (mem_flatMap.2 ⟨slab, hslab, hseg⟩))]
    rfl
  have hsegs : ((mgr.unsizedSegs ++ [mgr.unsizedSeg key]).map fun seg =>
      if seg.addr = mgr.nextAddr then clearBuffer seg else seg) =
      mgr.unsizedSegs ++ [clearBuffer (mgr.unsizedSeg key)] := by
    rw [map_append, map_clear_of_fresh hunsized]
    simp [unsizedSeg]
  generalize hcleared : (((mgr.insertUnsized key pageSize).withSearch search).setBuffer
    mgr.nextBuffer none).modifySeg mgr.nextAddr clearBuffer = cleared
  obtain ⟨hdrop, hremove⟩ := @dropBuffer_unsized { cleared with
      chunkIndex := StdMap.erase cleared.chunkIndex key }
    mgr.unsizedSegs (clearBuffer (mgr.unsizedSeg key))
    (by subst hcleared; exact hsegs) (fun s hs => Nat.ne_of_lt (hunsized s hs)) rfl rfl
  refine ⟨{ cleared with
    chunkIndex := StdMap.erase cleared.chunkIndex key
    unsizedSegs := mgr.unsizedSegs }, ?_, ?_, rfl, ?_⟩
  · unfold undoCreate
    rw [show ((mgr.insertUnsized key pageSize).withSearch search).chunkIndex =
      StdMap.set mgr.chunkIndex key mgr.nextAddr from rfl, hfind]
    simp only
    rw [show (fun s : Segment => { s with buffer := none }) = clearBuffer from rfl, hcleared]
    have hindex : StdMap.find? cleared.chunkIndex key = some mgr.nextAddr := by
      subst hcleared
      exact hfind
    have hdrop' : BufferMgr.dropBuffer { cleared with
        chunkIndex := StdMap.erase cleared.chunkIndex key } mgr.nextAddr = .ok _ := hdrop
    unfold deleteBuffer
    rw [hindex]
    simp only
    rw [hdrop']
    exact hremove
  · subst hcleared
    exact StdMap.erase_set hkey mgr.nextAddr
  · subst hcleared
    exact hslabs

/-- What `createBuffer` leaves if it runs out of memory, and that it does
so whenever the buffer cannot be sized. -/
theorem createBuffer_restores (hg : Grounded cfg mgr) {key : ChunkKey}
    {chunkPageSize initialSize : Nat} :
    (∀ mgr', mgr.createBuffer cfg canAlloc key chunkPageSize initialSize =
        .error (.outOfMemory mgr') →
      mgr'.chunkIndex = mgr.chunkIndex ∧ mgr'.unsizedSegs = mgr.unsizedSegs ∧
        mgr'.slabs = mgr.slabs) ∧
    ∀ mgr₁, key ∉ mgr.chunkIndex.map fst → initialSize ≠ 0 →
      (mgr.insertUnsized key (if chunkPageSize = 0 then cfg.pageSize else chunkPageSize)).reserve
        cfg canAlloc mgr.nextBuffer initialSize = .error (.outOfMemory mgr₁) →
      ∃ mgr', mgr.createBuffer cfg canAlloc key chunkPageSize initialSize =
        .error (.outOfMemory mgr') := by
  have hthrows : ∀ mgr₁, key ∉ mgr.chunkIndex.map fst →
      (mgr.insertUnsized key (if chunkPageSize = 0 then cfg.pageSize else chunkPageSize)).reserve
        cfg canAlloc mgr.nextBuffer initialSize = .error (.outOfMemory mgr₁) →
      ∃ mgr', mgr₁.undoCreate key mgr.nextBuffer = .ok mgr' ∧
        mgr'.chunkIndex = mgr.chunkIndex ∧ mgr'.unsizedSegs = mgr.unsizedSegs ∧
        mgr'.slabs = mgr.slabs := by
    intro mgr₁ hkey hreserve
    obtain ⟨search, rfl⟩ := reserve_outOfMemory hreserve
    exact undoCreate_inserted hg hkey _ search
  constructor
  · intro mgr' h
    unfold createBuffer at h
    simp only at h
    split at h
    · cases h
    · rename_i hnone
      split at h
      · cases h
      · split at h
        · rename_i mgr₁ hreserve
          obtain ⟨mgr₂, hundo, hrest⟩ := hthrows mgr₁ (StdMap.find?_eq_none hnone) hreserve
          rw [hundo] at h
          cases h
          exact hrest
        · rename_i fault hnot hreserve
          cases h
          exact absurd rfl (hnot mgr')
        · split at h <;> cases h
  · intro mgr₁ hkey hsize hreserve
    obtain ⟨mgr₂, hundo, -⟩ := hthrows mgr₁ hkey hreserve
    have hnone : StdMap.find? mgr.chunkIndex key = none := by
      cases hfind : StdMap.find? mgr.chunkIndex key with
      | none => rfl
      | some addr =>
        exact absurd (mem_map_of_mem (StdMap.find?_eq_some hfind)) hkey
    refine ⟨mgr₂, ?_⟩
    unfold createBuffer
    simp only [hnone, if_neg hsize]
    rw [hreserve]
    simp only [hundo]

end BufferMgr

-- ======== the buffers

namespace Pool

variable {cfg : Config} {pool pool' : Pool} {canAlloc : Nat → Bool}

theorem raise_outOfMemory {fault : Fault} (h : pool.raise fault = .outOfMemory pool') :
    ∃ mgr, fault = .outOfMemory mgr ∧ pool' = { pool with mgr := mgr } := by
  cases fault with
  | outOfMemory mgr =>
    cases h
    exact ⟨mgr, rfl, rfl⟩
  | check | evictsPinned | undefined => cases h

theorem relocate_error {addr newAddr : Nat} {fault : PoolFault}
    (h : pool.relocate cfg addr newAddr = .error fault) : fault = .undefined := by
  unfold relocate at h
  split at h
  · rename_i hmove
    rw [BufferMgr.relocate_error hmove] at h
    exact (error.inj h).symm
  · split at h
    · split at h
      · split at h
        · cases h
        · exact (error.inj h).symm
      · cases h
    · exact (error.inj h).symm

theorem reserveBuffer_outOfMemory {addr numBytes : Nat}
    (h : pool.reserveBuffer cfg canAlloc addr numBytes = .error (.outOfMemory pool')) :
    ∃ search, pool' = { pool with mgr := pool.mgr.withSearch search } := by
  unfold reserveBuffer at h
  split at h
  · cases h
  · simp only at h
    split at h
    · cases h
    · split at h
      · cases h
      · split at h
        · rename_i fault hfind
          obtain ⟨mgr, rfl, rfl⟩ := raise_outOfMemory (error.inj h)
          obtain ⟨search, rfl⟩ := BufferMgr.findFreeBuffer_outOfMemory hfind
          exact ⟨search, rfl⟩
        · split at h
          · rename_i fault hmove
            cases h
            cases relocate_error hmove
          · cases h

theorem reserve_outOfMemory {b numBytes : Nat}
    (h : pool.reserve cfg canAlloc b numBytes = .error (.outOfMemory pool')) :
    ∃ search, pool' = { pool with mgr := pool.mgr.withSearch search } := by
  unfold reserve at h
  split at h
  · cases h
  · simp only at h
    split at h
    · split at h
      · rename_i fault hreserve
        cases h
        exact reserveBuffer_outOfMemory hreserve
      · split at h <;> cases h
    · cases h

end Pool

-- ======== out of memory

variable {cfg : Config} {mgr : BufferMgr}

/-- If a new buffer cannot be sized, `createBuffer` throws, and if it throws,
the index, the segments that are not sized and the slabs are as before; if
a buffer that is there cannot be grown, it is as before. -/
theorem outOfMemory_unchanged (h : BufferMgr.Reached cfg BufferMgr.Anything mgr)
    (canAlloc : Nat → Bool) :
    (∀ key chunkPageSize initialSize mgr',
      mgr.createBuffer cfg canAlloc key chunkPageSize initialSize = .error (.outOfMemory mgr') →
      mgr'.chunkIndex = mgr.chunkIndex ∧ mgr'.unsizedSegs = mgr.unsizedSegs ∧
        mgr'.slabs = mgr.slabs) ∧
    (∀ key chunkPageSize initialSize mgr₁, key ∉ mgr.chunkIndex.map Prod.fst → initialSize ≠ 0 →
      (mgr.insertUnsized key (if chunkPageSize = 0 then cfg.pageSize else chunkPageSize)).reserve
        cfg canAlloc mgr.nextBuffer initialSize = .error (.outOfMemory mgr₁) →
      ∃ mgr', mgr.createBuffer cfg canAlloc key chunkPageSize initialSize =
        .error (.outOfMemory mgr')) ∧
    ∀ pool : Pool, pool.mgr = mgr → ∀ b numBytes pool',
      pool.reserve cfg canAlloc b numBytes = .error (.outOfMemory pool') →
      BufferUnchanged cfg pool pool' b := by
  have hg := BufferMgr.reached_grounded h
  refine ⟨fun key chunkPageSize initialSize => (BufferMgr.createBuffer_restores hg).1,
    fun key chunkPageSize initialSize => (BufferMgr.createBuffer_restores hg).2, ?_⟩
  intro pool _ b numBytes pool' hthrows
  obtain ⟨search, rfl⟩ := Pool.reserve_outOfMemory hthrows
  exact ⟨rfl, fun _ _ => rfl, rfl, rfl⟩

/-- A pool whose buffers are empty. -/
def emptyPool (mgr : BufferMgr) : Pool := ⟨mgr, fun _ => ⟨0, false, false, false, []⟩, fun _ _ => 0⟩

/-- The manager with which `OutOfMemory` is thrown. -/
def thrownMgr : Except Fault BufferMgr → Option BufferMgr
  | .error (.outOfMemory mgr) => some mgr
  | _ => none

/-- The pool with which `OutOfMemory` is thrown. -/
def thrownPool : Except PoolFault Pool → Option Pool
  | .error (.outOfMemory pool) => some pool
  | _ => none

theorem eq_of_thrownMgr {x : Except Fault BufferMgr} (h : (thrownMgr x).isSome = true) :
    ∃ mgr, x = .error (.outOfMemory mgr) := by
  unfold thrownMgr at h
  split at h
  · exact ⟨_, rfl⟩
  · cases h

theorem eq_of_thrownPool {x : Except PoolFault Pool} (h : (thrownPool x).isSome = true) :
    ∃ pool, x = .error (.outOfMemory pool) := by
  unfold thrownPool at h
  split at h
  · exact ⟨_, rfl⟩
  · cases h

open BufferMgr in
/-- A buffer of four pages, of eight, cannot get nine, and there cannot be
another one of five. -/
theorem outOfMemory_unchanged_eightPages :
    (∃ mgr', halfTaken.createBuffer eightPages (fun _ => true) [2] 512 2560 =
        .error (.outOfMemory mgr')
      ∧ mgr'.chunkIndex = halfTaken.chunkIndex ∧ mgr'.slabs = halfTaken.slabs)
    ∧ ∃ pool', (emptyPool halfTaken).reserve eightPages (fun _ => true) 0 4608 =
        .error (.outOfMemory pool')
      ∧ BufferUnchanged eightPages (emptyPool halfTaken) pool' 0 := by
  obtain ⟨hrestores, -, hreserve⟩ := outOfMemory_unchanged reached_halfTaken fun _ => true
  obtain ⟨mgr', hcreate⟩ := eq_of_thrownMgr (x := halfTaken.createBuffer eightPages
    (fun _ => true) [2] 512 2560) (by decide +kernel)
  obtain ⟨pool', hrun⟩ := eq_of_thrownPool
    (x := (emptyPool halfTaken).reserve eightPages (fun _ => true) 0 4608) (by decide +kernel)
  obtain ⟨hindex, -, hslabs⟩ := hrestores [2] 512 2560 mgr' hcreate
  exact ⟨⟨mgr', hcreate, hindex, hslabs⟩, pool', hrun, hreserve _ rfl 0 4608 pool' hrun⟩

end Compass.BufferPool
