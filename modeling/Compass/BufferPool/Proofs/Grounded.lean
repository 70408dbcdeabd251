/-
What holds of the buffer pool in every run, whatever its client asks of it.

`Inv` needs keys that are not empty and a first slab. Without them a run
still keeps what does not depend on who owns a segment: the segments tile
their slabs and have different addresses, the pages of the slabs are
counted, no slab is larger than one may be, and a segment was touched at
some epoch. This is `Grounded`.
-/
import Compass.BufferPool.Proofs.Runs

namespace Compass.BufferPool

open List Except Nat Bool

-- ======== the stamps

/-- The segments were touched at epochs that an `unsigned int` can hold. -/
def Stamped (segs : BufferList) : Prop := ∀ seg ∈ segs, seg.lastTouched < 2 ^ 32

theorem stamped_cons {seg : Segment} {segs : BufferList} :
    Stamped (seg :: segs) ↔ seg.lastTouched < 2 ^ 32 ∧ Stamped segs := by
  simp [Stamped]

theorem stamped_append {segs segs' : BufferList} :
    Stamped (segs ++ segs') ↔ Stamped segs ∧ Stamped segs' := by
  simp only [Stamped, mem_append, or_imp, forall_and]

theorem Stamped.sublist {segs segs' : BufferList} (h : Stamped segs)
    (hsub : segs'.Sublist segs) : Stamped segs' :=
  fun seg hseg => h seg (hsub.subset hseg)

theorem stamped_ofFree (addr : Nat) (startPage : Int) (numPages : Nat) :
    (Segment.ofFree addr startPage numPages).lastTouched < 2 ^ 32 :=
  Nat.two_pow_pos 32

namespace BufferList

variable {segs segs' : BufferList} {addr : Nat}

theorem findFreeBufferInSlab_stamped {slabNum n epoch newAddr : Nat} (hepoch : epoch < 2 ^ 32)
    (hsegs : Stamped segs)
    (h : findFreeBufferInSlab slabNum n epoch newAddr segs = some (addr, segs')) :
    Stamped segs' := by
  induction segs generalizing segs' with
  | nil => cases h
  | cons seg rest ih =>
    obtain ⟨hseg, hrest⟩ := stamped_cons.1 hsegs
    unfold findFreeBufferInSlab at h
    split at h
    · simp only at h
      split at h
      · cases h
        exact stamped_cons.2 ⟨hepoch, stamped_cons.2 ⟨stamped_ofFree .., hrest⟩⟩
      · cases h
        exact stamped_cons.2 ⟨hepoch, hrest⟩
    · obtain ⟨⟨a, rest'⟩, hfind, heq⟩ := Option.map_eq_some_iff.1 h
      cases heq
      exact stamped_cons.2 ⟨hseg, ih hrest hfind⟩

theorem growInPlace_stamped {n : Nat} (hsegs : Stamped segs)
    (h : growInPlace addr n segs = some segs') : Stamped segs' := by
  unfold growInPlace at h
  split at h
  · rename_i before seg next after hsplit
    obtain ⟨rfl, -⟩ := split_eq_some hsplit
    rw [stamped_append, stamped_cons, stamped_cons] at hsegs
    obtain ⟨hbefore, hseg, hnext, hafter⟩ := hsegs
    split at h
    · cases h
      exact stamped_append.2 ⟨hbefore, stamped_cons.2 ⟨hseg, stamped_cons.2 ⟨hnext, hafter⟩⟩⟩
    · cases h
  · cases h

theorem removeSegment_stamped (hsegs : Stamped segs) (h : removeSegment addr segs = some segs') :
    Stamped segs' := by
  obtain ⟨⟨before, seg, after⟩, hsplit, heq⟩ := Option.map_eq_some_iff.1 h
  obtain ⟨rfl, -⟩ := split_eq_some hsplit
  rw [stamped_append, stamped_cons] at hsegs
  obtain ⟨hbefore, hseg, hafter⟩ := hsegs
  -- the segments around it only lose elements, and it keeps its stamp
  have hprev : Stamped (mergePrev before seg).1 ∧
      (mergePrev before seg).2.lastTouched = seg.lastTouched := by
    unfold mergePrev
    split
    · split
      · exact ⟨hbefore.sublist (dropLast_sublist _), rfl⟩
      · exact ⟨hbefore, rfl⟩
    · exact ⟨hbefore, rfl⟩
  have hnext : ∀ s : Segment, (mergeNext s after).1.lastTouched = s.lastTouched ∧
      Stamped (mergeNext s after).2 := by
    intro s
    cases after with
    | nil => exact ⟨rfl, hafter⟩
    | cons next after =>
      simp only [mergeNext]
      split
      · exact ⟨rfl, (stamped_cons.1 hafter).2⟩
      · exact ⟨rfl, hafter⟩
  obtain ⟨hstamp, hafter'⟩ := hnext (mergePrev before seg).2
  subst heq
  refine stamped_append.2 ⟨hprev.1, stamped_cons.2 ⟨?_, hafter'⟩⟩
  exact (hstamp.trans hprev.2).trans_lt hseg

theorem evictTail_stamped {startPage : Int} {n numPages slabNum epoch newAddr : Nat}
    {rest : BufferList} (hepoch : epoch < 2 ^ 32) (hrest : Stamped rest) :
    Stamped (evictTail startPage n numPages slabNum epoch newAddr rest) := by
  unfold evictTail
  split
  · split
    · rename_i next after
      obtain ⟨hnext, hafter⟩ := stamped_cons.1 hrest
      split
      · exact stamped_cons.2 ⟨hepoch, stamped_cons.2 ⟨hnext, hafter⟩⟩
      · exact stamped_cons.2 ⟨hepoch, stamped_cons.2 ⟨stamped_ofFree .., hrest⟩⟩
    · exact stamped_cons.2 ⟨hepoch, stamped_cons.2 ⟨stamped_ofFree .., hrest⟩⟩
  · exact stamped_cons.2 ⟨hepoch, hrest⟩

end BufferList

namespace BufferMgr

variable {cfg : Config} {mgr mgr' : BufferMgr}

-- ======== the invariant

/-- The number of pages in all slabs. -/
def totalPages (slabs : List Slab) : Nat := (slabs.map Slab.numPages).sum

/-- What holds whoever owns the segments. As long as more slabs may be
asked for, and a slab of an eighth of the largest size has a page, there
is a page to ask for. -/
structure Grounded (cfg : Config) (mgr : BufferMgr) : Prop where
  sound : Sound mgr.slabs mgr.unsizedSegs mgr.nextAddr
  stamped : Stamped mgr.segs
  epoch : mgr.bufferEpoch < 2 ^ 32
  keys : (mgr.chunkIndex.map Prod.fst).Nodup
  counted : mgr.numPagesAllocated = totalPages mgr.slabs
  small : ∀ slab ∈ mgr.slabs, slab.numPages ≤ cfg.maxNumPagesPerSlab
  currentMax : mgr.currentMaxSlabPageSize ≤ cfg.maxNumPagesPerSlab
  filled : 0 < cfg.maxNumPagesPerSlab / 8 → ∀ slab ∈ mgr.slabs, 0 < slab.numPages
  wide : 0 < cfg.maxNumPagesPerSlab / 8 → mgr.allocationsCapped = false →
    0 < mgr.currentMaxSlabPageSize
  capped : mgr.allocationsCapped = true → 0 < cfg.maxNumPagesPerSlab / 8

theorem grounded_init (cfg : Config) : Grounded cfg (init cfg) where
  sound := (inv_init cfg).sound
  stamped := fun seg hseg => by cases hseg
  epoch := Nat.two_pow_pos 32
  keys := nodup_nil
  counted := rfl
  small := fun slab hslab => by cases hslab
  currentMax := Nat.le_refl cfg.maxNumPagesPerSlab
  filled := fun _ slab hslab => by cases hslab
  wide := fun h _ => by
    change 0 < cfg.maxNumPagesPerSlab
    omega
  capped := fun h => by cases h

/-- The slabs have the same sizes as before. -/
def SameSlabs (mgr mgr' : BufferMgr) : Prop :=
  mgr'.slabs.map Slab.numPages = mgr.slabs.map Slab.numPages

/-- An operation that adds no slab. -/
structure Reshaped (mgr mgr' : BufferMgr) : Prop where
  sizes : SameSlabs mgr mgr'
  numPagesAllocated : mgr'.numPagesAllocated = mgr.numPagesAllocated
  currentMax : mgr'.currentMaxSlabPageSize = mgr.currentMaxSlabPageSize
  capped : mgr'.allocationsCapped = mgr.allocationsCapped
  epoch : mgr'.bufferEpoch = mgr.bufferEpoch ∨ mgr'.bufferEpoch = mgr.nextEpoch

variable {slab : Slab} {n addr slabNum : Nat}

theorem Reshaped.sizes_of (h : Reshaped mgr mgr') (hslab : slab ∈ mgr'.slabs) :
    ∃ slab₀ ∈ mgr.slabs, slab₀.numPages = slab.numPages :=
  mem_map.1 (h.sizes ▸ mem_map_of_mem hslab)

section

variable (hg : Grounded cfg mgr)
include hg

theorem Grounded.reshape (h : Reshaped mgr mgr')
    (hsound : Sound mgr'.slabs mgr'.unsizedSegs mgr'.nextAddr)
    (hstamped : Stamped mgr'.segs) (hkeys : (mgr'.chunkIndex.map Prod.fst).Nodup) :
    Grounded cfg mgr' where
  sound := hsound
  stamped := hstamped
  epoch := by
    rcases h.epoch with heq | heq
    · exact heq ▸ hg.epoch
    · exact heq ▸ Nat.mod_lt _ (Nat.two_pow_pos 32)
  keys := hkeys
  counted := by
    rw [h.numPagesAllocated, hg.counted, totalPages, totalPages, h.sizes]
  small := fun slab hslab => by
    obtain ⟨slab₀, hslab₀, heq⟩ := h.sizes_of hslab
    exact heq ▸ hg.small slab₀ hslab₀
  currentMax := h.currentMax ▸ hg.currentMax
  filled := fun hpos slab hslab => by
    obtain ⟨slab₀, hslab₀, heq⟩ := h.sizes_of hslab
    exact heq ▸ hg.filled hpos slab₀ hslab₀
  wide := fun hpos hcap => h.currentMax ▸ hg.wide hpos (h.capped ▸ hcap)
  capped := fun hcap => hg.capped (h.capped ▸ hcap)

theorem Grounded.withSearch {search : SlabSearch}
    (hmax : search.currentMaxSlabPageSize ≤ cfg.maxNumPagesPerSlab)
    (hwide : 0 < cfg.maxNumPagesPerSlab / 8 → search.allocationsCapped = false →
      0 < search.currentMaxSlabPageSize)
    (hcapped : search.allocationsCapped = true → 0 < cfg.maxNumPagesPerSlab / 8) :
    Grounded cfg (mgr.withSearch search) where
  sound := hg.sound
  stamped := hg.stamped
  epoch := hg.epoch
  keys := hg.keys
  counted := hg.counted
  small := hg.small
  currentMax := hmax
  filled := hg.filled
  wide := hwide
  capped := hcapped

theorem Grounded.setBuffer (b : Nat) (buf : Option Buffer) : Grounded cfg (mgr.setBuffer b buf) :=
  hg.reshape ⟨rfl, rfl, rfl, rfl, .inl rfl⟩ hg.sound hg.stamped hg.keys

theorem Grounded.setIndex {index : List (ChunkKey × Nat)} (hkeys : (index.map Prod.fst).Nodup) :
    Grounded cfg { mgr with chunkIndex := index } :=
  hg.reshape ⟨rfl, rfl, rfl, rfl, .inl rfl⟩ hg.sound hg.stamped hkeys

-- ======== one segment

theorem Grounded.modifySeg {f : Segment → Segment}
    (hf : KeepsPlace f) (hstamp : ∀ s, (f s).lastTouched = s.lastTouched) (addr : Nat) :
    Grounded cfg (mgr.modifySeg addr f) := by
  refine hg.reshape ⟨?_, rfl, rfl, rfl, .inl rfl⟩ (sound_modifySeg hg.sound hf addr) ?_ hg.keys
  · unfold SameSlabs BufferMgr.modifySeg
    rw [map_map]
    rfl
  · rw [segs_modifySeg]
    intro seg hseg
    obtain ⟨s, hs, rfl⟩ := mem_map.1 hseg
    have hold := hg.stamped s hs
    split
    · rwa [hstamp]
    · exact hold

omit hg in
theorem sameSlabs_setSegs (hslab : mgr.slabs[n]? = some slab) (segs : BufferList) :
    SameSlabs mgr (mgr.setSegs n slab segs) := by
  obtain ⟨hn, rfl⟩ := List.getElem?_eq_some_iff.1 hslab
  unfold SameSlabs setSegs
  rw [map_set]
  exact (congrArg _ (getElem_map Slab.numPages).symm).trans
    (set_getElem_self ((length_map _).symm ▸ hn))

omit hg in
theorem segs_of_slab (hslab : mgr.slabs[n]? = some slab) :
    ∀ seg ∈ slab.segs, seg ∈ mgr.segs := fun _ hseg =>
  mem_append_right _ (mem_flatMap.2 ⟨slab, mem_of_getElem? hslab, hseg⟩)

omit hg in
theorem stamped_setSegs (h : Stamped mgr.segs) {segs : BufferList} (hsegs : Stamped segs) :
    Stamped (mgr.setSegs n slab segs).segs := by
  intro seg hseg
  rcases mem_append.1 hseg with hunsized | hsized
  · exact h seg (mem_append_left _ hunsized)
  · obtain ⟨slab', hslab', hseg⟩ := mem_flatMap.1 hsized
    rcases mem_or_eq_of_mem_set hslab' with hold | rfl
    · exact h seg (mem_append_right _ (mem_flatMap.2 ⟨slab', hold, hseg⟩))
    · exact hsegs seg hseg

/-- A slab whose segments are reworked. -/
theorem Grounded.setSegs {segs : BufferList}
    (hslab : mgr.slabs[n]? = some slab) (hw : Reworked n mgr.nextAddr mgr.nextAddr slab.segs segs)
    (hstamped : Stamped segs) :
    Grounded cfg (mgr.setSegs n slab segs) :=
  hg.reshape ⟨sameSlabs_setSegs hslab segs, rfl, rfl, rfl, .inl rfl⟩
    (sound_rework hg.sound hslab (Nat.le_refl _) hw) (stamped_setSegs hg.stamped hstamped) hg.keys

theorem Grounded.stamped_slab (hslab : mgr.slabs[n]? = some slab) : Stamped slab.segs :=
  fun seg hseg => hg.stamped seg (segs_of_slab hslab seg hseg)

theorem Grounded.removeSegment (h : mgr.removeSegment addr = .ok mgr') : Grounded cfg mgr' := by
  unfold BufferMgr.removeSegment at h
  split at h
  · cases h
  · rename_i seg hderef
    split at h
    · -- the segment is not sized, and leaves the list of those
      cases h
      have hsub : (mgr.unsizedSegs.filter (fun s => s.addr ≠ addr)
          ++ mgr.slabs.flatMap Slab.segs).Sublist mgr.segs :=
        filter_sublist.append_right _
      refine hg.reshape ⟨rfl, rfl, rfl, rfl, .inl rfl⟩ ?_ (hg.stamped.sublist hsub) hg.keys
      exact ⟨hg.sound.tiled, hg.sound.addrs.sublist (hsub.map _),
        fun s hs => hg.sound.fresh s (hsub.subset hs), hg.sound.slabNums,
        fun s hs => hg.sound.unsized s (mem_of_mem_filter hs)⟩
    · rename_i n hn
      split at h
      · cases h
      · rename_i slab hslab
        split at h
        · cases h
        · rename_i segs hremove
          cases h
          obtain ⟨before, pre, s, post, after, freed, hold, -, -, -, rfl, hw⟩ :=
            BufferList.removeSegment_spec hremove
          refine hg.setSegs hslab (hold ▸ hw.within before after) ?_
          exact BufferList.removeSegment_stamped (hg.stamped_slab hslab) hremove

theorem Grounded.growInPlace {seg : Segment} (hseg : seg ∈ mgr.segs)
    (hge : seg.numPages ≤ n) (h : mgr.growInPlace seg n = some mgr') : Grounded cfg mgr' := by
  unfold BufferMgr.growInPlace at h
  split at h
  · cases h
  · rename_i slabNum hn
    split at h
    · cases h
    · rename_i slab hslab
      obtain ⟨segs, hgrow, rfl⟩ := Option.map_eq_some_iff.1 h
      have hpages : ∀ s ∈ slab.segs, s.addr = seg.addr → s.numPages ≤ n := by
        intro s hs haddr
        rwa [seg_unique hg.sound.addrs (segs_of_slab hslab s hs) hseg haddr]
      obtain ⟨before, s, next, next', after, hold, -, -, -, rfl, hw⟩ :=
        BufferList.growInPlace_spec hgrow hpages
      refine hg.setSegs hslab (hold ▸ hw.within before after) ?_
      exact BufferList.growInPlace_stamped (hg.stamped_slab hslab) hgrow

-- ======== findFreeBuffer

omit hg in
/-- The segment of a slab that has been reworked. -/
theorem hands_of_mem (hs : Sound mgr.slabs mgr.unsizedSegs mgr.nextAddr) {seg : Segment}
    (hslab : mgr.slabs[slabNum]? = some slab) (hseg : seg ∈ slab.segs)
    (hused : seg.memStatus = .used) :
    mgr.Hands seg.numPages seg.addr :=
  ⟨seg, slabNum, slab, (deref_eq_some hs.addrs).2 ⟨segs_of_slab hslab seg hseg, rfl⟩, hused,
    rfl, hs.slabNums slabNum slab hslab seg hseg hused, hslab, hseg⟩

omit hg in
theorem getElem?_setSegs (hslab : mgr.slabs[slabNum]? = some slab) (segs : BufferList) :
    (mgr.setSegs slabNum slab segs).slabs[slabNum]? = some { slab with segs := segs } := by
  obtain ⟨hn, -⟩ := List.getElem?_eq_some_iff.1 hslab
  exact getElem?_set_self hn

omit hg in
theorem takeFree_eq {first : Nat} (h : mgr.takeFree first n = some (addr, mgr')) :
    ∃ slabNum slab segs, mgr.slabs[slabNum]? = some slab ∧
      slab.segs.findFreeBufferInSlab slabNum n mgr.bufferEpoch mgr.nextAddr =
        some (addr, segs) ∧
      mgr' = { mgr.setSegs slabNum slab segs with
        bufferEpoch := mgr.nextEpoch
        nextAddr := mgr.nextAddr + 1 } := by
  obtain ⟨⟨a, rest⟩, hfind, heq⟩ := Option.map_eq_some_iff.1 h
  cases heq
  obtain ⟨i, slab, segs, hi, hfree, rfl⟩ := findInSlabs_spec hfind
  refine ⟨first + i, slab, segs, ?_, hfree, ?_⟩
  · rw [← hi, getElem?_drop]
  · simp only [take_append_set_drop hi, setSegs]

theorem Grounded.takeFree {first : Nat} (h : mgr.takeFree first n = some (addr, mgr')) :
    Grounded cfg mgr' ∧ mgr'.Hands n addr := by
  obtain ⟨slabNum, slab, segs, hslab, hfind, hmgr'⟩ := takeFree_eq h
  obtain ⟨before, seg, after, spare, hsegs, -, hseg, hsegs', -, hw⟩ :=
    BufferList.findFreeBufferInSlab_spec hfind
  have hsound := sound_rework hg.sound hslab (le_succ _)
    (hsegs' ▸ hsegs ▸ hw.within before after)
  have hstamped := BufferList.findFreeBufferInSlab_stamped hg.epoch (hg.stamped_slab hslab) hfind
  have hmem : BufferList.taken seg slabNum n mgr.bufferEpoch ∈ segs := by
    rw [hsegs']
    simp
  have hg' : Grounded cfg mgr' := hmgr' ▸ hg.reshape
    ⟨sameSlabs_setSegs hslab segs, rfl, rfl, rfl, .inr rfl⟩ hsound
    (stamped_setSegs hg.stamped hstamped) hg.keys
  have hslab' : mgr'.slabs[slabNum]? = some { slab with segs := segs } :=
    hmgr' ▸ getElem?_setSegs hslab segs
  exact ⟨hg', hseg ▸ hands_of_mem hg'.sound hslab' hmem rfl⟩

theorem Grounded.addSlab {numPages : Nat} (hsmall : numPages ≤ cfg.maxNumPagesPerSlab)
    (hfilled : 0 < cfg.maxNumPagesPerSlab / 8 → 0 < numPages) :
    Grounded cfg (mgr.addSlab numPages) where
  sound := sound_addSlab hg.sound numPages
  stamped := by
    rw [segs_addSlab, stamped_append]
    exact ⟨hg.stamped, stamped_cons.2 ⟨stamped_ofFree .., fun _ h => by cases h⟩⟩
  epoch := hg.epoch
  keys := hg.keys
  counted := by
    change mgr.numPagesAllocated + numPages = totalPages (mgr.slabs ++ [_])
    rw [hg.counted, totalPages, totalPages, map_append, sum_append_nat]
    rfl
  small := fun slab hslab => by
    rcases mem_append.1 hslab with hold | hself
    · exact hg.small slab hold
    · obtain rfl := mem_singleton.1 hself
      exact hsmall
  currentMax := hg.currentMax
  filled := fun hpos slab hslab => by
    rcases mem_append.1 hslab with hold | hself
    · exact hg.filled hpos slab hold
    · obtain rfl := mem_singleton.1 hself
      exact hfilled hpos
  wide := hg.wide
  capped := hg.capped

omit hg in
/-- What is left of the fields that the loop changes, and how large a slab
it adds. -/
theorem addSlabLoop_bounds {canAlloc : Nat → Bool} {n allocated currentMax : Nat} {capped : Bool}
    (hwide : 0 < cfg.maxNumPagesPerSlab / 8 → capped = false → 0 < currentMax)
    (hcapped : capped = true → 0 < cfg.maxNumPagesPerSlab / 8) :
    let search := addSlabLoop cfg canAlloc n allocated currentMax capped
    search.currentMaxSlabPageSize ≤ currentMax ∧
      (0 < cfg.maxNumPagesPerSlab / 8 → search.allocationsCapped = false →
        0 < search.currentMaxSlabPageSize) ∧
      (search.allocationsCapped = true → 0 < cfg.maxNumPagesPerSlab / 8) ∧
      ∀ k, search.added = some k →
        k ≤ currentMax ∧ (0 < cfg.maxNumPagesPerSlab / 8 → 0 < k) := by
  fun_induction addSlabLoop cfg canAlloc n allocated currentMax capped with
  | case1 currentMax capped hgo limit hfit halloc =>
    rw [and_eq_true, decide_eq_true_eq, not_eq_true'] at hgo
    have hpos : 0 < cfg.maxNumPagesPerSlab / 8 → 0 < limit := fun h => by
      have := hwide h hgo.1
      omega
    refine ⟨Nat.min_le_right _ _, fun h _ => hpos h, hcapped, ?_⟩
    intro k hk
    cases hk
    exact ⟨Nat.min_le_right _ _, hpos⟩
  | case2 currentMax capped hgo limit hfit halloc hhalf ih =>
    obtain ⟨hle, hrest⟩ := ih (by omega) hcapped
    refine ⟨by omega, hrest.1, hrest.2.1, ?_⟩
    intro k hk
    obtain ⟨hk, hpos⟩ := hrest.2.2 k hk
    exact ⟨by omega, hpos⟩
  | case3 currentMax capped hgo limit hfit halloc hhalf ih =>
    obtain ⟨hle, hrest⟩ := ih (by simp only [decide_eq_false_iff_not]; omega)
      (by simp only [decide_eq_true_eq]; omega)
    refine ⟨by omega, hrest.1, hrest.2.1, ?_⟩
    intro k hk
    obtain ⟨hk, hpos⟩ := hrest.2.2 k hk
    exact ⟨by omega, hpos⟩
  | case4 currentMax capped hgo limit hfit =>
    rw [and_eq_true, decide_eq_true_eq, not_eq_true'] at hgo
    refine ⟨Nat.min_le_right _ _, fun h _ => ?_, hcapped, fun k hk => by cases hk⟩
    have := hwide h hgo.1
    simp only
    omega
  | case5 currentMax capped hstop =>
    exact ⟨Nat.le_refl currentMax, hwide, hcapped, fun k hk => by cases hk⟩

omit hg in
theorem evict_eq {newAddr : Nat} (h : mgr.evict addr n slabNum = .ok (newAddr, mgr')) :
    ∃ slab before seg after erased numPages rest, mgr.slabs[slabNum]? = some slab ∧
      slab.segs = before ++ seg :: after ∧
      BufferList.evictLoop mgr.isPinned n 0 (seg :: after) = .enough erased numPages rest ∧
      newAddr = mgr.nextAddr ∧
      mgr' = { mgr.setSegs slabNum slab (before ++ BufferList.evictTail seg.startPage n numPages
          slabNum mgr.bufferEpoch mgr.nextAddr rest) with
        chunkIndex := eraseKeys erased mgr.chunkIndex
        bufferEpoch := mgr.nextEpoch
        nextAddr := mgr.nextAddr + 2 } := by
  unfold evict at h
  split at h
  · cases h
  · rename_i slab hslab
    split at h
    · cases h
    · rename_i before seg after hsplit
      split at h
      · cases h
      · cases h
      · rename_i erased numPages rest hloop
        cases h
        exact ⟨slab, before, seg, after, erased, numPages, rest, hslab,
          (BufferList.split_eq_some hsplit).1, hloop, rfl, rfl⟩

theorem Grounded.evict {newAddr : Nat} (h : mgr.evict addr n slabNum = .ok (newAddr, mgr')) :
    Grounded cfg mgr' ∧ mgr'.Hands n newAddr := by
  obtain ⟨slab, before, seg, after, erased, numPages, rest, hslab, hsegs, hloop, rfl, hmgr'⟩ :=
    evict_eq h
  obtain ⟨hcut, -, htotal, hle⟩ := BufferList.evictLoop_enough hloop
  rw [zero_add] at htotal
  have hw := (@BufferList.evictTail_reworked n numPages slabNum mgr.bufferEpoch mgr.nextAddr seg
    after erased rest hcut htotal hle).within before []
  rw [append_nil, append_nil, ← hsegs] at hw
  have hsound := sound_rework hg.sound hslab (le_add_right _ 2) hw
  have hold := hg.stamped_slab hslab
  rw [hsegs, stamped_append, hcut, stamped_append] at hold
  have htail := @BufferList.evictTail_stamped seg.startPage n numPages slabNum mgr.bufferEpoch
    mgr.nextAddr rest hg.epoch hold.2.2
  have hmem := mem_append_right before ((@BufferList.evictTail_used n seg.startPage numPages
    slabNum mgr.bufferEpoch mgr.nextAddr rest _ rfl).2 (.inl rfl))
  have hg' : Grounded cfg mgr' := hmgr' ▸ hg.reshape
    ⟨sameSlabs_setSegs hslab _, rfl, rfl, rfl, .inr rfl⟩ hsound
    (stamped_setSegs hg.stamped (stamped_append.2 ⟨hold.1, htail⟩)) (nodup_eraseKeys hg.keys)
  have hslab' : mgr'.slabs[slabNum]? = some { slab with
      segs := before ++ BufferList.evictTail seg.startPage n numPages slabNum mgr.bufferEpoch
        mgr.nextAddr rest } := hmgr' ▸ getElem?_setSegs hslab _
  exact ⟨hg', hands_of_mem hg'.sound hslab' hmem rfl⟩

end

/-- How an operation may end: if it ends well or out of memory, then in a
state that is grounded. -/
def EndsGrounded {α : Type} (cfg : Config) (state : α → BufferMgr) : Except Fault α → Prop
  | .ok a => Grounded cfg (state a)
  | .error (.outOfMemory mgr) => Grounded cfg mgr
  | .error _ => True

theorem Grounded.searched (hg : Grounded cfg mgr) (canAlloc : Nat → Bool) (n : Nat) :
    Grounded cfg (mgr.withSearch (addSlabLoop cfg canAlloc n mgr.numPagesAllocated
      mgr.currentMaxSlabPageSize mgr.allocationsCapped)) := by
  obtain ⟨hle, hwide, hcapped, -⟩ :=
    @addSlabLoop_bounds cfg canAlloc n mgr.numPagesAllocated _ _ hg.wide hg.capped
  exact hg.withSearch (Nat.le_trans hle hg.currentMax) hwide hcapped

variable {fault : Fault}

/-- An eviction does not run out of memory. -/
theorem evict_error (h : mgr.evict addr n slabNum = .error fault) :
    fault = .undefined ∨ fault = .evictsPinned := by
  unfold BufferMgr.evict at h
  split at h
  · exact .inl (error.inj h).symm
  · split at h
    · exact .inl (error.inj h).symm
    · split at h
      · exact .inr (error.inj h).symm
      · exact .inl (error.inj h).symm
      · cases h

theorem removeSegment_error (h : mgr.removeSegment addr = .error fault) : fault = .undefined := by
  unfold BufferMgr.removeSegment at h
  split at h
  · exact (error.inj h).symm
  · split at h
    · cases h
    · split at h
      · exact (error.inj h).symm
      · split at h
        · exact (error.inj h).symm
        · cases h

section

variable (hg : Grounded cfg mgr)
include hg

theorem Grounded.findByEviction (n : Nat) : EndsGrounded cfg Prod.snd (mgr.findByEviction n) := by
  unfold BufferMgr.findByEviction
  split
  · exact hg
  · split
    · trivial
    · split
      · exact hg
      · rename_i best _
        cases hevict : mgr.evict best.addr n best.slabNum with
        | ok found => exact (hg.evict hevict).1
        | error fault => rcases evict_error hevict with rfl | rfl <;> trivial

section

variable (canAlloc : Nat → Bool)

theorem Grounded.findFreeBuffer (n : Nat) :
    EndsGrounded cfg Prod.snd (mgr.findFreeBuffer cfg canAlloc n) := by
  unfold BufferMgr.findFreeBuffer
  split
  · exact hg
  · split
    · rename_i found htake
      exact (hg.takeFree htake).1
    · have hsearched := hg.searched canAlloc n
      obtain ⟨-, -, -, hadd⟩ :=
        @addSlabLoop_bounds cfg canAlloc n mgr.numPagesAllocated _ _ hg.wide hg.capped
      simp only
      split
      · rename_i k hadded
        obtain ⟨hle, hpos⟩ := hadd k hadded
        split
        · rename_i found htake
          exact ((hsearched.addSlab (Nat.le_trans hle hg.currentMax) hpos).takeFree htake).1
        · trivial
      · exact hsearched.findByEviction n

-- ======== the operations

theorem Grounded.relocate (addr newAddr : Nat) :
    EndsGrounded cfg id (mgr.relocate addr newAddr) := by
  unfold BufferMgr.relocate
  split
  · rename_i seg newSeg _ _
    split
    · trivial
    · rename_i b _
      split
      · trivial
      · rename_i buf _
        simp only
        have hmoved := (hg.modifySeg (f := fun s =>
            { s with buffer := some b, chunkKey := seg.chunkKey })
          ⟨fun _ => rfl, fun _ => rfl, fun _ => rfl, fun _ => rfl, fun _ => rfl⟩
          (fun _ => rfl) newAddr).setBuffer b (some { buf with
            mem := newSeg.slabNum.map fun slabNum => (slabNum, newSeg.startPage) })
        split
        · rename_i fault hremove
          rw [removeSegment_error hremove]
          trivial
        · rename_i mgr₁ hremove
          have hremoved := hmoved.removeSegment hremove
          exact hremoved.setIndex (StdMap.nodup_set hremoved.keys _ _)
  · trivial

theorem Grounded.reserveBuffer (addr numBytes : Nat) :
    EndsGrounded cfg Prod.snd (mgr.reserveBuffer cfg canAlloc addr numBytes) := by
  unfold BufferMgr.reserveBuffer
  split
  · trivial
  · rename_i seg hderef
    simp only
    split
    · exact hg
    · rename_i hge
      split
      · rename_i mgr₁ hgrow
        exact hg.growInPlace ((deref_eq_some hg.sound.addrs).1 hderef).1 (Nat.le_of_not_lt hge)
          hgrow
      · have hfind := hg.findFreeBuffer canAlloc (pagesFor cfg.pageSize numBytes)
        split
        · rename_i fault heq
          rw [heq] at hfind
          cases fault <;> exact hfind
        · rename_i newAddr mgr₁ heq
          rw [heq] at hfind
          have hmove := Grounded.relocate hfind addr newAddr
          split
          · rename_i fault heq'
            rw [heq'] at hmove
            cases fault <;> exact hmove
          · rename_i mgr₂ heq'
            rw [heq'] at hmove
            exact hmove

theorem Grounded.reserve (b numBytes : Nat) :
    EndsGrounded cfg id (mgr.reserve cfg canAlloc b numBytes) := by
  unfold BufferMgr.reserve
  split
  · trivial
  · rename_i buf _
    simp only
    split
    · have hreserve := hg.reserveBuffer canAlloc buf.segIt
        (buf.pageSize * pagesFor buf.pageSize numBytes % 2 ^ 64)
      split
      · rename_i fault heq
        rw [heq] at hreserve
        cases fault <;> exact hreserve
      · rename_i addr mgr₁ heq
        rw [heq] at hreserve
        split
        · trivial
        · exact Grounded.setBuffer hreserve b _
    · exact hg

end

theorem Grounded.dropBuffer (h : mgr.dropBuffer addr = .ok mgr') : Grounded cfg mgr' := by
  unfold BufferMgr.dropBuffer at h
  split at h
  · cases h
  · split at h
    · cases h
      exact hg
    · cases h
      exact (hg.setBuffer _ none).modifySeg keepsPlace_clearBuffer (fun _ => rfl) addr

omit hg in
theorem dropBuffer_error (h : mgr.dropBuffer addr = .error fault) : fault = .undefined := by
  unfold BufferMgr.dropBuffer at h
  split at h
  · exact (error.inj h).symm
  · split at h <;> cases h

theorem Grounded.deleteBuffer (key : ChunkKey) : EndsGrounded cfg id (mgr.deleteBuffer key) := by
  unfold BufferMgr.deleteBuffer
  split
  · trivial
  · rename_i addr _
    simp only
    have hindex := hg.setIndex (StdMap.nodup_erase hg.keys key)
    split
    · rename_i fault hdrop
      rw [dropBuffer_error hdrop]
      trivial
    · rename_i mgr₁ hdrop
      have hdropped := hindex.dropBuffer hdrop
      cases hremove : mgr₁.removeSegment addr with
      | ok mgr₂ => exact hdropped.removeSegment hremove
      | error fault =>
        rw [removeSegment_error hremove]
        trivial

omit hg in
theorem Grounded.deletePrefixLoop (keyPrefix : ChunkKey) (entries : List (ChunkKey × Nat))
    (hg : Grounded cfg mgr) :
    EndsGrounded cfg id (BufferMgr.deletePrefixLoop keyPrefix entries mgr) := by
  induction entries generalizing mgr with
  | nil => exact hg
  | cons kv rest ih =>
    obtain ⟨key, addr⟩ := kv
    unfold BufferMgr.deletePrefixLoop
    split
    · trivial
    · exact hg
    · split
      · rename_i fault hdrop
        rw [dropBuffer_error hdrop]
        trivial
      · rename_i mgr₁ hdrop
        split
        · rename_i fault hremove
          rw [removeSegment_error hremove]
          trivial
        · rename_i mgr₂ hremove
          have hremoved := (hg.dropBuffer hdrop).removeSegment hremove
          exact ih (hremoved.setIndex (StdMap.nodup_erase hremoved.keys key))

theorem Grounded.clearSlabs : EndsGrounded cfg id mgr.clearSlabs := by
  unfold BufferMgr.clearSlabs
  generalize (mgr.slabs.flatMap Slab.segs).map Segment.addr = addrs
  induction addrs generalizing mgr with
  | nil => exact hg
  | cons addr addrs ih =>
    rw [foldlM_cons]
    have hclear : EndsGrounded cfg id (mgr.clearSegment addr) := by
      unfold BufferMgr.clearSegment
      split
      · exact hg
      · split
        · exact hg
        · split
          · exact hg
          · exact hg.deleteBuffer _
    cases hstep : mgr.clearSegment addr with
    | error fault =>
      rw [hstep] at hclear
      exact hclear
    | ok mgr₁ =>
      rw [hstep] at hclear
      exact ih hclear

theorem Grounded.insertUnsized (key : ChunkKey) (pageSize : Nat) :
    Grounded cfg (mgr.insertUnsized key pageSize) := by
  refine hg.reshape ⟨rfl, rfl, rfl, rfl, .inl rfl⟩ (sound_insertUnsized hg.sound key) ?_
    (StdMap.nodup_set hg.keys _ _)
  have hstamped := hg.stamped
  unfold segs at hstamped
  rw [stamped_append] at hstamped
  refine stamped_append.2 ⟨stamped_append.2 ⟨hstamped.1, ?_⟩, hstamped.2⟩
  exact stamped_cons.2 ⟨Nat.two_pow_pos 32, fun _ h => by cases h⟩

theorem Grounded.undoCreate (key : ChunkKey) (b : Nat) :
    EndsGrounded cfg id (mgr.undoCreate key b) := by
  unfold BufferMgr.undoCreate
  split
  · trivial
  · rename_i addr _
    exact ((hg.setBuffer b none).modifySeg keepsPlace_clearBuffer (fun _ => rfl)
      addr).deleteBuffer key

theorem Grounded.createBuffer (canAlloc : Nat → Bool) (key : ChunkKey)
    (chunkPageSize initialSize : Nat) :
    EndsGrounded cfg id (mgr.createBuffer cfg canAlloc key chunkPageSize initialSize) := by
  unfold BufferMgr.createBuffer
  simp only
  split
  · trivial
  · split
    · exact hg.insertUnsized key _
    · have hreserve := (hg.insertUnsized key
        (if chunkPageSize = 0 then cfg.pageSize else chunkPageSize)).reserve canAlloc
        mgr.nextBuffer initialSize
      split
      · rename_i mgr₁ heq
        rw [heq] at hreserve
        have hundo := Grounded.undoCreate hreserve key mgr.nextBuffer
        split
        · rename_i fault heq'
          rw [heq'] at hundo
          cases fault <;> exact hundo
        · rename_i mgr₂ heq'
          rw [heq'] at hundo
          exact hundo
      · rename_i fault hnot heq
        cases fault with
        | outOfMemory mgr₁ => exact absurd rfl (hnot mgr₁)
        | check | evictsPinned | undefined => trivial
      · rename_i mgr₁ heq
        rw [heq] at hreserve
        split
        · trivial
        · exact hreserve

theorem Grounded.addPin (key : ChunkKey) (n : Int) : EndsGrounded cfg id (mgr.addPin key n) := by
  unfold BufferMgr.addPin
  split
  · trivial
  · split
    · trivial
    · exact hg.setBuffer _ _

-- ======== runs

theorem Grounded.step (op : Op) : EndsGrounded cfg id (mgr.step cfg op) := by
  cases op with
  | createBuffer key chunkPageSize initialSize canAlloc =>
    exact hg.createBuffer canAlloc key chunkPageSize initialSize
  | reserve key numBytes canAlloc =>
    unfold BufferMgr.step
    simp only
    split
    · trivial
    · exact hg.reserve canAlloc _ numBytes
  | pin key => exact hg.addPin key 1
  | unPin key => exact hg.addPin key (-1)
  | deleteBuffer key => exact hg.deleteBuffer key
  | deleteBuffersWithPrefix keyPrefix => exact hg.deletePrefixLoop keyPrefix _
  | clearSlabs => exact hg.clearSlabs

end

/-- Every state of a run is grounded. -/
theorem reached_grounded {P : BufferMgr → Op → Prop} (h : Reached cfg P mgr) :
    Grounded cfg mgr := by
  induction h with
  | start => exact grounded_init cfg
  | @ok mgr mgr' op _ _ hstep ih | @threw mgr mgr' op _ _ hstep ih =>
    have hends := ih.step op
    rw [hstep] at hends
    exact hends

end BufferMgr

end Compass.BufferPool
