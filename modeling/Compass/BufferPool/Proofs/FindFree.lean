/-
`findFreeBuffer` hands out a segment that no one owns.

It comes from a free segment of a slab, from a new slab, or from an
eviction. In each case the used segments are the old ones, less those that
were evicted, and the new one; no evicted one was pinned.
-/
import Compass.BufferPool.Proofs.BufferMgr
import Compass.BufferPool.Runs

namespace Compass.BufferPool

open List Option Nat Prod
open BufferList

namespace BufferMgr

variable {mgr mgr' : BufferMgr}

/-- A segment has been handed out, for a buffer to move in. -/
structure Found (mgr mgr' : BufferMgr) (addr : Nat) : Prop where
  inv : Inv (some addr) mgr'
  segment : ∃ seg n, mgr'.Used seg ∧ seg.addr = addr ∧ seg.slabNum = some n
  other : ∀ s, mgr.Used s → s.addr ≠ addr
  keeps : ∀ s, mgr.Used s → mgr.isPinned s = true → mgr'.Used s
  buffers : mgr'.buffers = mgr.buffers
  nextBuffer : mgr'.nextBuffer = mgr.nextBuffer

/-- A used segment is found by its key, and no other is. -/
theorem Inv.key_inj (hinv : Inv none mgr) {s s' : Segment} (hs : mgr.Used s)
    (hs' : mgr.Used s') (hkey : s.chunkKey = s'.chunkKey) : s = s' := by
  have hi := (hinv.owned s hs (by simp)).index
  have hi' := (hinv.owned s' hs' (by simp)).index
  rw [hkey] at hi
  have haddr := StdMap.value_unique hinv.keys hi hi'
  exact seg_unique hinv.sound.addrs hs.1 hs'.1 haddr

/-- The segments of `E` are gone, with their keys, and `u` is new. -/
theorem Inv.handOut (hinv : Inv none mgr) {u : Segment} {E : Segment → Prop}
    (hsound : Sound mgr'.slabs mgr'.unsizedSegs mgr'.nextAddr)
    (halloc : mgr'.slabs = [] → mgr'.numPagesAllocated = 0) (hbuffers : mgr'.buffers = mgr.buffers)
    (hnext : mgr'.nextBuffer = mgr.nextBuffer) (hkeys : (mgr'.chunkIndex.map fst).Nodup)
    (hnew : ∀ s, mgr.Used s → s.addr ≠ u.addr)
    (hused : ∀ s, mgr'.Used s ↔ s = u ∨ mgr.Used s ∧ ¬E s) (hindex : ∀ k a, (k, a) ∈ mgr'.chunkIndex
      ↔ (k, a) ∈ mgr.chunkIndex ∧ ¬∃ s, mgr.Used s ∧ E s ∧ s.chunkKey = k) :
    Inv (some u.addr) mgr' := by
  refine ⟨hsound, halloc, ?_, hkeys, ?_, ?_⟩
  · intro b hb
    rw [hbuffers]
    exact hinv.freshBuffer b (hnext ▸ hb)
  · intro s hs hne
    rcases (hused s).1 hs with rfl | ⟨hold, hstays⟩
    · exact absurd rfl hne
    · have ho := hinv.owned s hold (by simp)
      refine ⟨ho.key, ?_, by rw [hbuffers]; exact ho.buffer⟩
      apply (hindex _ _).2
      refine ⟨ho.index, ?_⟩
      intro hgone
      obtain ⟨s', hs', hE, hkey⟩ := hgone
      exact hstays (hinv.key_inj hs' hold hkey ▸ hE)
  · intro k a hka
    obtain ⟨hold, hstays⟩ := (hindex k a).1 hka
    obtain ⟨-, s, hs, haddr, hkey⟩ := hinv.indexed k a hold
    refine ⟨?_, s, (hused s).2 (Or.inr ⟨hs, ?_⟩), haddr, hkey⟩
    · intro heq
      exact hnew s hs (haddr.trans (some.inj heq))
    · intro hE
      exact hstays ⟨s, hs, hE, hkey⟩

-- ======== a free segment

variable {numPagesRequested n addr : Nat}

theorem findInSlabs_spec {epoch newAddr : Nat} {slabs slabs' : List Slab}
    (h : findInSlabs numPagesRequested epoch newAddr n slabs
      = some (addr, slabs')) : ∃ i slab segs', slabs[i]? = some slab
      ∧ slab.segs.findFreeBufferInSlab (n + i) numPagesRequested epoch newAddr
        = some (addr, segs')
      ∧ slabs' = slabs.set i { slab with segs := segs' } := by
  induction slabs generalizing n slabs' with
  | nil => cases h
  | cons slab rest ih =>
    unfold findInSlabs at h
    split at h
    · rename_i a segs' hfind
      obtain ⟨rfl, rfl⟩ := h
      exact ⟨0, slab, segs', rfl, hfind, rfl⟩
    · obtain ⟨p, hp, heq⟩ := map_eq_some_iff.1 h
      obtain ⟨a, rest'⟩ := p
      obtain ⟨rfl, rfl⟩ := heq
      obtain ⟨i, slab', segs', hi, hfind, rfl⟩ := ih hp
      refine ⟨i + 1, slab', segs', hi, ?_, rfl⟩
      rw [← hfind]
      congr 1
      omega

theorem take_append_set_drop {α : Type*} {xs : List α} {n i : Nat} {x y : α}
    (h : (xs.drop n)[i]? = some y) :
    xs.take n ++ (xs.drop n).set i x = xs.set (n + i) x := by
  obtain ⟨hi, -⟩ := List.getElem?_eq_some_iff.1 h
  have hlen : (xs.take n).length = n := by
    rw [length_drop] at hi
    rw [length_take]
    omega
  conv_rhs => rw [← take_append_drop n xs]
  rw [set_append_right _ _ (by omega), hlen, Nat.add_sub_cancel_left]

theorem takeFree_found (hinv : Inv none mgr) {first : Nat}
    (h : mgr.takeFree first numPagesRequested = some (addr, mgr')) : Found mgr mgr' addr := by
  unfold takeFree at h
  obtain ⟨p, hp, heq⟩ := map_eq_some_iff.1 h
  obtain ⟨a, rest'⟩ := p
  obtain ⟨rfl, rfl⟩ := heq
  obtain ⟨i, slab, segs', hi, hfind, rfl⟩ := findInSlabs_spec hp
  have hslab : mgr.slabs[first + i]? = some slab := by
    rw [← hi, getElem?_drop]
  obtain ⟨before, seg, after, spare, hsegs, hfree, hseg, hsegs', hspare, hw⟩ :=
    findFreeBufferInSlab_spec hfind
  obtain ⟨others, hperm, hperm'⟩ := segs_replace hslab hsegs
  have hslabs := @take_append_set_drop _ mgr.slabs first i
    { slab with segs := segs' } slab hi
  rw [hslabs]
  have hw' : Reworked (first + i) mgr.nextAddr (mgr.nextAddr + 1) slab.segs
      segs' := by
    rw [hsegs, hsegs']
    exact hw.within before after
  have hsound := sound_rework hinv.sound hslab (le_succ _) hw'
  have hnodup := (hperm.map Segment.addr).nodup_iff.1 hinv.sound.addrs
  rw [map_append, nodup_append] at hnodup
  have hold : ∀ s, mgr.Used s → s ∈ others := by
    intro s hs
    rcases mem_append.1 (hperm.mem_iff.1 hs.1) with hself | hother
    · rw [mem_singleton.1 hself] at hs
      exact absurd (hfree.symm.trans hs.2) (by simp)
    · exact hother
  have hnew : ∀ s, mgr.Used s → s.addr ≠ seg.addr := by
    intro s hs heq
    exact hnodup.2.2 seg.addr (by simp) s.addr
      (mem_map_of_mem (hold s hs)) heq.symm
  generalize htaken :
    taken seg (first + i) numPagesRequested mgr.bufferEpoch = u at *
  have huaddr : u.addr = seg.addr := by rw [← htaken]; rfl
  have huused : u.memStatus = .used := by rw [← htaken]; rfl
  have huslab : u.slabNum = some (first + i) := by rw [← htaken]; rfl
  have hused : ∀ s, Used { mgr with
      slabs := mgr.slabs.set (first + i) { slab with segs := segs' }
      bufferEpoch := mgr.nextEpoch
      nextAddr := mgr.nextAddr + 1 } s ↔ s = u ∨ mgr.Used s ∧ ¬False := by
    intro s
    have hmem : s ∈ (mgr.setSegs (first + i) slab segs').segs
        ↔ s ∈ (u :: spare) ++ others := by
      rw [hsegs']
      exact (hperm' (u :: spare)).mem_iff
    constructor
    · intro hs
      rcases mem_append.1 (hmem.1 hs.1) with hmine | hother
      · rcases mem_cons.1 hmine with hself | hsp
        · exact Or.inl hself
        · have := hspare s hsp
          rw [hs.2] at this
          cases this
      · exact Or.inr ⟨⟨hperm.mem_iff.2 (mem_append_right _ hother), hs.2⟩, not_false⟩
    · intro hs
      rcases hs with rfl | ⟨hs, -⟩
      · exact ⟨hmem.2 (by simp), huused⟩
      · exact ⟨hmem.2 (mem_append_right _ (hold s hs)), hs.2⟩
  rw [← hseg, ← huaddr]
  refine ⟨?_, ⟨u, first + i, (hused u).2 (Or.inl rfl), rfl, huslab⟩, ?_, ?_, rfl, rfl⟩
  · refine @Inv.handOut mgr _ hinv u (fun _ => False) hsound ?_ rfl rfl
      hinv.keys ?_ hused ?_
    · intro hempty
      apply hinv.allocated
      simpa using hempty
    · intro s hs
      rw [huaddr]
      exact hnew s hs
    · intro k a
      simp
  · intro s hs
    rw [huaddr]
    exact hnew s hs
  · intro s hs _
    exact (hused s).2 (Or.inr ⟨hs, not_false⟩)

-- ======== a new slab

/-- A slab is only added if it is large enough. -/
theorem le_of_added {cfg : Config} {canAlloc : Nat → Bool}
    {numPagesAllocated currentMax numPages : Nat} {capped : Bool}
    (h : (addSlabLoop cfg canAlloc numPagesRequested numPagesAllocated currentMax
      capped).added = some numPages) : numPagesRequested ≤ numPages := by
  fun_induction addSlabLoop cfg canAlloc numPagesRequested numPagesAllocated
    currentMax capped with
  | case1 currentMax capped hgo currentMax' hfit halloc =>
    obtain rfl := some.inj h
    exact hfit
  | case2 currentMax capped hgo currentMax' hfit halloc hhalf ih
  | case3 currentMax capped hgo currentMax' hfit halloc hhalf ih => exact ih h
  | case4 currentMax capped hgo currentMax' hfit | case5 currentMax capped hstop => cases h

theorem segs_addSlab (numPages : Nat) :
    (mgr.addSlab numPages).segs
      = mgr.segs ++ [Segment.ofFree mgr.nextAddr 0 numPages] := by
  unfold segs addSlab
  simp

theorem used_addSlab (numPages : Nat) (s : Segment) :
    (mgr.addSlab numPages).Used s ↔ mgr.Used s := by
  unfold Used
  rw [segs_addSlab, mem_append, mem_singleton]
  constructor
  · intro h
    obtain ⟨hold | rfl, hused⟩ := h
    · exact ⟨hold, hused⟩
    · cases hused
  · intro h
    exact ⟨Or.inl h.1, h.2⟩

theorem sound_addSlab (hs : Sound mgr.slabs mgr.unsizedSegs mgr.nextAddr) (numPages : Nat) :
    Sound (mgr.addSlab numPages).slabs (mgr.addSlab numPages).unsizedSegs
      (mgr.addSlab numPages).nextAddr := by
  have hnew : Segment.addr (Segment.ofFree mgr.nextAddr 0 numPages)
      = mgr.nextAddr := rfl
  have hsegs := @segs_addSlab mgr numPages
  refine ⟨?_, ?_, ?_, ?_, hs.unsized⟩
  · intro slab hslab
    rcases mem_append.1 hslab with hold | hself
    · exact hs.tiled slab hold
    · obtain rfl := mem_singleton.1 hself
      simp [TilesPages, Segment.ofFree]
  · change ((mgr.addSlab numPages).segs.map Segment.addr).Nodup
    rw [hsegs, map_append, nodup_append]
    refine ⟨hs.addrs, by simp, ?_⟩
    intro x hx y hy heq
    obtain ⟨s, hs', rfl⟩ := mem_map.1 hx
    have hlt := hs.fresh s hs'
    simp only [map_cons, map_nil, mem_singleton, hnew] at hy
    omega
  · intro s hs'
    have hmem : s ∈ (mgr.addSlab numPages).segs := hs'
    rw [hsegs] at hmem
    have hnext : (mgr.addSlab numPages).nextAddr = mgr.nextAddr + 1 := rfl
    rcases mem_append.1 hmem with hold | hself
    · have := hs.fresh s hold
      omega
    · obtain rfl := mem_singleton.1 hself
      omega
  · intro n slab hn s hs' hused
    have hn' : (mgr.slabs ++ [⟨numPages,
        [Segment.ofFree mgr.nextAddr 0 numPages]⟩])[n]? = some slab := hn
    rcases Nat.lt_or_ge n mgr.slabs.length with hlt | hge
    · rw [getElem?_append_left hlt] at hn'
      exact hs.slabNums n slab hn' s hs' hused
    · rw [getElem?_append_right hge] at hn'
      obtain rfl := mem_singleton.1 (mem_of_getElem? hn')
      rw [mem_singleton.1 hs'] at hused
      cases hused

theorem Inv.addSlab (hinv : Inv none mgr) (numPages : Nat) :
    Inv none (mgr.addSlab numPages) := by
  refine ⟨sound_addSlab hinv.sound numPages, ?_, hinv.freshBuffer, hinv.keys, ?_, ?_⟩
  · intro hempty
    simp [BufferMgr.addSlab] at hempty
  · intro s hs hne
    have ho := hinv.owned s ((used_addSlab numPages s).1 hs) hne
    exact ⟨ho.key, ho.index, ho.buffer⟩
  · intro k a hka
    obtain ⟨hne, s, hs, haddr, hkey⟩ := hinv.indexed k a hka
    exact ⟨hne, s, (used_addSlab numPages s).2 hs, haddr, hkey⟩

/-- The new slab has the room that it was added for. -/
theorem takeFree_addSlab {numPages numPagesRequested : Nat} (h : numPagesRequested ≤ numPages) :
    ∃ found, (mgr.addSlab numPages).takeFree mgr.slabs.length numPagesRequested
      = some found := by
  have hdrop : (mgr.addSlab numPages).slabs.drop mgr.slabs.length
      = [⟨numPages, [Segment.ofFree mgr.nextAddr 0 numPages]⟩] := by
    simp [addSlab]
  unfold takeFree
  rw [hdrop]
  unfold findInSlabs findFreeBufferInSlab
  rw [if_pos ⟨rfl, h⟩]
  simp only
  split
  · exact ⟨_, rfl⟩
  · rename_i hnone
    split at hnone
    · cases hnone
    · cases hnone

-- ======== eviction

theorem bestEviction_some {best : Option BufferList.Candidate} {slabs : List Slab}
    {cand : BufferList.Candidate}
    (h : mgr.bestEviction numPagesRequested n best slabs = some cand) :
    best = some cand ∨ ∃ i slab before seg rest score, slabs[i]? = some slab
      ∧ cand.slabNum = n + i ∧ slab.segs = before ++ seg :: rest
      ∧ seg.addr = cand.addr
      ∧ BufferList.window mgr.isPinned numPagesRequested 0 0 (seg :: rest)
        = .found score := by
  induction slabs generalizing n best with
  | nil => exact Or.inl h
  | cons slab slabs ih =>
    rcases ih h with hbest | hlater
    · rcases bestInSlab_some hbest with hsame | hhere
      · exact Or.inl hsame
      · obtain ⟨hslab, before, seg, rest, score, hsegs, haddr, hwindow⟩ := hhere
        exact Or.inr ⟨0, slab, before, seg, rest, score, rfl, hslab, hsegs, haddr, hwindow⟩
    · obtain ⟨i, slab', before, seg, rest, score, hi, hn, hrest⟩ := hlater
      exact Or.inr ⟨i + 1, slab', before, seg, rest, score, hi, by omega, hrest⟩

/-- The keys of the used segments erased are gone, and no others. -/
theorem mem_eraseKeys {erased : BufferList} {index : List (ChunkKey × Nat)} {k : ChunkKey} {a : Nat}
    (hkeys : ∀ s ∈ erased, s.memStatus = .used → s.chunkKey ≠ []) :
    (k, a) ∈ eraseKeys erased index ↔ (k, a) ∈ index
      ∧ ¬∃ s ∈ erased, s.memStatus = .used ∧ s.chunkKey = k := by
  unfold eraseKeys
  induction erased generalizing index with
  | nil => simp
  | cons seg erased ih =>
    have hrest : ∀ s ∈ erased, s.memStatus = .used → s.chunkKey ≠ [] :=
      fun s hs => hkeys s (mem_cons_of_mem _ hs)
    rw [foldl_cons, ih hrest]
    by_cases hused : seg.memStatus = .used
    · rw [if_pos ⟨hused, hkeys seg mem_cons_self hused⟩, StdMap.mem_erase]
      simp only [mem_cons, exists_eq_or_imp, hused, true_and, not_or]
      constructor
      · intro h
        exact ⟨h.1.1, fun heq => h.1.2 heq.symm, h.2⟩
      · intro h
        exact ⟨⟨h.1, fun heq => h.2.1 heq.symm⟩, h.2.2⟩
    · rw [if_neg fun h => hused h.1]
      simp [hused]

theorem nodup_eraseKeys {erased : BufferList} {index : List (ChunkKey × Nat)}
    (h : (index.map fst).Nodup) :
    ((eraseKeys erased index).map fst).Nodup := by
  unfold eraseKeys
  induction erased generalizing index with
  | nil => exact h
  | cons seg erased ih =>
    rw [foldl_cons]
    apply ih
    split
    · exact StdMap.nodup_erase h _
    · exact h

/-- An iterator into a slab cuts it at the segment that it points to. -/
theorem split_slab (hs : Sound mgr.slabs mgr.unsizedSegs mgr.nextAddr) {slab : Slab}
    {before rest : BufferList} {seg : Segment} (hslab : mgr.slabs[n]? = some slab)
    (hsegs : slab.segs = before ++ seg :: rest) :
    slab.segs.split seg.addr = some (before, seg, rest) := by
  rw [hsegs]
  apply split_append
  rw [← hsegs]
  -- the addresses of a slab are among those of all segments
  have hsub : slab.segs.Sublist (mgr.slabs.flatMap Slab.segs) := by
    exact sublist_flatten_of_mem (mem_map_of_mem (mem_of_getElem? hslab))
  exact hs.addrs.sublist ((hsub.trans (sublist_append_right _ _)).map Segment.addr)

/-- What the search has found is evicted. -/
theorem evict_found (hinv : Inv none mgr) {score : Nat} {slab : Slab} {before rest : BufferList}
    {seg : Segment} (hslab : mgr.slabs[n]? = some slab) (hsegs : slab.segs = before ++ seg :: rest)
    (hwindow : BufferList.window mgr.isPinned numPagesRequested 0 0 (seg :: rest)
      = .found score) : ∃ mgr', mgr.evict seg.addr numPagesRequested n = .ok (mgr.nextAddr, mgr')
      ∧ Found mgr mgr' mgr.nextAddr := by
  obtain ⟨erased, total, left, hloop⟩ := evictLoop_of_window hwindow
  obtain ⟨hcut, hunpinned, htotal, hle⟩ := evictLoop_enough hloop
  rw [zero_add] at htotal
  have hsegs' : slab.segs = before ++ ((seg :: rest) ++ []) := by simp [hsegs]
  obtain ⟨others, hperm, hperm'⟩ := segs_replace hslab hsegs'
  have hsplit := split_slab hinv.sound hslab hsegs
  have hw := @evictTail_reworked numPagesRequested total n
    mgr.bufferEpoch mgr.nextAddr seg rest erased left hcut htotal hle
  have hsound := sound_rework hinv.sound hslab (by omega : _ ≤ mgr.nextAddr + 2)
    (hsegs' ▸ hw.within before [])
  generalize htail : evictTail seg.startPage numPagesRequested total n
    mgr.bufferEpoch mgr.nextAddr left = tail at hsound
  rw [append_nil] at hsound
  have hnew : ∀ s, mgr.Used s → s.addr ≠ mgr.nextAddr := by
    intro s hs
    have := hinv.sound.fresh s hs.1
    omega
  have hmem : ∀ s, s ∈ mgr.segs ↔ s ∈ erased ∨ s ∈ left ∨ s ∈ others := by
    intro s
    rw [hperm.mem_iff, hcut]
    simp
  -- an evicted segment is none of those that stay
  have hapart : ∀ s ∈ erased, s ∉ left ∧ s ∉ others := by
    intro s hs
    have hnodup := hinv.sound.addrs.of_map
    have hnodup' := hperm.nodup_iff.1 hnodup
    rw [hcut, append_assoc, nodup_append] at hnodup'
    constructor
    · intro hl
      exact hnodup'.2.2 s hs s (mem_append_left _ hl) rfl
    · intro ho
      exact hnodup'.2.2 s hs s (mem_append_right _ ho) rfl
  have hused : ∀ s, Used { mgr.setSegs n slab (before ++ tail) with
      chunkIndex := eraseKeys erased mgr.chunkIndex
      bufferEpoch := mgr.nextEpoch
      nextAddr := mgr.nextAddr + 2 } s
        ↔ s = dataSeg seg.startPage numPagesRequested n
            mgr.bufferEpoch mgr.nextAddr
          ∨ mgr.Used s ∧ ¬s ∈ erased := by
    intro s
    have hafter : s ∈ (mgr.setSegs n slab (before ++ tail)).segs
        ↔ s ∈ tail ∨ s ∈ others := by
      have := (hperm' tail).mem_iff (a := s)
      rwa [append_nil, mem_append] at this
    constructor
    · intro hs
      rcases hafter.1 hs.1 with ht | ho
      · rw [← htail, evictTail_used hs.2] at ht
        rcases ht with hself | hl
        · exact Or.inl hself
        · exact Or.inr ⟨⟨(hmem s).2 (Or.inr (Or.inl hl)), hs.2⟩, fun he => (hapart s he).1 hl⟩
      · exact Or.inr ⟨⟨(hmem s).2 (Or.inr (Or.inr ho)), hs.2⟩, fun he => (hapart s he).2 ho⟩
    · intro hs
      rcases hs with rfl | ⟨hs, hstays⟩
      · refine ⟨hafter.2 (Or.inl ?_), rfl⟩
        rw [← htail]
        exact (evictTail_used rfl).2 (Or.inl rfl)
      · rcases (hmem s).1 hs.1 with he | hl | ho
        · exact absurd he hstays
        · refine ⟨hafter.2 (Or.inl ?_), hs.2⟩
          rw [← htail]
          exact (evictTail_used hs.2).2 (Or.inr hl)
        · exact ⟨hafter.2 (Or.inr ho), hs.2⟩
  have hkeys : ∀ s ∈ erased, s.memStatus = .used → s.chunkKey ≠ [] := by
    intro s hs hs'
    exact (hinv.owned s ⟨(hmem s).2 (Or.inl hs), hs'⟩ (by simp)).key
  refine ⟨_, ?_, ?_, ⟨_, n, (hused _).2 (Or.inl rfl), rfl, rfl⟩, hnew, ?_, rfl, rfl⟩
  · unfold evict
    rw [hslab]
    simp only
    rw [hsplit]
    simp only
    rw [hloop]
    simp only
    rw [htail]
  · refine @Inv.handOut mgr _ hinv (dataSeg seg.startPage
      numPagesRequested n mgr.bufferEpoch mgr.nextAddr) (fun s => s ∈ erased)
      ?_ ?_ rfl rfl ?_ hnew hused ?_
    · exact hsound
    · intro hempty
      apply hinv.allocated
      simpa [setSegs] using hempty
    · exact nodup_eraseKeys hinv.keys
    · intro k a
      rw [mem_eraseKeys hkeys]
      apply and_congr_right
      intro _
      apply not_congr
      constructor
      · intro h
        obtain ⟨s, hs, hs', hkey⟩ := h
        exact ⟨s, ⟨(hmem s).2 (Or.inl hs), hs'⟩, hs, hkey⟩
      · intro h
        obtain ⟨s, hs, he, hkey⟩ := h
        exact ⟨s, he, hs.2, hkey⟩
  · intro s hs hpinned
    apply (hused s).2
    refine Or.inr ⟨hs, ?_⟩
    intro he
    rw [hunpinned s he hs.2] at hpinned
    cases hpinned

-- ======== findFreeBuffer

theorem Inv.withSearch {hole : Option Nat} (hinv : Inv hole mgr)
    (search : SlabSearch) : Inv hole (mgr.withSearch search) := by
  refine ⟨hinv.sound, hinv.allocated, hinv.freshBuffer, hinv.keys, ?_, hinv.indexed⟩
  intro s hs hne
  have ho := hinv.owned s hs hne
  exact ⟨ho.key, ho.index, ho.buffer⟩

/-- What was found in a changed manager was found in the one before, if the
change touches no used segment. -/
theorem Found.of_same {mgr₀ : BufferMgr} (h : Found mgr mgr' addr)
    (hused : ∀ s, mgr₀.Used s → mgr.Used s) (hbuffers : mgr.buffers = mgr₀.buffers)
    (hnext : mgr.nextBuffer = mgr₀.nextBuffer) : Found mgr₀ mgr' addr := by
  refine ⟨h.inv, h.segment, fun s hs => h.other s (hused s hs), ?_,
    h.buffers.trans hbuffers, h.nextBuffer.trans hnext⟩
  intro s hs hpinned
  apply h.keeps s (hused s hs)
  unfold isPinned at hpinned ⊢
  rwa [hbuffers]

variable {cfg : Config} {canAlloc : Nat → Bool} {numPagesRequested : Nat}

theorem findByEviction_spec (hinv : Inv none mgr)
    (hslab : mgr.slabs = [] → mgr.allocationsCapped = true) :
    (∃ addr mgr', mgr.findByEviction numPagesRequested = .ok (addr, mgr')
        ∧ Found mgr mgr' addr)
      ∨ mgr.findByEviction numPagesRequested = .error (.outOfMemory mgr) := by
  unfold findByEviction
  split
  · exact Or.inr rfl
  · rename_i hnot
    split
    · rename_i hempty
      exact absurd ⟨hinv.allocated hempty, hslab hempty⟩ hnot
    · split
      · exact Or.inr rfl
      · rename_i cand hbest
        rcases bestEviction_some hbest with hnone | hfound
        · cases hnone
        · obtain ⟨i, slab, before, seg, rest, score, hi, hn, hsegs, haddr, hwindow⟩ := hfound
          rw [zero_add] at hn
          obtain ⟨mgr', hevict, hf⟩ := evict_found hinv hi hsegs hwindow
          rw [← haddr, hn]
          exact Or.inl ⟨_, mgr', hevict, hf⟩

theorem findFreeBuffer_spec (hinv : Inv none mgr)
    (hfirst : mgr.slabs = [] → mgr.GetsSlab cfg canAlloc numPagesRequested) :
    (∃ addr mgr', mgr.findFreeBuffer cfg canAlloc numPagesRequested
        = .ok (addr, mgr') ∧ Found mgr mgr' addr)
      ∨ ∃ search, mgr.findFreeBuffer cfg canAlloc numPagesRequested
        = .error (.outOfMemory (mgr.withSearch search)) := by
  unfold findFreeBuffer
  split
  · exact Or.inr ⟨⟨none, mgr.currentMaxSlabPageSize, mgr.allocationsCapped⟩, rfl⟩
  · rename_i hsmall
    split
    · rename_i found htake
      exact Or.inl ⟨found.1, found.2, rfl, takeFree_found hinv htake⟩
    · unfold GetsSlab at hfirst
      simp only at hfirst ⊢
      generalize hsearch : addSlabLoop cfg canAlloc numPagesRequested
        mgr.numPagesAllocated mgr.currentMaxSlabPageSize mgr.allocationsCapped
        = search at hfirst ⊢
      have hinv' := hinv.withSearch search
      split
      · rename_i numPages hadded
        rw [← hsearch] at hadded
        obtain ⟨found, htake⟩ := @takeFree_addSlab (mgr.withSearch search)
          numPages numPagesRequested (le_of_added hadded)
        have hf := takeFree_found (hinv'.addSlab numPages) htake
        have htake' : ((mgr.withSearch search).addSlab numPages).takeFree
            mgr.slabs.length numPagesRequested = some found := htake
        rw [htake']
        refine Or.inl ⟨found.1, found.2, rfl, hf.of_same ?_ rfl rfl⟩
        intro s hs
        exact (used_addSlab numPages s).2 hs
      · rename_i hadded
        have hslab : (mgr.withSearch search).slabs = [] →
            (mgr.withSearch search).allocationsCapped = true := by
          intro hempty
          rcases hfirst hempty with hbig | hadd | hcapped
          · exact absurd hbig hsmall
          · exact absurd hadded hadd
          · exact hcapped
        rcases @findByEviction_spec _ numPagesRequested hinv' hslab with
          ⟨addr, mgr', hok, hf⟩ | hoom
        · exact Or.inl ⟨addr, mgr', hok, hf.of_same (fun s hs => hs) rfl rfl⟩
        · exact Or.inr ⟨search, hoom⟩

end BufferMgr

end Compass.BufferPool
