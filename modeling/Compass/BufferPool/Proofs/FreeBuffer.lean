/-
When `findFreeBuffer` does what it should.

The loop that adds a slab ends without one and without giving up for good
only if the request is larger than what is still asked for, or if all sizes
are refused and half of the request is not too small. The search for an
eviction finds a run of segments that can go if there is one: the score of
a run is below the largest `size_t`, since epochs are. So the one failure
is that of a pool without slabs, which is searched nevertheless.
-/
import Compass.BufferPool.Proofs.Grounded

namespace Compass.BufferPool

open List

namespace BufferMgr

-- ======== the sizes asked

section Asked

variable {cfg : Config} {n limit size : Nat}

theorem Asked.fits (h : Asked cfg n limit size) : n ≤ limit ∧ n ≤ size := by
  induction h with
  | limit hfit => exact ⟨hfit, hfit⟩
  | half _ hfit _ ih => exact ⟨ih.1, hfit⟩
  | request _ _ ih => exact ⟨ih.1, Nat.le_refl n⟩

/-- Half of the largest size is tried next. -/
theorem asked_half (hfit : n ≤ limit / 2) (hlarge : cfg.maxNumPagesPerSlab / 8 ≤ limit / 2) :
    Asked cfg n limit size ↔ size = limit ∨ Asked cfg n (limit / 2) size := by
  have hhalf : Asked cfg n limit (limit / 2) :=
    .half (.limit (Nat.le_trans hfit (Nat.div_le_self _ 2))) hfit hlarge
  constructor
  · intro h
    induction h with
    | limit _ => exact .inl rfl
    | half _ hfit' hlarge' ih =>
      rcases ih with rfl | h
      · exact .inr (.limit hfit)
      · exact .inr (.half h hfit' hlarge')
    | request _ hsmall ih =>
      rcases ih with rfl | h
      · omega
      · exact .inr (.request h hsmall)
  · rintro (rfl | h)
    · exact .limit (Nat.le_trans hfit (Nat.div_le_self _ 2))
    · induction h with
      | limit _ => exact hhalf
      | half _ hfit' hlarge' ih => exact .half ih hfit' hlarge'
      | request _ hsmall ih => exact .request ih hsmall

/-- The request itself is tried next, and last. -/
theorem asked_request (hfit : n ≤ limit) (hhalf : limit / 2 < n) :
    Asked cfg n limit size ↔ size = limit ∨ size = n := by
  constructor
  · intro h
    induction h with
    | limit _ => exact .inl rfl
    | half _ hfit' _ ih => rcases ih with rfl | rfl <;> omega
    | request _ _ _ => exact .inr rfl
  · rintro (rfl | rfl)
    · exact .limit hfit
    · exact .request (.limit hfit) hhalf

/-- Half of the largest size is too small to be tried. -/
theorem asked_last (hfit : n ≤ limit) (hhalf : ¬(limit / 2 < n ∧ limit ≠ n))
    (hsmall : limit / 2 < cfg.maxNumPagesPerSlab / 8) :
    Asked cfg n limit size ↔ size = limit := by
  constructor
  · intro h
    induction h with
    | limit _ => rfl
    | half _ _ hlarge ih =>
      omega
    | request _ hlt ih =>
      subst ih
      omega
  · rintro rfl
    exact .limit hfit

end Asked

-- ======== the loop without a slab

section Loop

variable {cfg : Config} {canAlloc : Nat → Bool} {n allocated : Nat}

/-- A loop that is not entered, or left for good. -/
theorem addSlabLoop_closed {currentMax : Nat} {capped : Bool}
    (h : capped = true ∨ cfg.maxNumPages ≤ allocated) :
    addSlabLoop cfg canAlloc n allocated currentMax capped = ⟨none, currentMax, capped⟩ := by
  rw [addSlabLoop, if_neg]
  rw [Bool.and_eq_true, decide_eq_true_eq, Bool.not_eq_true']
  rintro ⟨hopen, hlt⟩
  rcases h with h | h
  · rw [hopen] at h
    cases h
  · omega

theorem refused_of_not {size : Nat} (h : ¬(decide (size = 0) || canAlloc size) = true) :
    Refused canAlloc size := by
  rw [Bool.or_eq_true, decide_eq_true_eq, not_or, Bool.not_eq_true] at h
  exact ⟨Nat.pos_of_ne_zero h.1, h.2⟩

/-- What the end of the loop says about the sizes tried from `limit` on. -/
structure Tells (cfg : Config) (canAlloc : Nat → Bool) (n limit : Nat) (search : SlabSearch) :
    Prop where
  refused : search.added = none → ∀ size, Asked cfg n limit size → Refused canAlloc size
  stuck : search.added = none ∧ search.allocationsCapped = false ↔
    limit < n ∨ cfg.maxNumPagesPerSlab / 8 ≤ n / 2 ∧
      ∀ size, Asked cfg n limit size → Refused canAlloc size

variable {limit : Nat} {search : SlabSearch}

theorem Tells.half (h : Tells cfg canAlloc n (limit / 2) search)
    (hrefused : Refused canAlloc limit) (hfit : n ≤ limit / 2)
    (hlarge : cfg.maxNumPagesPerSlab / 8 ≤ limit / 2) : Tells cfg canAlloc n limit search where
  refused := fun hnone => by
    simp only [asked_half hfit hlarge, forall_eq_or_imp, hrefused, true_and]
    exact h.refused hnone
  stuck := by
    have hle : ¬limit < n := by omega
    have hle' : ¬limit / 2 < n := by omega
    have hstuck := h.stuck
    simp only [hle', false_or] at hstuck
    simp only [asked_half hfit hlarge, forall_eq_or_imp, hrefused, true_and, hle, false_or]
    exact hstuck

theorem Tells.request (h : Tells cfg canAlloc n n search) (hrefused : Refused canAlloc limit)
    (hfit : n ≤ limit) (hhalf : limit / 2 < n) : Tells cfg canAlloc n limit search := by
  have hle : ¬limit < n := by omega
  -- nothing is tried after the request
  have hasked : ∀ size, Asked cfg n n size ↔ size = n := fun size => by
    rw [asked_request (Nat.le_refl n) (by omega), or_self]
  obtain ⟨hall, hstuck⟩ := h
  simp only [hasked, forall_eq, Nat.lt_irrefl, false_or] at hall hstuck
  constructor
  · simp only [asked_request hfit hhalf, forall_eq_or_imp, hrefused, true_and, forall_eq]
    exact hall
  · simp only [asked_request hfit hhalf, forall_eq_or_imp, hrefused, true_and, forall_eq, hle,
      false_or]
    exact hstuck

/-- Half of the size last refused is not tried. -/
theorem Tells.last (hadded : search.added = none)
    (hopen : search.allocationsCapped = false ↔ cfg.maxNumPagesPerSlab / 8 ≤ limit / 2)
    (hrefused : Refused canAlloc limit) (hfit : n ≤ limit)
    (hasked : ∀ size, Asked cfg n limit size ↔ size = limit)
    (hlast : limit = n ∨ limit / 2 < cfg.maxNumPagesPerSlab / 8) :
    Tells cfg canAlloc n limit search := by
  have hle : ¬limit < n := by omega
  constructor
  · simp only [hasked, forall_eq]
    exact fun _ => hrefused
  · simp only [hasked, forall_eq, hrefused, and_true, hadded, true_and, hopen, hle, false_or]
    rcases hlast with rfl | hsmall
    · rfl
    · omega

/-- All sizes are refused if there is no slab in the end. -/
theorem addSlabLoop_tells {currentMax : Nat} (hlt : allocated < cfg.maxNumPages) :
    Tells cfg canAlloc n (min (cfg.maxNumPages - allocated) currentMax)
      (addSlabLoop cfg canAlloc n allocated currentMax false) := by
  generalize hcapped : false = capped
  fun_induction addSlabLoop cfg canAlloc n allocated currentMax capped with
  | case1 currentMax capped hgo limit hfit halloc =>
    have hnot : ¬∀ size, Asked cfg n limit size → Refused canAlloc size := by
      intro h
      obtain ⟨hpos, hrefused⟩ := h limit (.limit hfit)
      rw [Bool.or_eq_true, decide_eq_true_eq] at halloc
      rcases halloc with hzero | halloc
      · omega
      · rw [hrefused] at halloc
        cases halloc
    refine ⟨fun h => (by cases h), ⟨fun h => (by cases h.1), ?_⟩⟩
    rintro (hlt' | ⟨-, h⟩)
    · exact absurd hfit (Nat.not_le_of_lt hlt')
    · exact absurd h hnot
  | case2 currentMax capped hgo limit hfit halloc hhalf ih =>
    have hlimit : min (cfg.maxNumPages - allocated) n = n := by omega
    have htells := ih hcapped
    rw [hlimit] at htells
    exact htells.request (refused_of_not halloc) hfit hhalf.1
  | case3 currentMax capped hgo limit hfit halloc hhalf ih =>
    have hrefused := refused_of_not halloc
    have hlimit : min (cfg.maxNumPages - allocated) (limit / 2) = limit / 2 := by omega
    by_cases hsmall : limit / 2 < cfg.maxNumPagesPerSlab / 8
    · -- the loop gives up for good
      rw [addSlabLoop_closed (.inl (decide_eq_true hsmall))]
      refine .last rfl ?_ hrefused hfit (fun _ => asked_last hfit hhalf hsmall) (.inr hsmall)
      rw [decide_eq_false_iff_not, Nat.not_lt]
    · have htells := ih (decide_eq_false hsmall).symm
      rw [hlimit] at htells
      by_cases hfit' : n ≤ limit / 2
      · exact htells.half hrefused hfit' (Nat.le_of_not_lt hsmall)
      · -- the request has been refused, and half of it is too small
        have hlast : limit = n := by omega
        obtain ⟨hadded, hopen⟩ := htells.stuck.2 (.inl (Nat.lt_of_not_le hfit'))
        refine .last hadded ?_ hrefused hfit (fun size => ?_) (.inl hlast)
        · exact ⟨fun _ => Nat.le_of_not_lt hsmall, fun _ => hopen⟩
        · rw [asked_request hfit (Nat.lt_of_not_le hfit'), ← hlast, or_self]
  | case4 currentMax capped hgo limit hfit =>
    subst hcapped
    exact ⟨fun _ size h => absurd h.fits.1 hfit,
      ⟨fun _ => .inl (Nat.lt_of_not_le hfit), fun _ => ⟨rfl, rfl⟩⟩⟩
  | case5 currentMax capped hstop =>
    subst hcapped
    simp [hlt] at hstop

end Loop

end BufferMgr

-- ======== the search for a run

namespace BufferList

variable {isPinned : Segment → Bool} {n : Nat}

/-- Segments that can go: free or not pinned. -/
def Evictable (isPinned : Segment → Bool) (segs : BufferList) : Prop :=
  ∀ seg ∈ segs, seg.memStatus = .free ∨ isPinned seg = false

theorem not_pinned {seg : Segment} (h : seg.memStatus = .free ∨ isPinned seg = false) :
    (seg.memStatus = .used && isPinned seg) = false := by
  rcases h with h | h <;> simp [h]

/-- The search from the start of a run finds it, with a score that is one
of the epochs. -/
theorem window_found {pageCount score : Nat} {run after : BufferList} (hrun : run ≠ [])
    (hevict : Evictable isPinned run) (hn : n ≤ pageCount + (run.map Segment.numPages).sum)
    (hscore : score < 2 ^ 32) (hstamped : Stamped run) :
    ∃ found, window isPinned n pageCount score (run ++ after) = .found found ∧
      found < 2 ^ 32 := by
  induction run generalizing pageCount score with
  | nil => exact absurd rfl hrun
  | cons seg run ih =>
    obtain ⟨hseg, hrest⟩ := forall_mem_cons.1 hevict
    obtain ⟨hstamp, hstamps⟩ := stamped_cons.1 hstamped
    have hscore' : (if seg.memStatus = .used then max score seg.lastTouched else score) <
        2 ^ 32 := by
      split
      · exact Nat.max_lt.2 ⟨hscore, hstamp⟩
      · exact hscore
    rw [cons_append, window, not_pinned hseg]
    simp only [Bool.false_eq_true, if_false]
    split
    · exact ⟨_, rfl, hscore'⟩
    · rename_i hmore
      rw [map_cons, sum_cons, ← Nat.add_assoc] at hn
      refine ih ?_ hrest hn hscore' hstamps
      rintro rfl
      simp at hn
      omega

variable {segs : BufferList}

/-- A score that is found is one of the epochs. -/
theorem score_lt {pageCount score found : Nat} (hscore : score < 2 ^ 32) (hstamped : Stamped segs)
    (h : window isPinned n pageCount score segs = .found found) : found < 2 ^ 32 := by
  induction segs generalizing pageCount score with
  | nil => cases h
  | cons seg segs ih =>
    obtain ⟨hstamp, hstamps⟩ := stamped_cons.1 hstamped
    have hscore' : (if seg.memStatus = .used then max score seg.lastTouched else score) <
        2 ^ 32 := by
      split
      · exact Nat.max_lt.2 ⟨hscore, hstamp⟩
      · exact hscore
    rw [window] at h
    split at h
    · cases h
    · simp only at h
      split at h
      · cases h
        exact hscore'
      · exact ih hscore' hstamps h

/-- A search that gets to the end has not found enough pages on the way. -/
theorem sum_lt_of_pastEnd {pageCount score : Nat} {seg : Segment}
    (h : window isPinned n pageCount score (seg :: segs) = .pastEnd) :
    pageCount + ((seg :: segs).map Segment.numPages).sum < n := by
  induction segs generalizing pageCount score seg with
  | nil =>
    rw [window] at h
    split at h
    · cases h
    · simp only at h
      split at h
      · cases h
      · simp
        omega
  | cons next segs ih =>
    rw [window] at h
    split at h
    · cases h
    · simp only at h
      split at h
      · cases h
      · have hsum := ih h
        rw [map_cons, sum_cons]
        omega

/-- A search in one slab that finds nothing has passed no run. -/
theorem bestInSlab_none {slabNum : Nat} {best : Option Candidate} (hstamped : Stamped segs)
    (h : bestInSlab isPinned n slabNum best segs = none) :
    best = none ∧ ∀ before run after, segs = before ++ (run ++ after) → run ≠ [] →
      Evictable isPinned run → (run.map Segment.numPages).sum < n := by
  induction segs generalizing best with
  | nil =>
    refine ⟨h, fun before run after hsegs hrun _ => ?_⟩
    simp_all
  | cons seg segs ih =>
    obtain ⟨hstamp, hstamps⟩ := stamped_cons.1 hstamped
    have hzero : (0 : Nat) < 2 ^ 32 := Nat.two_pow_pos 32
    rw [bestInSlab] at h
    -- a run that starts here is found here
    have hhere : ∀ run after, seg :: segs = run ++ after → run ≠ [] → Evictable isPinned run →
        n ≤ (run.map Segment.numPages).sum →
        ∃ found, window isPinned n 0 0 (seg :: segs) = .found found := by
      intro run after hsegs hrun hevict hn
      have hrun' : Stamped run := (stamped_append.1 (hsegs ▸ hstamped)).1
      obtain ⟨found, hfound, -⟩ :=
        @window_found isPinned n 0 0 run after hrun hevict (by omega) hzero hrun'
      exact ⟨found, hsegs ▸ hfound⟩
    split at h
    · rename_i score hwindow
      obtain ⟨hbest, -⟩ := ih hstamps h
      -- the first one that is found is better than none
      have hscore := score_lt hzero hstamped hwindow
      split at hbest
      · cases hbest
      · rename_i hbetter
        subst hbest
        refine absurd (decide_eq_true ?_) hbetter
        omega
    · rename_i hwindow
      obtain ⟨hbest, hrest⟩ := ih hstamps h
      refine ⟨hbest, fun before run after hsegs hrun hevict => ?_⟩
      cases before with
      | nil =>
        by_contra hn
        obtain ⟨found, hfound⟩ := hhere run after hsegs hrun hevict (Nat.le_of_not_lt hn)
        rw [hwindow] at hfound
        cases hfound
      | cons x before =>
        exact hrest before run after (cons.inj hsegs).2 hrun hevict
    · rename_i hwindow
      refine ⟨h, fun before run after hsegs hrun hevict => ?_⟩
      -- there are not enough pages from here on
      have hsum := sum_lt_of_pastEnd hwindow
      rw [hsegs, map_append, map_append, sum_append, sum_append] at hsum
      omega

end BufferList

namespace BufferMgr

variable {cfg : Config} {mgr : BufferMgr} {n : Nat}

theorem bestEviction_none {slabNum : Nat} {best : Option BufferList.Candidate}
    {slabs : List Slab} (hstamped : ∀ slab ∈ slabs, Stamped slab.segs)
    (h : mgr.bestEviction n slabNum best slabs = none) :
    best = none ∧ ∀ slab ∈ slabs, ¬mgr.HasRun n slab := by
  induction slabs generalizing slabNum best with
  | nil => exact ⟨h, fun slab hslab => by cases hslab⟩
  | cons slab slabs ih =>
    obtain ⟨hstamp, hstamps⟩ := forall_mem_cons.1 hstamped
    obtain ⟨hbest, hrest⟩ := ih hstamps h
    obtain ⟨hnone, hruns⟩ := BufferList.bestInSlab_none hstamp hbest
    refine ⟨hnone, forall_mem_cons.2 ⟨?_, hrest⟩⟩
    rintro ⟨before, run, after, hsegs, hrun, hevict, hn⟩
    exact absurd (hruns before run after hsegs hrun hevict) (Nat.not_lt_of_le hn)

/-- A run has no more pages than its slab. -/
theorem HasRun.le (hg : Grounded cfg mgr) {slab : Slab} (hslab : slab ∈ mgr.slabs)
    (h : mgr.HasRun n slab) : n ≤ slab.numPages := by
  obtain ⟨before, run, after, hsegs, -, -, hn⟩ := h
  have htiles := (hg.sound.tiled slab hslab).eq_add_sum
  rw [hsegs, map_append, map_append, sum_append, sum_append] at htiles
  omega

-- ======== findFreeBuffer

/-- What was found is evicted. -/
theorem evict_ok (hs : Sound mgr.slabs mgr.unsizedSegs mgr.nextAddr) {slabNum score : Nat}
    {slab : Slab} {before rest : BufferList} {seg : Segment}
    (hslab : mgr.slabs[slabNum]? = some slab) (hsegs : slab.segs = before ++ seg :: rest)
    (hwindow : BufferList.window mgr.isPinned n 0 0 (seg :: rest) = .found score) :
    ∃ found, mgr.evict seg.addr n slabNum = .ok found := by
  obtain ⟨erased, total, left, hloop⟩ := BufferList.evictLoop_of_window hwindow
  unfold evict
  rw [hslab]
  simp only
  rw [split_slab hs hslab hsegs]
  simp only
  rw [hloop]
  exact ⟨_, rfl⟩

/-- What the last part finds, if there is a slab to search. -/
theorem findByEviction_found (hg : Grounded cfg mgr)
    (hslab : mgr.slabs = [] → mgr.allocationsCapped = true) :
    (∃ addr mgr', mgr.findByEviction n = .ok (addr, mgr') ∧ mgr'.Hands n addr) ∨
      mgr.findByEviction n = .error (.outOfMemory mgr) ∧
        ∀ slab ∈ mgr.slabs, ¬mgr.HasRun n slab := by
  unfold BufferMgr.findByEviction
  split
  · rename_i hfirst
    refine .inr ⟨rfl, fun slab hslab _ => ?_⟩
    -- a slab would have a page
    have hpos := hg.filled (hg.capped hfirst.2) slab hslab
    have hcount := hg.counted ▸ hfirst.1
    have hzero := List.sum_eq_zero_iff_forall_eq_nat.1 hcount slab.numPages
      (mem_map_of_mem hslab)
    omega
  · rename_i hnot
    split
    · rename_i hempty
      have hzero : mgr.numPagesAllocated = 0 := by
        rw [hg.counted, hempty]
        rfl
      exact absurd ⟨hzero, hslab hempty⟩ hnot
    · split
      · rename_i hbest
        have hstamped : ∀ slab ∈ mgr.slabs, Stamped slab.segs := fun slab hslab => by
          obtain ⟨slabNum, hslabNum⟩ := getElem?_of_mem hslab
          exact hg.stamped_slab hslabNum
        exact .inr ⟨rfl, (bestEviction_none hstamped hbest).2⟩
      · rename_i best hbest
        rcases bestEviction_some hbest with hnone | hfound
        · cases hnone
        · obtain ⟨i, slab, before, seg, rest, score, hi, hnum, hsegs, haddr, hwindow⟩ := hfound
          rw [Nat.zero_add] at hnum
          obtain ⟨⟨addr, mgr'⟩, hevict⟩ := evict_ok hg.sound hi hsegs hwindow
          rw [← haddr, hnum]
          exact .inl ⟨addr, mgr', hevict, (hg.evict hevict).2⟩

/-- The first slab is read although there is none. -/
theorem findByEviction_slabless (hempty : mgr.slabs = [])
    (hopen : mgr.allocationsCapped = false) : mgr.findByEviction n = .error .undefined := by
  have hnot : ¬(mgr.numPagesAllocated = 0 ∧ mgr.allocationsCapped = true) := by
    rintro ⟨-, hcapped⟩
    rw [hopen] at hcapped
    cases hcapped
  rw [BufferMgr.findByEviction, if_neg hnot, if_pos hempty]

variable {canAlloc : Nat → Bool}

/-- A pool without slabs has no free segment. -/
theorem takeFree_of_nil (h : mgr.slabs = []) (first : Nat) : mgr.takeFree first n = none := by
  unfold takeFree
  rw [h, drop_nil]
  rfl

/-- What the loop says of a pool that is not closed. -/
theorem search_tells (hopen : ¬mgr.Closed cfg) :
    Tells cfg canAlloc n (mgr.slabLimit cfg) (addSlabLoop cfg canAlloc n mgr.numPagesAllocated
      mgr.currentMaxSlabPageSize mgr.allocationsCapped) := by
  unfold Closed at hopen
  rw [not_or, Bool.not_eq_true, Nat.not_le] at hopen
  rw [hopen.1]
  exact addSlabLoop_tells hopen.2

theorem search_closed (hclosed : mgr.Closed cfg) :
    addSlabLoop cfg canAlloc n mgr.numPagesAllocated mgr.currentMaxSlabPageSize
      mgr.allocationsCapped = ⟨none, mgr.currentMaxSlabPageSize, mgr.allocationsCapped⟩ :=
  addSlabLoop_closed hclosed

/-- The pool stays without a slab, and does not give up. -/
theorem search_stuck_iff (hg : Grounded cfg mgr) (hsmall : n ≤ cfg.maxNumPagesPerSlab)
    (hempty : mgr.slabs = []) :
    let search := addSlabLoop cfg canAlloc n mgr.numPagesAllocated mgr.currentMaxSlabPageSize
      mgr.allocationsCapped
    search.added = none ∧ search.allocationsCapped = false ↔ mgr.Slabless cfg canAlloc n := by
  have hzero : mgr.numPagesAllocated = 0 := by
    rw [hg.counted, hempty]
    rfl
  simp only [Slabless, hempty, hsmall, true_and]
  by_cases hclosed : mgr.Closed cfg
  · rw [search_closed hclosed]
    have hmax : mgr.allocationsCapped = false → cfg.maxNumPages = 0 := by
      intro hopen
      rcases hclosed with hcapped | hfull
      · rw [hopen] at hcapped
        cases hcapped
      · omega
    exact ⟨fun h => ⟨h.2, .inl (hmax h.2)⟩, fun h => ⟨rfl, h.1⟩⟩
  · have htells := @search_tells cfg mgr n canAlloc hclosed
    unfold Closed at hclosed
    rw [not_or, Bool.not_eq_true, Nat.not_le] at hclosed
    have hmax : cfg.maxNumPages ≠ 0 := by omega
    simp only [hclosed.1, hmax, false_or, true_and]
    rw [hclosed.1] at htells
    exact htells.stuck

/-- The pool gets a slab, or gives up for good, unless it is `Slabless`. -/
theorem getsSlab_iff (hg : Grounded cfg mgr) (hempty : mgr.slabs = []) :
    mgr.GetsSlab cfg canAlloc n ↔ ¬mgr.Slabless cfg canAlloc n := by
  unfold GetsSlab
  by_cases hbig : cfg.maxNumPagesPerSlab < n
  · exact iff_of_true (.inl hbig) fun h => Nat.not_le.2 hbig h.2.2.1
  · have hstuck := @search_stuck_iff cfg mgr n canAlloc hg (Nat.not_lt.1 hbig) hempty
    dsimp only at hstuck ⊢
    rw [← hstuck]
    simp only [hbig, false_or, ne_eq, not_and_or, Bool.not_eq_false]

theorem noSlab_of_none (hadded : (addSlabLoop cfg canAlloc n mgr.numPagesAllocated
      mgr.currentMaxSlabPageSize mgr.allocationsCapped).added = none) :
    mgr.NoSlab cfg canAlloc n := by
  by_cases hclosed : mgr.Closed cfg
  · exact .inr (.inl hclosed)
  · exact .inr (.inr ((search_tells hclosed).refused hadded))

theorem freeBufferFound_iff_of_grounded (hg : Grounded cfg mgr) (canAlloc : Nat → Bool)
    (n : Nat) : mgr.FreeBufferFound cfg canAlloc n ↔ ¬mgr.Slabless cfg canAlloc n := by
  unfold FreeBufferFound findFreeBuffer
  split
  · -- the request is larger than any slab
    rename_i hbig
    refine iff_of_true ⟨fun slab hslab hrun => ?_, .inl hbig⟩ fun h => ?_
    · have hle := hrun.le hg hslab
      have hsmall := hg.small slab hslab
      omega
    · exact absurd h.2.2.1 (Nat.not_le_of_lt hbig)
  · rename_i hsmall
    have hsmall := Nat.le_of_not_lt hsmall
    split
    · rename_i found htake
      refine iff_of_true (hg.takeFree htake).2 fun h => ?_
      rw [takeFree_of_nil h.1] at htake
      cases htake
    · have hsearched := hg.searched canAlloc n
      have hstuck := @search_stuck_iff cfg mgr n canAlloc hg hsmall
      simp only at hstuck ⊢
      split
      · rename_i k hadded
        obtain ⟨-, -, -, hadd⟩ :=
          @addSlabLoop_bounds cfg canAlloc n mgr.numPagesAllocated _ _ hg.wide hg.capped
        obtain ⟨hle, hpos⟩ := hadd k hadded
        have hadded' := hsearched.addSlab (Nat.le_trans hle hg.currentMax) hpos
        obtain ⟨found, htake⟩ := @takeFree_addSlab (mgr.withSearch (addSlabLoop cfg canAlloc n
          mgr.numPagesAllocated mgr.currentMaxSlabPageSize mgr.allocationsCapped)) k n
          (le_of_added hadded)
        have htake' : (BufferMgr.addSlab _ k).takeFree mgr.slabs.length n = some found := htake
        rw [htake']
        refine iff_of_true (hadded'.takeFree htake).2 fun h => ?_
        have hnone := ((hstuck h.1).2 h).1
        rw [hadded] at hnone
        cases hnone
      · rename_i hadded
        by_cases hslabless : mgr.Slabless cfg canAlloc n
        · -- there is nothing to search, and it is searched
          have hopen := ((hstuck hslabless.1).2 hslabless).2
          rw [@findByEviction_slabless (mgr.withSearch _) n hslabless.1 hopen]
          exact iff_of_false id (not_not.2 hslabless)
        · have hcapped : mgr.slabs = [] → (addSlabLoop cfg canAlloc n mgr.numPagesAllocated
              mgr.currentMaxSlabPageSize mgr.allocationsCapped).allocationsCapped = true := by
            intro hempty
            have hnot := (not_congr (hstuck hempty)).2 hslabless
            rw [not_and, Bool.not_eq_false] at hnot
            exact hnot hadded
          rcases @findByEviction_found cfg _ n hsearched hcapped with
            ⟨addr, mgr', hok, hands⟩ | ⟨hoom, hruns⟩
          · rw [hok]
            exact iff_of_true hands hslabless
          · rw [hoom]
            exact iff_of_true ⟨hruns, noSlab_of_none hadded⟩ hslabless

theorem Calls.grounded (h : Calls cfg mgr) : Grounded cfg mgr := by
  cases h with
  | between h => exact reached_grounded h
  | creating h key pageSize => exact (reached_grounded h).insertUnsized key pageSize

/-- `findFreeBuffer` does what it should unless the pool has no slab, gets
none, and has not given up for good. -/
theorem freeBufferFound_iff (h : Calls cfg mgr) (canAlloc : Nat → Bool) (n : Nat) :
    mgr.FreeBufferFound cfg canAlloc n ↔ ¬mgr.Slabless cfg canAlloc n :=
  freeBufferFound_iff_of_grounded h.grounded canAlloc n

/-- In a pool with a slab, half of which is taken, a request of two pages
finds them. -/
theorem freeBufferFound_eightPages :
    halfTaken.slabs.map (fun slab => slab.segs.map Segment.numPages) = [[4, 4]]
      ∧ halfTaken.FreeBufferFound eightPages (fun _ => true) 2 := by
  have hslabs :
      halfTaken.slabs.map (fun slab => slab.segs.map Segment.numPages) = [[4, 4]] := by
    decide +kernel
  refine ⟨hslabs,
    (freeBufferFound_iff (.between reached_halfTaken) (fun _ => true) 2).2 fun h => ?_⟩
  rw [h.1] at hslabs
  cases hslabs

/-- A new pool of eight pages is asked for all of them and gets no slab: the
search for an eviction reads the first slab, which is not there. -/
theorem not_freeBufferFound : ¬∀ cfg mgr, Calls cfg mgr → ∀ canAlloc n, 0 < n →
    mgr.FreeBufferFound cfg canAlloc n := by
  intro h
  have hfound := h eightPages (init eightPages) (.between .start) (fun _ => false) 8 (by decide)
  revert hfound
  unfold FreeBufferFound
  have hundefined : (match (init eightPages).findFreeBuffer eightPages (fun _ => false) 8 with
    | .error .undefined => true
    | _ => false) = true := by decide +kernel
  revert hundefined
  cases (init eightPages).findFreeBuffer eightPages (fun _ => false) 8 with
  | ok found =>
    intro hundefined
    cases hundefined
  | error fault =>
    cases fault with
    | outOfMemory mgr' =>
      intro hundefined
      cases hundefined
    | check | evictsPinned | undefined => exact fun _ hfound => hfound

end BufferMgr

end Compass.BufferPool
