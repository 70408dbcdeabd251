/-
What the operations on one list of segments keep.

`Reworked` says it once for all of them: the new list tiles the same
pages, its addresses are those of the old list or new ones, and its used
segments know their slab. What differs is which segments are used
afterwards.
-/
import Compass.BufferPool.BufferMgr

namespace Compass.BufferPool

open Tiling List Option Prod

/-- `segs'` is `segs` with some segments cut, joined or replaced; new
segments have addresses from `lo` up to `hi`. -/
structure Reworked (slabNum lo hi : Nat) (segs segs' : BufferList) : Prop where
  tiles : ∀ a c, TilesPages a segs c → TilesPages a segs' c
  addrs : ∀ seg ∈ segs', seg.addr ∈ segs.map Segment.addr
    ∨ lo ≤ seg.addr ∧ seg.addr < hi
  nodup : (segs.map Segment.addr).Nodup → (∀ seg ∈ segs, seg.addr < lo) →
    (segs'.map Segment.addr).Nodup
  slabNums : (∀ seg ∈ segs, seg.memStatus = .used → seg.slabNum = some slabNum) →
    ∀ seg ∈ segs', seg.memStatus = .used → seg.slabNum = some slabNum

/-- A stretch of the list may be reworked on its own. -/
theorem Reworked.within {slabNum lo hi : Nat} {mid mid' : BufferList}
    (h : Reworked slabNum lo hi mid mid') (before after : BufferList) :
    Reworked slabNum lo hi (before ++ (mid ++ after)) (before ++ (mid' ++ after))
    where
  tiles := by
    intro a c htiles
    exact htiles.replace h.tiles
  addrs := by
    intro seg hseg
    simp only [map_append, mem_append] at hseg ⊢
    rcases hseg with hb | hm | ha
    · exact Or.inl (Or.inl (mem_map_of_mem hb))
    · rcases h.addrs seg hm with hold | hnew
      · exact Or.inl (Or.inr (Or.inl hold))
      · exact Or.inr hnew
    · exact Or.inl (Or.inr (Or.inr (mem_map_of_mem ha)))
  nodup := by
    intro hnodup hlt
    simp only [map_append, nodup_append, mem_append] at hnodup ⊢
    obtain ⟨hb, ⟨hm, ha, hma⟩, hbr⟩ := hnodup
    have hmid := h.nodup hm fun seg hseg => hlt seg (by simp [hseg])
    -- an address of the new stretch is one of the old stretch, or new
    have hnew : ∀ x ∈ mid'.map Segment.addr,
        x ∈ mid.map Segment.addr ∨ lo ≤ x := by
      intro x hx
      obtain ⟨seg, hseg, rfl⟩ := mem_map.1 hx
      rcases h.addrs seg hseg with hold | hfresh
      · exact Or.inl hold
      · exact Or.inr hfresh.1
    have hold : ∀ x, x ∈ before.map Segment.addr ∨ x ∈ after.map Segment.addr →
        x < lo := by
      intro x hx
      rcases hx with hx | hx
      · obtain ⟨seg, hseg, rfl⟩ := mem_map.1 hx
        exact hlt seg (by simp [hseg])
      · obtain ⟨seg, hseg, rfl⟩ := mem_map.1 hx
        exact hlt seg (by simp [hseg])
    refine ⟨hb, ⟨hmid, ha, ?_⟩, ?_⟩
    · intro x hx y hy heq
      subst heq
      rcases hnew x hx with hmem | hge
      · exact hma x hmem x hy rfl
      · have := hold x (Or.inr hy)
        omega
    · intro x hx y hy heq
      subst heq
      rcases hy with hy | hy
      · rcases hnew x hy with hmem | hge
        · exact hbr x hx x (Or.inl hmem) rfl
        · have := hold x (Or.inl hx)
          omega
      · exact hbr x hx x (Or.inr hy) rfl
  slabNums := by
    intro hslab seg hseg hused
    simp only [mem_append] at hseg
    rcases hseg with hb | hm | ha
    · exact hslab seg (by simp [hb]) hused
    · exact h.slabNums (fun seg hseg => hslab seg (by simp [hseg])) seg hm hused
    · exact hslab seg (by simp [ha]) hused

namespace BufferList

variable {segs before after : BufferList} {addr : Nat} {seg : Segment}

theorem split_eq_some (h : split addr segs = some (before, seg, after)) :
    segs = before ++ seg :: after ∧ seg.addr = addr := by
  induction segs generalizing before with
  | nil => cases h
  | cons x rest ih =>
    unfold split at h
    split at h
    · rename_i hx
      obtain ⟨rfl, rfl, rfl⟩ := h
      exact ⟨rfl, hx⟩
    · obtain ⟨p, hp, heq⟩ := map_eq_some_iff.1 h
      obtain ⟨before', seg', after'⟩ := p
      obtain ⟨rfl, rfl, rfl⟩ := heq
      obtain ⟨hrest, haddr⟩ := ih hp
      rw [hrest]
      exact ⟨rfl, haddr⟩

theorem split_of_mem (h : addr ∈ segs.map Segment.addr) :
    ∃ p, split addr segs = some p := by
  induction segs with
  | nil => cases h
  | cons x rest ih =>
    unfold split
    by_cases hx : x.addr = addr
    · exact ⟨_, if_pos hx⟩
    · rw [if_neg hx]
      rw [map_cons, mem_cons] at h
      rcases h with hhead | htail
      · exact absurd hhead.symm hx
      · obtain ⟨p, hp⟩ := ih htail
        exact ⟨_, by rw [hp]; rfl⟩

-- ======== a free segment taken

/-- The segment as `findFreeBufferInSlab` takes it. -/
def taken (seg : Segment) (slabNum numPagesRequested epoch : Nat) : Segment :=
  { seg with
    numPages := numPagesRequested
    memStatus := .used
    lastTouched := epoch
    slabNum := some slabNum }

theorem findFreeBufferInSlab_spec
    {slabNum numPagesRequested epoch newAddr : Nat} {segs' : BufferList}
    (h : findFreeBufferInSlab slabNum numPagesRequested epoch newAddr segs
      = some (addr, segs')) :
    ∃ before seg after spare, segs = before ++ ([seg] ++ after)
      ∧ seg.memStatus = .free ∧ seg.addr = addr
      ∧ segs' = before
        ++ (taken seg slabNum numPagesRequested epoch :: spare ++ after)
      ∧ (∀ s ∈ spare, s.memStatus = .free)
      ∧ Reworked slabNum newAddr (newAddr + 1) [seg]
        (taken seg slabNum numPagesRequested epoch :: spare) := by
  induction segs generalizing segs' with
  | nil => cases h
  | cons seg rest ih =>
    unfold findFreeBufferInSlab at h
    split at h
    · rename_i hfree
      simp only at h
      split at h
      · rename_i hexcess
        simp only [some.injEq, mk.injEq] at h
        refine ⟨[], seg, rest, [Segment.ofFree newAddr (seg.startPage + numPagesRequested)
            (seg.numPages - numPagesRequested)],
          rfl, hfree.1, h.1, h.2.symm, by simp [Segment.ofFree], ?_⟩
        constructor
        · intro a c htiles
          simp only [tiles_cons, tiles_nil, taken, Segment.ofFree] at htiles ⊢
          omega
        · intro s hs
          simp only [mem_cons, not_mem_nil, or_false] at hs
          rcases hs with rfl | rfl
          · exact Or.inl (by simp [taken])
          · exact Or.inr ⟨Nat.le_refl _, Nat.lt_succ_self _⟩
        · intro _ hlt
          have := hlt seg (by simp)
          simp only [map_cons, map_nil, nodup_cons, mem_singleton, taken, Segment.ofFree]
          exact ⟨by omega, by simp⟩
        · intro _ s hs hused
          simp only [mem_cons, not_mem_nil, or_false] at hs
          rcases hs with rfl | rfl
          · rfl
          · cases hused
      · rename_i hexcess
        simp only [some.injEq, mk.injEq] at h
        refine ⟨[], seg, rest, [], rfl, hfree.1, h.1, h.2.symm, by simp, ?_⟩
        constructor
        · intro a c htiles
          simp only [tiles_cons, tiles_nil, taken] at htiles ⊢
          omega
        · intro s hs
          simp only [mem_singleton] at hs
          subst hs
          exact Or.inl (by simp [taken])
        · intro _ _
          simp
        · intro _ s hs _
          simp only [mem_singleton] at hs
          subst hs
          rfl
    · obtain ⟨p, hp, heq⟩ := map_eq_some_iff.1 h
      obtain ⟨addr', rest'⟩ := p
      obtain ⟨rfl, rfl⟩ := heq
      obtain ⟨before, s, after, spare, rfl, hfree, hs, rfl, hspare, hwork⟩ :=
        ih hp
      exact ⟨seg :: before, s, after, spare, rfl, hfree, hs, rfl, hspare, hwork⟩

theorem split_append
    (hnodup : ((before ++ seg :: after).map Segment.addr).Nodup) :
    split seg.addr (before ++ seg :: after) = some (before, seg, after) := by
  induction before with
  | nil => simp [split]
  | cons x before ih =>
    rw [cons_append, map_cons, nodup_cons] at hnodup
    have hx : x.addr ≠ seg.addr := by
      intro heq
      apply hnodup.1
      rw [heq]
      simp
    rw [cons_append, split, if_neg hx, ih hnodup.2]
    rfl

-- ======== grown in place

theorem growInPlace_spec {addr numPagesRequested slabNum lo hi : Nat} {segs segs' : BufferList}
    (h : growInPlace addr numPagesRequested segs = some segs')
    (hge : ∀ seg ∈ segs, seg.addr = addr → seg.numPages ≤ numPagesRequested) :
    ∃ before seg next next' after, segs = before ++ ([seg, next] ++ after)
      ∧ seg.addr = addr ∧ next.memStatus = .free ∧ next'.memStatus = .free
      ∧ segs' = before
        ++ ([{ seg with numPages := numPagesRequested }, next'] ++ after)
      ∧ Reworked slabNum lo hi [seg, next]
        [{ seg with numPages := numPagesRequested }, next'] := by
  unfold growInPlace at h
  split at h
  · rename_i before seg next after hsplit
    obtain ⟨rfl, haddr⟩ := split_eq_some hsplit
    split at h
    · rename_i hfree
      simp only [some.injEq] at h
      refine ⟨before, seg, next, _, after, rfl, haddr, hfree.1, ?_, h.symm, ?_⟩
      · exact hfree.1
      · have hseg := hge seg (by simp) haddr
        constructor
        · intro a c htiles
          simp only [tiles_cons, tiles_nil] at htiles ⊢
          omega
        · intro s hs
          simp only [mem_cons, not_mem_nil, or_false] at hs
          rcases hs with rfl | rfl
          · exact Or.inl (by simp)
          · exact Or.inl (by simp)
        · intro hnodup _
          exact hnodup
        · intro hslab s hs hused
          simp only [mem_cons, not_mem_nil, or_false] at hs
          rcases hs with rfl | rfl
          · exact hslab seg (by simp) hused
          · exact hslab next (by simp) hused
    · cases h
  · cases h

-- ======== given back

theorem mergePrev_spec {before' : BufferList} {seg' : Segment}
    (h : mergePrev before seg = (before', seg')) :
    ∃ pre, before = before' ++ pre ∧ (∀ s ∈ pre, s.memStatus = .free)
      ∧ seg'.addr = seg.addr
      ∧ ∀ a c, TilesPages a (pre ++ [seg]) c → TilesPages a [seg'] c := by
  unfold mergePrev at h
  split at h
  · rename_i prev hprev
    split at h
    · rename_i hfree
      obtain ⟨rfl, rfl⟩ := h
      refine ⟨[prev], ?_, by simp [hfree], rfl, ?_⟩
      · obtain ⟨hne, hlast⟩ := getLast?_eq_some_iff.1 hprev
        rw [hlast]
        simp
      · intro a c htiles
        simp only [cons_append, nil_append, tiles_cons, tiles_nil]
          at htiles ⊢
        omega
    · simp only [mk.injEq] at h
      obtain ⟨rfl, rfl⟩ := h
      exact ⟨[], by simp, by simp, rfl, fun a c htiles => htiles⟩
  · simp only [mk.injEq] at h
    obtain ⟨rfl, rfl⟩ := h
    exact ⟨[], by simp, by simp, rfl, fun a c htiles => htiles⟩

theorem mergeNext_spec {after' : BufferList} {seg' : Segment}
    (h : mergeNext seg after = (seg', after')) :
    ∃ post, after = post ++ after' ∧ (∀ s ∈ post, s.memStatus = .free)
      ∧ seg'.addr = seg.addr
      ∧ ∀ a c, TilesPages a (seg :: post) c → TilesPages a [seg'] c := by
  unfold mergeNext at h
  split at h
  · simp only [mk.injEq] at h
    obtain ⟨rfl, rfl⟩ := h
    exact ⟨[], by simp, by simp, rfl, fun a c htiles => htiles⟩
  · rename_i next after
    split at h
    · rename_i hfree
      obtain ⟨rfl, rfl⟩ := h
      refine ⟨[next], rfl, by simp [hfree], rfl, ?_⟩
      intro a c htiles
      simp only [tiles_cons, tiles_nil] at htiles ⊢
      omega
    · simp only [mk.injEq] at h
      obtain ⟨rfl, rfl⟩ := h
      exact ⟨[], by simp, by simp, rfl, fun a c htiles => htiles⟩

/-- The segment given back and its free neighbours become one. -/
theorem removeSegment_spec {addr slabNum lo hi : Nat} {segs segs' : BufferList}
    (h : removeSegment addr segs = some segs') :
    ∃ before pre seg post after freed,
      segs = before ++ ((pre ++ seg :: post) ++ after) ∧ seg.addr = addr
        ∧ (∀ s ∈ pre ++ post, s.memStatus = .free)
        ∧ freed.memStatus = .free ∧ segs' = before ++ ([freed] ++ after)
        ∧ Reworked slabNum lo hi (pre ++ seg :: post) [freed] := by
  obtain ⟨p, hsplit, heq⟩ := map_eq_some_iff.1 h
  obtain ⟨before, seg, after⟩ := p
  obtain ⟨rfl, haddr⟩ := split_eq_some hsplit
  simp only at heq
  cases hprev : mergePrev before seg with
  | mk before' seg' =>
    rw [hprev] at heq
    cases hnext : mergeNext seg' after with
    | mk seg'' after' =>
      rw [hnext] at heq
      obtain ⟨pre, rfl, hpre, hpreAddr, hpreTiles⟩ := mergePrev_spec hprev
      obtain ⟨post, rfl, hpost, hpostAddr, hpostTiles⟩ := mergeNext_spec hnext
      refine ⟨before', pre, seg, post, after', _, by simp, haddr, ?_, ?_, heq.symm, ?_⟩
      · intro s hs
        rcases mem_append.1 hs with hs | hs
        · exact hpre s hs
        · exact hpost s hs
      · rfl
      · constructor
        · intro a c htiles
          have hsplit' : TilesPages a ((pre ++ [seg]) ++ post) c := by
            simpa using htiles
          obtain ⟨b, hfirst, hrest⟩ := tiles_append.1 hsplit'
          have hjoined : TilesPages a (seg' :: post) c :=
            tiles_append.2 ⟨b, hpreTiles a b hfirst, hrest⟩
          exact hpostTiles a c hjoined
        · intro s hs
          simp only [mem_singleton] at hs
          subst hs
          refine Or.inl ?_
          simp [hpostAddr, hpreAddr]
        · intro _ _
          simp
        · intro _ s hs hused
          simp only [mem_singleton] at hs
          subst hs
          cases hused

-- ======== evicted

section Evict

variable {isPinned : Segment → Bool} {numPagesRequested : Nat}

theorem evictLoop_enough {numPages total : Nat} {segs erased rest : BufferList}
    (h : evictLoop isPinned numPagesRequested numPages segs
      = .enough erased total rest) :
    segs = erased ++ rest
      ∧ (∀ s ∈ erased, s.memStatus = .used → isPinned s = false)
      ∧ total = numPages + (erased.map Segment.numPages).sum
      ∧ numPagesRequested ≤ total := by
  induction segs generalizing numPages erased with
  | nil =>
    unfold evictLoop at h
    split at h
    · cases h
    · simp only [Eviction.enough.injEq] at h
      obtain ⟨rfl, rfl, rfl⟩ := h
      exact ⟨rfl, by simp, by simp, by omega⟩
  | cons seg segs ih =>
    unfold evictLoop at h
    split at h
    · split at h
      · cases h
      · rename_i hunpinned
        cases hloop : evictLoop isPinned numPagesRequested
            (numPages + seg.numPages) segs with
        | enough erased' total' rest' =>
          rw [hloop] at h
          obtain ⟨rfl, rfl, rfl⟩ := h
          obtain ⟨rfl, hall, htotal, hle⟩ := ih hloop
          refine ⟨rfl, ?_, ?_, hle⟩
          · intro s hs hused
            rcases mem_cons.1 hs with hhead | htail
            · subst hhead
              simpa [hused] using hunpinned
            · exact hall s htail hused
          · rw [htotal, map_cons, sum_cons, Nat.add_assoc]
        | pinned | pastEnd =>
          rw [hloop] at h
          cases h
    · simp only [Eviction.enough.injEq] at h
      obtain ⟨rfl, rfl, rfl⟩ := h
      exact ⟨rfl, by simp, by simp, by omega⟩

/-- Where the search has found enough pages, the eviction finds them too. -/
theorem evictLoop_of_window {pageCount score found : Nat} {segs : BufferList}
    (h : window isPinned numPagesRequested pageCount score segs = .found found) :
    ∃ erased total rest, evictLoop isPinned numPagesRequested pageCount segs
        = .enough erased total rest := by
  induction segs generalizing pageCount score with
  | nil => cases h
  | cons seg segs ih =>
    unfold window at h
    unfold evictLoop
    split at h
    · cases h
    · rename_i hunpinned
      by_cases hmore : pageCount < numPagesRequested
      · rw [if_pos hmore, if_neg hunpinned]
        simp only at h
        split at h
        · rename_i henough
          -- the loop ends after this segment
          have hstop : ¬pageCount + seg.numPages < numPagesRequested := by omega
          cases segs with
          | nil =>
            refine ⟨[seg], pageCount + seg.numPages, [], ?_⟩
            rw [evictLoop, if_neg hstop]
            rfl
          | cons next segs =>
            refine ⟨[seg], pageCount + seg.numPages, next :: segs, ?_⟩
            rw [evictLoop, if_neg hstop]
            rfl
        · obtain ⟨erased, total, rest, hloop⟩ := ih h
          refine ⟨seg :: erased, total, rest, ?_⟩
          rw [hloop]
          rfl
      · rw [if_neg hmore]
        exact ⟨_, _, _, rfl⟩

/-- The segment that `evict` makes. -/
def dataSeg (startPage : Int) (numPagesRequested slabNum epoch newAddr : Nat) :
    Segment :=
  ⟨newAddr, startPage, numPagesRequested, .used, none, [], some slabNum, epoch⟩

theorem evictTail_used {startPage : Int} {total slabNum epoch newAddr : Nat}
    {rest : BufferList} {seg : Segment} (hused : seg.memStatus = .used) :
    seg ∈ evictTail startPage numPagesRequested total slabNum epoch newAddr rest
      ↔ seg = dataSeg startPage numPagesRequested slabNum epoch newAddr
        ∨ seg ∈ rest := by
  have hnotFree : ∀ s : Segment, s.memStatus = .free → seg ≠ s := by
    intro s hs heq
    rw [heq, hs] at hused
    cases hused
  unfold evictTail
  split
  · split
    · rename_i next after
      split
      · rename_i hfree
        have h1 := hnotFree next hfree
        have h2 := hnotFree { next with
          startPage := startPage + numPagesRequested
          numPages := next.numPages + (total - numPagesRequested) } hfree
        simp only [mem_cons, h1, h2, false_or]
        rfl
      · have h1 := hnotFree (Segment.ofFree (newAddr + 1)
          (startPage + numPagesRequested) (total - numPagesRequested)) rfl
        simp only [mem_cons, h1, false_or]
        rfl
    · have h1 := hnotFree (Segment.ofFree (newAddr + 1)
        (startPage + numPagesRequested) (total - numPagesRequested)) rfl
      simp only [mem_cons, h1, false_or]
      rfl
  · rw [mem_cons]
    rfl

theorem evictTail_tiles {startPage : Int} {total slabNum epoch newAddr : Nat}
    {erased rest : BufferList} {a c : Int} (htotal : total = (erased.map Segment.numPages).sum)
    (hle : numPagesRequested ≤ total) (hstart : startPage = a)
    (h : TilesPages a (erased ++ rest) c) :
    TilesPages a
      (evictTail startPage numPagesRequested total slabNum epoch newAddr rest)
      c := by
  obtain ⟨b, herased, hrest⟩ := tiles_append.1 h
  have hb := herased.eq_add_sum
  subst hstart
  unfold evictTail
  split
  · split
    · rename_i next after
      split
      · simp only [tiles_cons] at hrest ⊢
        obtain ⟨hnext, hafter⟩ := hrest
        refine ⟨trivial, trivial, ?_⟩
        have heq : startPage + (numPagesRequested : Int)
            + ((next.numPages + (total - numPagesRequested) : Nat) : Int)
            = b + next.numPages := by omega
        rw [heq]
        exact hafter
      · simp only [tiles_cons, Segment.ofFree] at hrest ⊢
        obtain ⟨hnext, hafter⟩ := hrest
        have heq : startPage + (numPagesRequested : Int)
            + ((total - numPagesRequested : Nat) : Int) = b := by omega
        rw [heq]
        exact ⟨trivial, trivial, hnext, hafter⟩
    · simp only [tiles_cons, tiles_nil, Segment.ofFree] at hrest ⊢
      refine ⟨trivial, trivial, ?_⟩
      omega
  · rename_i hnot
    have heq : startPage + (numPagesRequested : Int) = b := by omega
    simp only [tiles_cons]
    refine ⟨trivial, ?_⟩
    rw [heq]
    exact hrest

theorem evictTail_addrs {startPage : Int} {total slabNum epoch newAddr : Nat} {rest : BufferList} :
    ∃ fresh, ((evictTail startPage numPagesRequested total slabNum epoch newAddr
        rest).map Segment.addr) = newAddr :: fresh ++ rest.map Segment.addr
      ∧ (fresh = [] ∨ fresh = [newAddr + 1]) := by
  unfold evictTail
  split
  · split
    · split
      · exact ⟨[], rfl, Or.inl rfl⟩
      · exact ⟨[newAddr + 1], rfl, Or.inr rfl⟩
    · exact ⟨[newAddr + 1], rfl, Or.inr rfl⟩
  · exact ⟨[], rfl, Or.inl rfl⟩

theorem evictTail_reworked {total slabNum epoch newAddr : Nat}
    {evictStart : Segment} {after erased rest : BufferList}
    (hsegs : evictStart :: after = erased ++ rest)
    (htotal : total = (erased.map Segment.numPages).sum) (hle : numPagesRequested ≤ total) :
    Reworked slabNum newAddr (newAddr + 2) (evictStart :: after)
      (evictTail evictStart.startPage numPagesRequested total slabNum epoch
        newAddr rest) := by
  obtain ⟨fresh, haddrs, hfresh⟩ := @evictTail_addrs numPagesRequested
    evictStart.startPage total slabNum epoch newAddr rest
  constructor
  · intro a c htiles
    have hstart : evictStart.startPage = a := htiles.1
    rw [hsegs] at htiles
    exact evictTail_tiles htotal hle hstart htiles
  · intro seg hseg
    have hmem := mem_map_of_mem hseg (f := Segment.addr)
    rw [haddrs, cons_append, mem_cons, mem_append] at hmem
    rcases hmem with hnew | hnew | hold
    · exact Or.inr (by omega)
    · rcases hfresh with rfl | rfl
      · cases hnew
      · rw [mem_singleton] at hnew
        exact Or.inr (by omega)
    · left
      rw [hsegs, map_append]
      exact mem_append_right _ hold
  · intro hnodup hlt
    rw [hsegs, map_append, nodup_append] at hnodup
    have hold : ∀ x ∈ rest.map Segment.addr, x < newAddr := by
      intro x hx
      obtain ⟨seg, hseg, rfl⟩ := mem_map.1 hx
      exact hlt seg (hsegs ▸ mem_append_right _ hseg)
    rw [haddrs]
    rcases hfresh with rfl | rfl
    · apply nodup_cons.2
      refine ⟨?_, hnodup.2.1⟩
      intro hmem
      have := hold newAddr hmem
      omega
    · apply nodup_cons.2
      constructor
      · intro hmem
        rcases mem_cons.1 hmem with heq | hmem
        · omega
        · have := hold newAddr hmem
          omega
      · apply nodup_cons.2
        refine ⟨?_, hnodup.2.1⟩
        intro hmem
        have := hold (newAddr + 1) hmem
        omega
  · intro hslab seg hseg hused
    rcases (evictTail_used hused).1 hseg with rfl | hrest
    · rfl
    · exact hslab seg (hsegs ▸ mem_append_right _ hrest) hused

theorem bestInSlab_some {slabNum : Nat} {best : Option Candidate}
    {segs : BufferList} {cand : Candidate}
    (h : bestInSlab isPinned numPagesRequested slabNum best segs = some cand) :
    best = some cand ∨ cand.slabNum = slabNum
      ∧ ∃ before seg rest score, segs = before ++ seg :: rest
        ∧ seg.addr = cand.addr
        ∧ window isPinned numPagesRequested 0 0 (seg :: rest) = .found score := by
  induction segs generalizing best with
  | nil => exact Or.inl h
  | cons seg segs ih =>
    -- a candidate of the rest of the list is one of the list
    have hrest : ∀ best', bestInSlab isPinned numPagesRequested slabNum best' segs
        = some cand → best' = some cand ∨ cand.slabNum = slabNum
          ∧ ∃ before s rest score, seg :: segs = before ++ s :: rest
            ∧ s.addr = cand.addr
            ∧ window isPinned numPagesRequested 0 0 (s :: rest)
              = .found score := by
      intro best' hbest'
      rcases ih hbest' with hsame | ⟨hslab, before, s, rest, score, rfl, hs⟩
      · exact Or.inl hsame
      · exact Or.inr ⟨hslab, seg :: before, s, rest, score, rfl, hs⟩
    unfold bestInSlab at h
    split at h
    · rename_i score hwindow
      rcases hrest _ h with hbest | hlater
      · split at hbest
        · obtain rfl := some.inj hbest
          exact Or.inr ⟨rfl, [], seg, segs, score, rfl, rfl, hwindow⟩
        · exact Or.inl hbest
      · exact Or.inr hlater
    · exact hrest best h
    · exact Or.inl h

end Evict

end BufferList

end Compass.BufferPool
