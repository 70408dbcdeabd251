/-
The invariant of the buffer pool.

`Sound` is about the segments alone: the segments of a slab tile it, all
addresses are different, and a used segment knows its slab. `Inv` adds who
owns what: every used segment belongs to a buffer that points back to it,
and is the one its key finds. While a segment has been taken for a buffer
but not been given to it yet, `hole` is its address.

Every operation is described by what it does to the used segments; the
free ones only matter for the tiling and the addresses.
-/
import Compass.BufferPool.Proofs.Segment

namespace Compass.BufferPool

open List

/-- What holds of the segments, whoever owns them. -/
structure Sound (slabs : List Slab) (unsizedSegs : BufferList) (nextAddr : Nat) :
    Prop where
  tiled : ∀ slab ∈ slabs, TilesPages 0 slab.segs slab.numPages
  addrs : ((unsizedSegs ++ slabs.flatMap Slab.segs).map Segment.addr).Nodup
  fresh : ∀ seg ∈ unsizedSegs ++ slabs.flatMap Slab.segs, seg.addr < nextAddr
  slabNums : ∀ (n : Nat) (slab : Slab), slabs[n]? = some slab → ∀ seg ∈ slab.segs,
    seg.memStatus = .used → seg.slabNum = some n
  unsized : ∀ seg ∈ unsizedSegs, seg.memStatus = .used ∧ seg.slabNum = none

namespace BufferMgr

variable {mgr mgr' : BufferMgr}

def Used (mgr : BufferMgr) (seg : Segment) : Prop :=
  seg ∈ mgr.segs ∧ seg.memStatus = .used

/-- The buffer of a segment, the key of which finds the segment. -/
structure Owned (mgr : BufferMgr) (seg : Segment) : Prop where
  key : seg.chunkKey ≠ []
  index : (seg.chunkKey, seg.addr) ∈ mgr.chunkIndex
  buffer : ∃ b buf, seg.buffer = some b ∧ mgr.buffers b = some buf
    ∧ buf.segIt = seg.addr
    ∧ buf.mem = seg.slabNum.map fun n => (n, seg.startPage)

structure Inv (hole : Option Nat) (mgr : BufferMgr) : Prop where
  sound : Sound mgr.slabs mgr.unsizedSegs mgr.nextAddr
  allocated : mgr.slabs = [] → mgr.numPagesAllocated = 0
  freshBuffer : ∀ b, mgr.nextBuffer ≤ b → mgr.buffers b = none
  keys : (mgr.chunkIndex.map Prod.fst).Nodup
  owned : ∀ seg, mgr.Used seg → some seg.addr ≠ hole → mgr.Owned seg
  indexed : ∀ key addr, (key, addr) ∈ mgr.chunkIndex → some addr ≠ hole
    ∧ ∃ seg, mgr.Used seg ∧ seg.addr = addr ∧ seg.chunkKey = key

-- ======== iterators

theorem seg_unique (h : (mgr.segs.map Segment.addr).Nodup) {s s' : Segment}
    (hs : s ∈ mgr.segs) (hs' : s' ∈ mgr.segs) (haddr : s.addr = s'.addr) :
    s = s' :=
  inj_on_of_nodup_map h hs hs' haddr

theorem deref_eq_some (h : (mgr.segs.map Segment.addr).Nodup) {addr : Nat} {seg : Segment} :
    mgr.deref addr = some seg ↔ seg ∈ mgr.segs ∧ seg.addr = addr := by
  unfold deref
  constructor
  · intro hfind
    exact ⟨mem_of_find?_eq_some hfind, by simpa using find?_some hfind⟩
  · intro hseg
    cases hfind : mgr.segs.find? fun s => s.addr = addr with
    | none =>
      rw [find?_eq_none] at hfind
      exact absurd (decide_eq_true hseg.2) (hfind seg hseg.1)
    | some s =>
      have hs : s.addr = addr := by simpa using find?_some hfind
      rw [seg_unique h (mem_of_find?_eq_some hfind) hseg.1
        (hs.trans hseg.2.symm)]

/-- A segment is not sized, or in the slab that it names. -/
theorem Used.place (hs : Sound mgr.slabs mgr.unsizedSegs mgr.nextAddr)
    {seg : Segment} (h : mgr.Used seg) :
    seg ∈ mgr.unsizedSegs ∧ seg.slabNum = none
      ∨ ∃ n slab, mgr.slabs[n]? = some slab ∧ seg ∈ slab.segs
        ∧ seg.slabNum = some n := by
  rcases mem_append.1 h.1 with hunsized | hsized
  · exact Or.inl ⟨hunsized, (hs.unsized seg hunsized).2⟩
  · obtain ⟨slab, hslab, hseg⟩ := mem_flatMap.1 hsized
    obtain ⟨n, hn⟩ := getElem?_of_mem hslab
    exact Or.inr ⟨n, slab, hn, hseg, hs.slabNums n slab hn seg hseg h.2⟩

-- ======== changes to a slab

/-- When a stretch of a slab is replaced, all other segments stay. -/
theorem segs_replace {n : Nat} {slab : Slab} {before mid after : BufferList}
    (hslab : mgr.slabs[n]? = some slab) (hsegs : slab.segs = before ++ (mid ++ after)) :
    ∃ others, mgr.segs.Perm (mid ++ others)
      ∧ ∀ mid', (mgr.setSegs n slab (before ++ (mid' ++ after))).segs.Perm
        (mid' ++ others) := by
  obtain ⟨hn, hget⟩ := List.getElem?_eq_some_iff.1 hslab
  have hslabs : mgr.slabs
      = mgr.slabs.take n ++ slab :: mgr.slabs.drop (n + 1) := by
    rw [← hget, getElem_cons_drop, take_append_drop]
  -- the stretch moves to the front
  have hfront : ∀ u l r stretch : BufferList,
      (u ++ (l ++ ((before ++ (stretch ++ after)) ++ r))).Perm
        (stretch ++ (u ++ (l ++ (before ++ (after ++ r))))) := by
    intro u l r stretch
    simp only [append_assoc]
    have h1 := (perm_append_comm_assoc before stretch (after ++ r))
    have h2 := (h1.append_left l).trans (perm_append_comm_assoc l stretch _)
    exact (h2.append_left u).trans (perm_append_comm_assoc u stretch _)
  refine ⟨mgr.unsizedSegs ++ ((mgr.slabs.take n).flatMap Slab.segs
    ++ (before ++ (after ++ (mgr.slabs.drop (n + 1)).flatMap Slab.segs))), ?_, ?_⟩
  · unfold segs
    rw [hslabs, flatMap_append, flatMap_cons, hsegs]
    rw [← hslabs]
    exact hfront _ _ _ mid
  · intro mid'
    unfold segs setSegs
    rw [set_eq_take_append_cons_drop, if_pos hn, flatMap_append, flatMap_cons]
    exact hfront _ _ _ mid'

/-- The segments stay sound when a slab is reworked. -/
theorem sound_rework (hs : Sound mgr.slabs mgr.unsizedSegs mgr.nextAddr)
    {n hi : Nat} {slab : Slab} {segs' : BufferList}
    (hslab : mgr.slabs[n]? = some slab) (hhi : mgr.nextAddr ≤ hi)
    (hw : Reworked n mgr.nextAddr hi slab.segs segs') :
    Sound (mgr.setSegs n slab segs').slabs mgr.unsizedSegs hi := by
  obtain ⟨others, hperm, hperm'⟩ :=
    @segs_replace mgr n slab [] slab.segs [] hslab (by simp)
  have hperm'' := hperm' segs'
  simp only [nil_append, append_nil] at hperm''
  have hold : ∀ x ∈ slab.segs ++ others, x.addr < mgr.nextAddr := fun x hx =>
    hs.fresh x (hperm.mem_iff.2 hx)
  have hnodup : ((slab.segs ++ others).map Segment.addr).Nodup :=
    (hperm.map Segment.addr).nodup_iff.1 hs.addrs
  have hmember : slab ∈ mgr.slabs := mem_of_getElem? hslab
  constructor
  · intro slab' hslab'
    rcases mem_or_eq_of_mem_set hslab' with hmem | heq
    · exact hs.tiled slab' hmem
    · subst heq
      exact hw.tiles _ _ (hs.tiled slab hmember)
  · apply (hperm''.map Segment.addr).nodup_iff.2
    have hwhole := (@Reworked.within n mgr.nextAddr hi slab.segs segs' hw [] others).nodup
    exact hwhole hnodup hold
  · intro seg hseg
    have hmem := hperm''.mem_iff.1 hseg
    rcases mem_append.1 hmem with hnew | hother
    · rcases hw.addrs seg hnew with hmap | hfresh
      · obtain ⟨s, hs', haddr⟩ := mem_map.1 hmap
        have := hold s (mem_append_left _ hs')
        omega
      · exact hfresh.2
    · have := hold seg (mem_append_right _ hother)
      omega
  · intro m slab' hm
    rw [setSegs, getElem?_set] at hm
    split at hm
    · rename_i heq
      subst heq
      split at hm
      · obtain rfl := Option.some.inj hm
        exact hw.slabNums (hs.slabNums n slab hslab)
      · cases hm
    · exact hs.slabNums m slab' hm
  · exact hs.unsized

-- ======== removeSegment

/-- What a change leaves alone. -/
structure SameOwners (mgr mgr' : BufferMgr) : Prop where
  chunkIndex : mgr'.chunkIndex = mgr.chunkIndex
  buffers : mgr'.buffers = mgr.buffers
  nextBuffer : mgr'.nextBuffer = mgr.nextBuffer
  slabs : mgr'.slabs = [] → mgr.slabs = []
  numPages : mgr'.numPagesAllocated = mgr.numPagesAllocated

theorem sameOwners_setSegs {n : Nat} {slab : Slab} (segs' : BufferList) :
    SameOwners mgr (mgr.setSegs n slab segs') := by
  refine ⟨rfl, rfl, rfl, ?_, rfl⟩
  intro h
  simpa [setSegs] using h

/-- A used segment given back is the only one that is used no longer. -/
theorem removeSegment_spec (hs : Sound mgr.slabs mgr.unsizedSegs mgr.nextAddr)
    {seg : Segment} (hseg : mgr.Used seg) :
    ∃ mgr', mgr.removeSegment seg.addr = .ok mgr'
      ∧ Sound mgr'.slabs mgr'.unsizedSegs mgr'.nextAddr
      ∧ SameOwners mgr mgr'
      ∧ ∀ s, mgr'.Used s ↔ mgr.Used s ∧ s.addr ≠ seg.addr := by
  have hderef : mgr.deref seg.addr = some seg :=
    (deref_eq_some hs.addrs).2 ⟨hseg.1, rfl⟩
  unfold removeSegment
  rw [hderef]
  simp only
  rcases hseg.place hs with ⟨hunsized, hnone⟩ | ⟨n, slab, hslab, hmem, hsome⟩
  · rw [hnone]
    refine ⟨_, rfl, ?_, ⟨rfl, rfl, rfl, fun h => h, rfl⟩, ?_⟩
    · have hsub : (mgr.unsizedSegs.filter (fun s => s.addr ≠ seg.addr)
          ++ mgr.slabs.flatMap Slab.segs).Sublist
          (mgr.unsizedSegs ++ mgr.slabs.flatMap Slab.segs) :=
        filter_sublist.append_right _
      constructor
      · exact hs.tiled
      · exact hs.addrs.sublist (hsub.map _)
      · intro s hs'
        exact hs.fresh s (hsub.subset hs')
      · exact hs.slabNums
      · intro s hs'
        exact hs.unsized s (mem_of_mem_filter hs')
    · intro s
      unfold Used segs
      simp only [mem_append, mem_filter, decide_eq_true_eq]
      constructor
      · intro h
        rcases h with ⟨⟨hu, hne⟩ | hslabs, hused⟩
        · exact ⟨⟨Or.inl hu, hused⟩, hne⟩
        · refine ⟨⟨Or.inr hslabs, hused⟩, ?_⟩
          -- a segment of a slab is not the one that is not sized
          have hdisjoint := hs.addrs
          rw [map_append, nodup_append] at hdisjoint
          intro heq
          exact hdisjoint.2.2 seg.addr (mem_map_of_mem hunsized) s.addr
            (mem_map_of_mem hslabs) heq.symm
      · intro h
        rcases h with ⟨⟨hu | hslabs, hused⟩, hne⟩
        · exact ⟨Or.inl ⟨hu, hne⟩, hused⟩
        · exact ⟨Or.inr hslabs, hused⟩
  · rw [hsome]
    simp only
    rw [hslab]
    simp only
    obtain ⟨p, hsplit⟩ := BufferList.split_of_mem
      (mem_map_of_mem hmem (f := Segment.addr))
    have hremove : ∃ segs', slab.segs.removeSegment seg.addr = some segs' :=
      ⟨_, by rw [BufferList.removeSegment, hsplit]; rfl⟩
    obtain ⟨segs', hsegs'⟩ := hremove
    obtain ⟨before, pre, s₀, post, after, freed, hold, haddr, hfree, hfreed, rfl,
      hw⟩ := @BufferList.removeSegment_spec seg.addr n mgr.nextAddr mgr.nextAddr
        slab.segs segs' hsegs'
    rw [hsegs']
    obtain ⟨others, hperm, hperm'⟩ := segs_replace hslab hold
    have hnodup := (hperm.map Segment.addr).nodup_iff.1 hs.addrs
    refine ⟨_, rfl, ?_, sameOwners_setSegs _, ?_⟩
    · apply sound_rework hs hslab (Nat.le_refl _)
      rw [hold]
      exact hw.within before after
    · intro s
      unfold Used
      rw [(hperm' [freed]).mem_iff, hperm.mem_iff]
      simp only [mem_append, mem_cons, not_mem_nil, or_false]
      constructor
      · intro h
        obtain ⟨hs' | hother, hused⟩ := h
        · rw [hs', hfreed] at hused
          cases hused
        · refine ⟨⟨Or.inr hother, hused⟩, ?_⟩
          rw [map_append, nodup_append] at hnodup
          intro heq
          exact hnodup.2.2 s₀.addr (mem_map_of_mem (by simp)) s.addr
            (mem_map_of_mem hother) (haddr.trans heq.symm)
      · intro h
        obtain ⟨⟨(hpre | hself | hpost) | hother, hused⟩, hne⟩ := h
        · have := hfree s (mem_append_left _ hpre)
          rw [this] at hused
          cases hused
        · exact absurd (hself ▸ haddr) hne
        · have := hfree s (mem_append_right _ hpost)
          rw [this] at hused
          cases hused
        · exact ⟨Or.inr hother, hused⟩

end BufferMgr

end Compass.BufferPool
