/-
Growing a buffer keeps the invariant.

The buffer stays in its segment, or the segment grows, or the buffer moves
to a segment handed out for it. In all three cases one segment of the
buffer takes the place of the other, with its key and its buffer; this is
`Inv.replaceOwner`.
-/
import Compass.BufferPool.Proofs.FindFree

namespace Compass.BufferPool

open List Function

namespace BufferMgr

variable {mgr mgr' : BufferMgr}

/-- The buffer `b` is found in `u` from now on, and no longer in `seg`. -/
theorem Inv.replaceOwner {hole : Option Nat} (hinv : Inv hole mgr)
    {seg u : Segment} {b : Nat} {buf : Buffer} (hseg : mgr.Used seg) (hhole : some seg.addr ≠ hole)
    (hb : seg.buffer = some b) (hsound : Sound mgr'.slabs mgr'.unsizedSegs mgr'.nextAddr)
    (halloc : mgr'.slabs = [] → mgr'.numPagesAllocated = 0)
    (hnext : mgr'.nextBuffer = mgr.nextBuffer) (hused : ∀ s, mgr'.Used s ↔ s = u
      ∨ mgr.Used s ∧ s.addr ≠ seg.addr ∧ some s.addr ≠ hole)
    (hkey : u.chunkKey = seg.chunkKey) (hub : u.buffer = some b)
    (hkeys : (mgr'.chunkIndex.map Prod.fst).Nodup)
    (hindex : ∀ k a, (k, a) ∈ mgr'.chunkIndex
      ↔ k = seg.chunkKey ∧ a = u.addr ∨ k ≠ seg.chunkKey ∧ (k, a) ∈ mgr.chunkIndex)
    (hbuffers : mgr'.buffers = update mgr.buffers b (some buf))
    (hit : buf.segIt = u.addr)
    (hmem : buf.mem = u.slabNum.map fun n => (n, u.startPage)) :
    Inv none mgr' := by
  have ho := hinv.owned seg hseg hhole
  obtain ⟨b₀, buf₀, hb₀, hbuf₀, hit₀, -⟩ := ho.buffer
  obtain rfl : b = b₀ := Option.some.inj (hb.symm.trans hb₀)
  refine ⟨hsound, halloc, ?_, hkeys, ?_, ?_⟩
  · intro b' hb'
    have hold := hinv.freshBuffer b' (hnext ▸ hb')
    have hne : b' ≠ b := by
      intro heq
      rw [heq, hbuf₀] at hold
      cases hold
    rw [hbuffers, update_of_ne hne, hold]
  · intro s hs _
    rcases (hused s).1 hs with rfl | ⟨hs₀, haddr, hne⟩
    · refine ⟨hkey ▸ ho.key, (hindex _ _).2 (Or.inl ⟨hkey, rfl⟩), b, buf, hub, ?_, hit, hmem⟩
      rw [hbuffers, update_self]
    · have hos := hinv.owned s hs₀ hne
      refine ⟨hos.key, ?_, ?_⟩
      · apply (hindex _ _).2
        refine Or.inr ⟨?_, hos.index⟩
        intro heq
        have hi := hos.index
        rw [heq] at hi
        exact haddr (StdMap.value_unique hinv.keys hi ho.index)
      · obtain ⟨bs, bufs, hbs, hbufs, hits, hmems⟩ := hos.buffer
        have hne' : bs ≠ b := by
          intro heq
          rw [heq, hbuf₀] at hbufs
          rw [← Option.some.inj hbufs, hit₀] at hits
          exact haddr hits.symm
        exact ⟨bs, bufs, hbs, by rw [hbuffers, update_of_ne hne', hbufs], hits, hmems⟩
  · intro k a hka
    refine ⟨by simp, ?_⟩
    rcases (hindex k a).1 hka with ⟨rfl, rfl⟩ | ⟨hne, hold⟩
    · exact ⟨u, (hused u).2 (Or.inl rfl), rfl, hkey⟩
    · obtain ⟨hah, s, hs, haddr, hsk⟩ := hinv.indexed k a hold
      refine ⟨s, (hused s).2 (Or.inr ⟨hs, ?_, haddr ▸ hah⟩), haddr, hsk⟩
      intro heq
      have := seg_unique hinv.sound.addrs hs.1 hseg.1 heq
      exact hne (hsk ▸ this ▸ rfl)

-- ======== modifySeg

/-- An assignment that leaves a segment where it is. -/
structure KeepsPlace (f : Segment → Segment) : Prop where
  addr : ∀ s, (f s).addr = s.addr
  startPage : ∀ s, (f s).startPage = s.startPage
  numPages : ∀ s, (f s).numPages = s.numPages
  memStatus : ∀ s, (f s).memStatus = s.memStatus
  slabNum : ∀ s, (f s).slabNum = s.slabNum

theorem KeepsPlace.onlyAt {f : Segment → Segment} (hf : KeepsPlace f) (a : Nat) :
    KeepsPlace fun s => if s.addr = a then f s else s := by
  constructor
  · intro s
    split
    · exact hf.addr s
    · rfl
  · intro s
    split
    · exact hf.startPage s
    · rfl
  · intro s
    split
    · exact hf.numPages s
    · rfl
  · intro s
    split
    · exact hf.memStatus s
    · rfl
  · intro s
    split
    · exact hf.slabNum s
    · rfl

theorem segs_modifySeg (a : Nat) (f : Segment → Segment) :
    (mgr.modifySeg a f).segs
      = mgr.segs.map fun s => if s.addr = a then f s else s := by
  unfold segs modifySeg
  rw [map_append, map_flatMap, flatMap_map]

section

variable (hs : Sound mgr.slabs mgr.unsizedSegs mgr.nextAddr)
include hs

theorem sound_modifySeg {f : Segment → Segment} (hf : KeepsPlace f) (a : Nat) :
    Sound (mgr.modifySeg a f).slabs (mgr.modifySeg a f).unsizedSegs
      (mgr.modifySeg a f).nextAddr := by
  have hg := hf.onlyAt a
  have hsegs := @segs_modifySeg mgr a f
  constructor
  · intro slab hslab
    obtain ⟨slab₀, hslab₀, rfl⟩ := mem_map.1 hslab
    exact (Tiling.tiles_map hg.startPage hg.numPages).2 (hs.tiled slab₀ hslab₀)
  · change ((mgr.modifySeg a f).segs.map Segment.addr).Nodup
    have haddrs : (mgr.modifySeg a f).segs.map Segment.addr
        = mgr.segs.map Segment.addr := by
      rw [hsegs, map_map]
      apply map_congr_left
      intro s _
      exact hg.addr s
    rw [haddrs]
    exact hs.addrs
  · intro s hs'
    have hmem : s ∈ (mgr.modifySeg a f).segs := hs'
    rw [hsegs] at hmem
    obtain ⟨s₀, hs₀, rfl⟩ := mem_map.1 hmem
    rw [hg.addr]
    exact hs.fresh s₀ hs₀
  · intro n slab hn s hs' hused
    have hn' := hn
    rw [modifySeg, getElem?_map] at hn'
    obtain ⟨slab₀, hslab₀, rfl⟩ := Option.map_eq_some_iff.1 hn'
    obtain ⟨s₀, hs₀, rfl⟩ := mem_map.1 hs'
    rw [hg.slabNum]
    rw [hg.memStatus] at hused
    exact hs.slabNums n slab₀ hslab₀ s₀ hs₀ hused
  · intro s hs'
    obtain ⟨s₀, hs₀, rfl⟩ := mem_map.1 hs'
    rw [hg.slabNum, hg.memStatus]
    exact hs.unsized s₀ hs₀

theorem used_modifySeg {f : Segment → Segment} (hf : KeepsPlace f) {seg : Segment}
    (hseg : mgr.Used seg) (s : Segment) :
    (mgr.modifySeg seg.addr f).Used s
      ↔ s = f seg ∨ mgr.Used s ∧ s.addr ≠ seg.addr := by
  unfold Used
  rw [segs_modifySeg, mem_map]
  constructor
  · intro h
    obtain ⟨⟨s₀, hs₀, heq⟩, hused⟩ := h
    split at heq
    · rename_i haddr
      rw [seg_unique hs.addrs hs₀ hseg.1 haddr] at heq
      exact Or.inl heq.symm
    · rename_i haddr
      subst heq
      exact Or.inr ⟨⟨hs₀, hused⟩, haddr⟩
  · intro h
    rcases h with rfl | ⟨hs₀, hne⟩
    · refine ⟨⟨seg, hseg.1, if_pos rfl⟩, ?_⟩
      rw [hf.memStatus]
      exact hseg.2
    · exact ⟨⟨s, hs₀.1, if_neg hne⟩, hs₀.2⟩

-- ======== growInPlace

theorem growInPlace_spec {seg : Segment} (hseg : mgr.Used seg) {numPagesRequested : Nat}
    (hge : seg.numPages ≤ numPagesRequested)
    (h : mgr.growInPlace seg numPagesRequested = some mgr') :
    Sound mgr'.slabs mgr'.unsizedSegs mgr'.nextAddr ∧ SameOwners mgr mgr'
      ∧ ∀ s, mgr'.Used s ↔ s = { seg with numPages := numPagesRequested }
        ∨ mgr.Used s ∧ s.addr ≠ seg.addr := by
  unfold growInPlace at h
  split at h
  · cases h
  · rename_i n hn
    split at h
    · cases h
    · rename_i slab hslab
      obtain ⟨segs', hgrow, rfl⟩ := Option.map_eq_some_iff.1 h
      have hin : ∀ s ∈ slab.segs, s ∈ mgr.segs := by
        intro s hs'
        apply mem_append_right
        exact mem_flatMap.2 ⟨slab, mem_of_getElem? hslab, hs'⟩
      have hpages : ∀ s ∈ slab.segs, s.addr = seg.addr →
          s.numPages ≤ numPagesRequested := by
        intro s hs' haddr
        rw [seg_unique hs.addrs (hin s hs') hseg.1 haddr]
        exact hge
      obtain ⟨before, s₀, next, next', after, hold, haddr, hfree, hfree', rfl, hw⟩ :=
        @BufferList.growInPlace_spec seg.addr numPagesRequested n mgr.nextAddr
          mgr.nextAddr slab.segs segs' hgrow hpages
      obtain rfl : s₀ = seg :=
        seg_unique hs.addrs (hin s₀ (by rw [hold]; simp)) hseg.1 haddr
      obtain ⟨others, hperm, hperm'⟩ := segs_replace hslab hold
      have hnodup := (hperm.map Segment.addr).nodup_iff.1 hs.addrs
      rw [map_append, nodup_append] at hnodup
      refine ⟨?_, sameOwners_setSegs _, ?_⟩
      · apply sound_rework hs hslab (Nat.le_refl _)
        rw [hold]
        exact hw.within before after
      · intro s
        unfold Used
        rw [(hperm' _).mem_iff, hperm.mem_iff]
        simp only [mem_append, mem_cons, not_mem_nil, or_false]
        constructor
        · intro h'
          obtain ⟨(hself | hnext) | hother, hused⟩ := h'
          · exact Or.inl hself
          · rw [hnext, hfree'] at hused
            cases hused
          · refine Or.inr ⟨⟨Or.inr hother, hused⟩, ?_⟩
            intro heq
            exact hnodup.2.2 s₀.addr (by simp) s.addr
              (mem_map_of_mem hother) heq.symm
        · intro h'
          rcases h' with rfl | ⟨⟨(hself | hnext) | hother, hused⟩, hne⟩
          · exact ⟨Or.inl (Or.inl rfl), hseg.2⟩
          · exact absurd (hself ▸ rfl) hne
          · rw [hnext, hfree] at hused
            cases hused
          · exact ⟨Or.inr hother, hused⟩

end

-- ======== relocate

/-- The buffer as it is once its segment has been replaced. -/
def movedTo (newSeg seg : Segment) (b : Nat) : Segment :=
  { newSeg with buffer := some b, chunkKey := seg.chunkKey }

theorem relocate_spec {newAddr : Nat} (hinv : Inv (some newAddr) mgr)
    {seg newSeg : Segment} {b : Nat} {buf : Buffer} (hseg : mgr.Used seg)
    (hne : seg.addr ≠ newAddr) (hb : seg.buffer = some b) (hbuf : mgr.buffers b = some buf)
    (hnew : mgr.Used newSeg) (hnewAddr : newSeg.addr = newAddr) :
    ∃ mgr', mgr.relocate seg.addr newAddr = .ok mgr'
      ∧ Sound mgr'.slabs mgr'.unsizedSegs mgr'.nextAddr
      ∧ (mgr'.slabs = [] → mgr'.numPagesAllocated = 0)
      ∧ mgr'.nextBuffer = mgr.nextBuffer
      ∧ (∀ s, mgr'.Used s ↔ s = movedTo newSeg seg b
        ∨ mgr.Used s ∧ s.addr ≠ seg.addr ∧ some s.addr ≠ some newAddr)
      ∧ mgr'.chunkIndex = StdMap.set mgr.chunkIndex seg.chunkKey newAddr
      ∧ mgr'.buffers = update mgr.buffers b (some { buf with
          mem := newSeg.slabNum.map fun n => (n, newSeg.startPage) }) := by
  subst hnewAddr
  have hderef : mgr.deref seg.addr = some seg :=
    (deref_eq_some hinv.sound.addrs).2 ⟨hseg.1, rfl⟩
  have hderef' : mgr.deref newSeg.addr = some newSeg :=
    (deref_eq_some hinv.sound.addrs).2 ⟨hnew.1, rfl⟩
  generalize hfdef : (fun s : Segment =>
    { s with buffer := some b, chunkKey := seg.chunkKey }) = f
  have hf : KeepsPlace f := by
    subst hfdef
    exact ⟨fun _ => rfl, fun _ => rfl, fun _ => rfl, fun _ => rfl, fun _ => rfl⟩
  have hfnew : f newSeg = movedTo newSeg seg b := by rw [← hfdef]; rfl
  have hsound := sound_modifySeg hinv.sound hf newSeg.addr
  have hused := used_modifySeg hinv.sound hf hnew
  generalize hbuf' : some { buf with
    mem := newSeg.slabNum.map fun n => (n, newSeg.startPage) } = buf'
  -- the old segment is still there when it is removed
  have hold : ((mgr.modifySeg newSeg.addr f).setBuffer b buf').Used seg :=
    (hused seg).2 (Or.inr ⟨hseg, hne⟩)
  obtain ⟨mgr₂, hremove, hsound₂, hsame, hused₂⟩ := @removeSegment_spec
    ((mgr.modifySeg newSeg.addr f).setBuffer b buf') hsound seg hold
  refine ⟨{ mgr₂ with
    chunkIndex := StdMap.set mgr₂.chunkIndex seg.chunkKey newSeg.addr },
    ?_, hsound₂, ?_, hsame.nextBuffer, ?_, ?_, hsame.buffers⟩
  · unfold relocate
    rw [hderef, hderef']
    simp only
    rw [hb]
    simp only
    rw [hbuf]
    simp only
    rw [hfdef, hbuf', hremove]
  · intro hempty
    have hslabs := hsame.slabs hempty
    have : mgr.slabs = [] := by simpa [setBuffer, modifySeg] using hslabs
    have hpages := hsame.numPages
    exact hpages.trans (hinv.allocated this)
  · intro s
    have hs : mgr₂.Used s ↔ _ := hused₂ s
    rw [show Used { mgr₂ with
      chunkIndex := StdMap.set mgr₂.chunkIndex seg.chunkKey newSeg.addr } s
      ↔ mgr₂.Used s from Iff.rfl, hs,
      show ((mgr.modifySeg newSeg.addr f).setBuffer b buf').Used s
        ↔ (mgr.modifySeg newSeg.addr f).Used s from Iff.rfl, hused s, hfnew]
    constructor
    · intro h
      obtain ⟨hself | ⟨hs₀, hs₁⟩, hs₂⟩ := h
      · exact Or.inl hself
      · exact Or.inr ⟨hs₀, hs₂, fun heq => hs₁ (Option.some.inj heq)⟩
    · intro h
      rcases h with rfl | ⟨hs₀, hs₁, hs₂⟩
      · exact ⟨Or.inl rfl, fun heq => hne heq.symm⟩
      · exact ⟨Or.inr ⟨hs₀, fun heq => hs₂ (congrArg some heq)⟩, hs₁⟩
  · change StdMap.set mgr₂.chunkIndex seg.chunkKey newSeg.addr = _
    rw [hsame.chunkIndex]
    rfl

-- ======== reserve

/-- Pinned buffers keep their keys, wherever they are now. -/
def Kept (mgr mgr' : BufferMgr) : Prop :=
  ∀ s, mgr.Used s → mgr.isPinned s = true →
    ∃ s', mgr'.Used s' ∧ s'.chunkKey = s.chunkKey ∧ s'.buffer = s.buffer

theorem isPinned_eq_true {seg : Segment} {b : Nat} {buf : Buffer}
    (hb : seg.buffer = some b) (hbuf : mgr.buffers b = some buf) :
    mgr.isPinned seg = true ↔ 0 < buf.pinCount := by
  simp [isPinned, hb, hbuf]

section Reserve

variable {cfg : Config} {canAlloc : Nat → Bool} {seg : Segment}
  {b numBytes : Nat} {buf : Buffer}

/-- The new segment of the buffer once `Buffer::reserve` has noted it. -/
theorem reserveBuffer_spec (hinv : Inv none mgr) (hseg : mgr.Used seg)
    (hb : seg.buffer = some b) (hbuf : mgr.buffers b = some buf) (hpin : 0 < buf.pinCount)
    (hfirst : mgr.slabs = [] →
      mgr.GetsSlab cfg canAlloc (pagesFor cfg.pageSize numBytes))
    (numPages : Nat) :
    (∃ addr mgr' buf', mgr.reserveBuffer cfg canAlloc seg.addr numBytes
        = .ok (addr, mgr') ∧ mgr'.buffers b = some buf'
        ∧ Inv none (mgr'.setBuffer b
          (some { buf' with segIt := addr, numPages := numPages }))
        ∧ Kept mgr mgr')
      ∨ ∃ search, mgr.reserveBuffer cfg canAlloc seg.addr numBytes
        = .error (.outOfMemory (mgr.withSearch search)) := by
  have hderef : mgr.deref seg.addr = some seg :=
    (deref_eq_some hinv.sound.addrs).2 ⟨hseg.1, rfl⟩
  have ho := hinv.owned seg hseg (by simp)
  obtain ⟨b₀, buf₀, hb₀, hbuf₀, hit, hmem⟩ := ho.buffer
  obtain rfl : b = b₀ := Option.some.inj (hb.symm.trans hb₀)
  obtain rfl : buf = buf₀ := Option.some.inj (hbuf.symm.trans hbuf₀)
  -- as long as the segment keeps its address, so does the index
  have hindex : ∀ k a, (k, a) ∈ mgr.chunkIndex
      ↔ k = seg.chunkKey ∧ a = seg.addr
        ∨ k ≠ seg.chunkKey ∧ (k, a) ∈ mgr.chunkIndex := by
    intro k a
    by_cases hk : k = seg.chunkKey
    · subst hk
      simp only [true_and, not_true_eq_false, ne_eq, false_and, or_false]
      constructor
      · intro hka
        exact StdMap.value_unique hinv.keys hka ho.index
      · intro ha
        rw [ha]
        exact ho.index
    · simp [hk]
  unfold reserveBuffer
  rw [hderef]
  simp only
  split
  · -- there are pages enough
    refine Or.inl ⟨seg.addr, mgr, buf, rfl, hbuf, ?_, fun s hs _ =>
      ⟨s, hs, rfl, rfl⟩⟩
    refine @Inv.replaceOwner mgr _ none hinv seg seg b
      { buf with segIt := seg.addr, numPages := numPages } hseg (by simp) hb
      hinv.sound hinv.allocated rfl ?_ rfl hb hinv.keys hindex rfl rfl hmem
    intro s
    constructor
    · intro hs
      by_cases haddr : s.addr = seg.addr
      · exact Or.inl (seg_unique hinv.sound.addrs hs.1 hseg.1 haddr)
      · exact Or.inr ⟨hs, haddr, by simp⟩
    · intro hs
      rcases hs with rfl | ⟨hs, -, -⟩
      · exact hseg
      · exact hs
  · rename_i hge
    split
    · -- the segment grows
      rename_i mgr₁ hgrow
      obtain ⟨hsound, hsame, hused⟩ :=
        growInPlace_spec hinv.sound hseg (by omega) hgrow
      have hbuf₁ : mgr₁.buffers b = some buf := by rw [hsame.buffers, hbuf]
      refine Or.inl ⟨seg.addr, mgr₁, buf, rfl, hbuf₁, ?_, ?_⟩
      · refine @Inv.replaceOwner mgr _ none hinv seg
          { seg with numPages := pagesFor cfg.pageSize numBytes } b
          { buf with segIt := seg.addr, numPages := numPages } hseg (by simp) hb
          hsound ?_ hsame.nextBuffer ?_ rfl hb ?_ ?_ ?_ rfl hmem
        · intro hempty
          exact hsame.numPages.trans (hinv.allocated (hsame.slabs hempty))
        · intro s
          rw [show (mgr₁.setBuffer b _).Used s ↔ mgr₁.Used s from Iff.rfl, hused s]
          simp
        · exact hsame.chunkIndex.symm ▸ hinv.keys
        · intro k a
          rw [show (mgr₁.setBuffer b _).chunkIndex = mgr.chunkIndex from
            hsame.chunkIndex]
          exact hindex k a
        · rw [← hsame.buffers]
          rfl
      · intro s hs _
        by_cases haddr : s.addr = seg.addr
        · rw [seg_unique hinv.sound.addrs hs.1 hseg.1 haddr]
          exact ⟨_, (hused _).2 (Or.inl rfl), rfl, rfl⟩
        · exact ⟨s, (hused s).2 (Or.inr ⟨hs, haddr⟩), rfl, rfl⟩
    · -- the buffer moves
      have hfind := @findFreeBuffer_spec mgr cfg canAlloc
        (pagesFor cfg.pageSize numBytes) hinv hfirst
      rcases hfind with ⟨newAddr, mgr₁, hok, hf⟩ | ⟨search, hoom⟩
      · rw [hok]
        simp only
        have hpinned : mgr.isPinned seg = true := (isPinned_eq_true hb hbuf).2 hpin
        have hseg₁ := hf.keeps seg hseg hpinned
        have hne := hf.other seg hseg
        obtain ⟨newSeg, n, hnew, hnewAddr, hnewSlab⟩ := hf.segment
        have hbuf₁ : mgr₁.buffers b = some buf := by rw [hf.buffers, hbuf]
        obtain ⟨mgr₂, hmove, hsound, halloc, hnext, hused, hidx, hbuffers⟩ :=
          relocate_spec hf.inv hseg₁ hne hb hbuf₁ hnew hnewAddr
        rw [hmove]
        have hbuf₂ := congrFun hbuffers b
        rw [update_self] at hbuf₂
        refine Or.inl ⟨newAddr, mgr₂, _, rfl, hbuf₂, ?_, ?_⟩
        · refine @Inv.replaceOwner mgr₁ _ _ hf.inv seg (movedTo newSeg seg b) b
            { buf with
              mem := newSeg.slabNum.map fun n => (n, newSeg.startPage)
              segIt := newAddr
              numPages := numPages }
            hseg₁ (fun heq => hne (Option.some.inj heq)) hb hsound halloc hnext
            hused rfl rfl ?_ ?_ ?_ hnewAddr.symm rfl
          · rw [show (mgr₂.setBuffer b _).chunkIndex = mgr₂.chunkIndex from rfl, hidx]
            exact StdMap.nodup_set hf.inv.keys _ _
          · intro k a
            rw [show (mgr₂.setBuffer b _).chunkIndex = mgr₂.chunkIndex from rfl,
              hidx, StdMap.mem_set, ← hnewAddr]
            rfl
          · rw [show (mgr₂.setBuffer b _).buffers
              = update mgr₂.buffers b _ from rfl, hbuffers,
              update_idem]
        · intro s hs hsp
          by_cases haddr : s.addr = seg.addr
          · rw [seg_unique hinv.sound.addrs hs.1 hseg.1 haddr]
            exact ⟨_, (hused _).2 (Or.inl rfl), rfl, hb.symm⟩
          · refine ⟨s, (hused s).2 (Or.inr ⟨hf.keeps s hs hsp, haddr, ?_⟩), rfl, rfl⟩
            intro heq
            exact hf.other s hs (Option.some.inj heq)
      · rw [hoom]
        exact Or.inr ⟨search, rfl⟩

theorem reserve_spec (hinv : Inv none mgr) (hseg : mgr.Used seg)
    (hb : seg.buffer = some b) (hbuf : mgr.buffers b = some buf) (hpin : 0 < buf.pinCount)
    (hfirst : mgr.FirstSlab cfg canAlloc buf.pageSize numBytes) :
    (∃ mgr', mgr.reserve cfg canAlloc b numBytes = .ok mgr' ∧ Inv none mgr'
        ∧ Kept mgr mgr')
      ∨ ∃ search, mgr.reserve cfg canAlloc b numBytes
        = .error (.outOfMemory (mgr.withSearch search)) := by
  obtain ⟨b₀, buf₀, hb₀, hbuf₀, hit, -⟩ := (hinv.owned seg hseg (by simp)).buffer
  obtain rfl : b = b₀ := Option.some.inj (hb.symm.trans hb₀)
  obtain rfl : buf = buf₀ := Option.some.inj (hbuf.symm.trans hbuf₀)
  unfold reserve
  rw [hbuf]
  simp only
  split
  · rename_i hmore
    rw [hit]
    have hfirst' : mgr.slabs = [] → mgr.GetsSlab cfg canAlloc
        (pagesFor cfg.pageSize
          (buf.pageSize * pagesFor buf.pageSize numBytes % 2 ^ 64)) := by
      intro hempty
      rcases hfirst hempty with hzero | hrest
      · omega
      · exact hrest
    rcases reserveBuffer_spec hinv hseg hb hbuf hpin hfirst'
      (pagesFor buf.pageSize numBytes) with
      ⟨addr, mgr₁, buf₁, hok, hbuf₁, hinv₁, hkept⟩ | ⟨search, hoom⟩
    · rw [hok]
      simp only
      rw [hbuf₁]
      exact Or.inl ⟨_, rfl, hinv₁, hkept⟩
    · rw [hoom]
      exact Or.inr ⟨search, rfl⟩
  · exact Or.inl ⟨mgr, rfl, hinv, fun s hs _ => ⟨s, hs, rfl, rfl⟩⟩

end Reserve

end BufferMgr

end Compass.BufferPool
