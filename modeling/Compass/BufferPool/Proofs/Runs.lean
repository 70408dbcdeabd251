/-
The buffer pool keeps its invariant in every run.

Each operation is shown to end with the invariant, and with every pinned
buffer still under its key; then every state of a run has it. A run can
only go wrong through a step that does not meet the condition: a request
that is left without a first slab, a key that `evict` does not take out of
the index, or a key that is shorter than the prefix it is compared with.
-/
import Compass.BufferPool.Proofs.Reserve

namespace Compass.BufferPool

open List Option Function Nat Prod

namespace BufferMgr

variable {mgr mgr' : BufferMgr}

-- ======== removal

variable {seg : Segment}

/-- A segment, its key and its buffer are gone. -/
theorem Inv.remove (hinv : Inv none mgr) {b : Nat} (hseg : mgr.Used seg) (hb : seg.buffer = some b)
    (hsound : Sound mgr'.slabs mgr'.unsizedSegs mgr'.nextAddr)
    (halloc : mgr'.slabs = [] → mgr'.numPagesAllocated = 0)
    (hnext : mgr'.nextBuffer = mgr.nextBuffer)
    (hused : ∀ s, mgr'.Used s ↔ mgr.Used s ∧ s.addr ≠ seg.addr)
    (hindex : mgr'.chunkIndex = StdMap.erase mgr.chunkIndex seg.chunkKey)
    (hbuffers : mgr'.buffers = update mgr.buffers b none) : Inv none mgr' := by
  have ho := hinv.owned seg hseg (by simp)
  refine ⟨hsound, halloc, ?_, ?_, ?_, ?_⟩
  · intro b' hb'
    have hold := hinv.freshBuffer b' (hnext ▸ hb')
    rw [hbuffers]
    by_cases heq : b' = b
    · rw [heq, update_self]
    · rw [update_of_ne heq, hold]
  · rw [hindex]
    exact StdMap.nodup_erase hinv.keys _
  · intro s hs _
    obtain ⟨hs₀, haddr⟩ := (hused s).1 hs
    have hos := hinv.owned s hs₀ (by simp)
    refine ⟨hos.key, ?_, ?_⟩
    · rw [hindex, StdMap.mem_erase]
      refine ⟨hos.index, ?_⟩
      intro hkey
      exact haddr (congrArg Segment.addr (hinv.key_inj hs₀ hseg hkey))
    · obtain ⟨bs, bufs, hbs, hbufs, hits, hmems⟩ := hos.buffer
      obtain ⟨b₀, buf₀, hb₀, hbuf₀, hit₀, -⟩ := ho.buffer
      have hne : bs ≠ b := by
        intro heq
        rw [hb₀] at hb
        rw [heq, ← some.inj hb, hbuf₀] at hbufs
        rw [← some.inj hbufs, hit₀] at hits
        exact haddr hits.symm
      exact ⟨bs, bufs, hbs, by rw [hbuffers, update_of_ne hne, hbufs], hits, hmems⟩
  · intro k a hka
    rw [hindex, StdMap.mem_erase] at hka
    obtain ⟨-, s, hs, haddr, hkey⟩ := hinv.indexed k a hka.1
    refine ⟨by simp, s, (hused s).2 ⟨hs, ?_⟩, haddr, hkey⟩
    intro heq
    have := seg_unique hinv.sound.addrs hs.1 hseg.1 heq
    exact hka.2 (hkey ▸ this ▸ rfl)

/-- What is left when a segment has been dropped and removed; the index is
up to the caller. -/
structure Dropped (mgr mgr' : BufferMgr) (seg : Segment) (b : Nat) : Prop where
  sound : Sound mgr'.slabs mgr'.unsizedSegs mgr'.nextAddr
  slabs : mgr'.slabs = [] → mgr.slabs = []
  numPages : mgr'.numPagesAllocated = mgr.numPagesAllocated
  nextBuffer : mgr'.nextBuffer = mgr.nextBuffer
  used : ∀ s, mgr'.Used s ↔ mgr.Used s ∧ s.addr ≠ seg.addr
  buffers : mgr'.buffers = Function.update mgr.buffers b none

def clearBuffer (s : Segment) : Segment := { s with buffer := none }

theorem keepsPlace_clearBuffer : KeepsPlace clearBuffer :=
  ⟨fun _ => rfl, fun _ => rfl, fun _ => rfl, fun _ => rfl, fun _ => rfl⟩

section

variable (hs : Sound mgr.slabs mgr.unsizedSegs mgr.nextAddr)
include hs

/-- The segment without its buffer is given back. -/
theorem removeSegment_dropped {seg : Segment} {b : Nat} (hseg : mgr.Used seg) :
    ((mgr.setBuffer b none).modifySeg seg.addr clearBuffer).Used (clearBuffer seg)
      ∧ Sound ((mgr.setBuffer b none).modifySeg seg.addr clearBuffer).slabs
        ((mgr.setBuffer b none).modifySeg seg.addr clearBuffer).unsizedSegs
        ((mgr.setBuffer b none).modifySeg seg.addr clearBuffer).nextAddr
      ∧ ∃ mgr', ((mgr.setBuffer b none).modifySeg seg.addr
          clearBuffer).removeSegment seg.addr = .ok mgr'
        ∧ mgr'.chunkIndex = mgr.chunkIndex ∧ Dropped mgr mgr' seg b := by
  have hsound := @sound_modifySeg (mgr.setBuffer b none) hs clearBuffer
    keepsPlace_clearBuffer seg.addr
  have hused := @used_modifySeg (mgr.setBuffer b none) hs clearBuffer
    keepsPlace_clearBuffer seg hseg
  have hself := (hused (clearBuffer seg)).2 (Or.inl rfl)
  obtain ⟨mgr', hremove, hsound', hsame, hused'⟩ := removeSegment_spec hsound hself
  refine ⟨hself, hsound, mgr', hremove, hsame.chunkIndex, hsound', ?_,
    hsame.numPages, hsame.nextBuffer, ?_, hsame.buffers⟩
  · intro hempty
    simpa [setBuffer, modifySeg] using hsame.slabs hempty
  · intro s
    rw [hused' s, hused s]
    constructor
    · intro h
      obtain ⟨rfl | ⟨hs₀, -⟩, hne⟩ := h
      · exact absurd rfl hne
      · exact ⟨hs₀, hne⟩
    · intro h
      exact ⟨Or.inr h, h.2⟩

theorem dropBuffer_spec {seg : Segment} {b : Nat} (hseg : mgr.Used seg) (hb : seg.buffer = some b) :
    ∃ mgr₁ mgr', mgr.dropBuffer seg.addr = .ok mgr₁
      ∧ mgr₁.removeSegment seg.addr = .ok mgr'
      ∧ mgr'.chunkIndex = mgr.chunkIndex ∧ Dropped mgr mgr' seg b := by
  have hderef : mgr.deref seg.addr = some seg :=
    (deref_eq_some hs.addrs).2 ⟨hseg.1, rfl⟩
  obtain ⟨-, -, mgr', hremove, hrest⟩ := @removeSegment_dropped mgr hs seg b hseg
  refine ⟨_, mgr', ?_, hremove, hrest⟩
  unfold dropBuffer
  rw [hderef]
  simp only
  rw [hb]
  rfl

end

theorem Inv.dropped (hinv : Inv none mgr) {b : Nat} (hseg : mgr.Used seg) (hb : seg.buffer = some b)
    (h : Dropped mgr mgr' seg b)
    (hindex : mgr'.chunkIndex = StdMap.erase mgr.chunkIndex seg.chunkKey) : Inv none mgr' := by
  apply hinv.remove hseg hb h.sound ?_ h.nextBuffer h.used hindex h.buffers
  intro hempty
  exact h.numPages.trans (hinv.allocated (h.slabs hempty))

/-- A used segment and its buffer. -/
theorem Inv.bufferOf_used (hinv : Inv none mgr) (hseg : mgr.Used seg) :
    mgr.bufferOf seg.chunkKey = seg.buffer ∧ ∃ b buf, seg.buffer = some b
      ∧ mgr.buffers b = some buf := by
  have ho := hinv.owned seg hseg (by simp)
  obtain ⟨b, buf, hb, hbuf, -, -⟩ := ho.buffer
  refine ⟨?_, b, buf, hb, hbuf⟩
  unfold bufferOf
  rw [StdMap.find?_of_mem hinv.keys ho.index, bind_some,
    (deref_eq_some hinv.sound.addrs).2 ⟨hseg.1, rfl⟩, bind_some]

variable {key : ChunkKey}

/-- A key of the index has a used segment. -/
theorem Inv.used_of_key (hinv : Inv none mgr) (h : key ∈ mgr.chunkIndex.map fst) :
    ∃ seg, mgr.Used seg ∧ seg.chunkKey = key := by
  obtain ⟨⟨k, a⟩, hka, rfl⟩ := mem_map.1 h
  obtain ⟨-, seg, hseg, -, hkey⟩ := hinv.indexed k a hka
  exact ⟨seg, hseg, hkey⟩

theorem Inv.deleteBuffer_spec (hinv : Inv none mgr) (hseg : mgr.Used seg) :
    ∃ mgr', mgr.deleteBuffer seg.chunkKey = .ok mgr' ∧ Inv none mgr'
      ∧ (∀ s, mgr'.Used s ↔ mgr.Used s ∧ s.addr ≠ seg.addr)
      ∧ ∃ b, seg.buffer = some b
        ∧ mgr'.buffers = update mgr.buffers b none := by
  have ho := hinv.owned seg hseg (by simp)
  obtain ⟨-, b, buf, hb, -⟩ := hinv.bufferOf_used hseg
  obtain ⟨mgr₁, mgr₂, hdrop, hremove, hindex, hd⟩ := @dropBuffer_spec
    { mgr with chunkIndex := StdMap.erase mgr.chunkIndex seg.chunkKey }
    hinv.sound seg b hseg hb
  have hd' : Dropped mgr mgr₂ seg b :=
    ⟨hd.sound, hd.slabs, hd.numPages, hd.nextBuffer, hd.used, hd.buffers⟩
  refine ⟨mgr₂, ?_, hinv.dropped hseg hb hd' hindex, hd.used, b, hb, hd.buffers⟩
  unfold deleteBuffer
  rw [StdMap.find?_of_mem hinv.keys ho.index]
  simp only
  rw [hdrop]
  exact hremove

-- ======== deleteBuffersWithPrefix

/-- All entries of the loop are still in the index when it comes to them;
it reads one key too many, which is long enough. -/
theorem deletePrefixLoop_spec {keyPrefix : ChunkKey}
    (entries : List (ChunkKey × Nat)) (mgr : BufferMgr) (hinv : Inv none mgr)
    (hsub : ∀ kv ∈ entries, kv ∈ mgr.chunkIndex) (hnodup : (entries.map fst).Nodup)
    (hlast : ∀ kv, (entries.dropWhile fun kv =>
        startsWith keyPrefix kv.1 = some true).head? = some kv →
      keyPrefix.length ≤ kv.1.length) :
    ∃ mgr', deletePrefixLoop keyPrefix entries mgr = .ok mgr' ∧ Inv none mgr'
      ∧ ∀ s, mgr.Used s → startsWith keyPrefix s.chunkKey ≠ some true →
        mgr'.Used s := by
  induction entries generalizing mgr with
  | nil => exact ⟨mgr, rfl, hinv, fun s hs _ => hs⟩
  | cons kv rest ih =>
    obtain ⟨key, addr⟩ := kv
    unfold deletePrefixLoop
    cases hmatch : startsWith keyPrefix key with
    | none =>
      -- the key would be too short
      have hlen : keyPrefix.length ≤ key.length :=
        hlast (key, addr) (by simp [hmatch])
      unfold startsWith at hmatch
      rw [if_neg (by omega)] at hmatch
      cases hmatch
    | some found =>
      cases found with
      | false => exact ⟨mgr, rfl, hinv, fun s hs _ => hs⟩
      | true =>
        obtain ⟨-, seg, hseg, haddr, hkey⟩ :=
          hinv.indexed key addr (hsub _ mem_cons_self)
        obtain ⟨-, b, buf, hb, -⟩ := hinv.bufferOf_used hseg
        obtain ⟨mgr₁, mgr₂, hdrop, hremove, hindex, hd⟩ :=
          dropBuffer_spec hinv.sound hseg hb
        rw [haddr] at hdrop hremove
        have hinv' : Inv none { mgr₂ with
            chunkIndex := StdMap.erase mgr₂.chunkIndex key } := by
          have hd' : Dropped mgr { mgr₂ with
              chunkIndex := StdMap.erase mgr₂.chunkIndex key } seg b :=
            ⟨hd.sound, hd.slabs, hd.numPages, hd.nextBuffer, hd.used, hd.buffers⟩
          apply hinv.dropped hseg hb hd'
          rw [hindex, hkey]
        rw [map_cons, nodup_cons] at hnodup
        have hsub' : ∀ kv ∈ rest, kv ∈ StdMap.erase mgr₂.chunkIndex key := by
          intro kv hkv
          rw [StdMap.mem_erase, hindex]
          refine ⟨hsub _ (mem_cons_of_mem _ hkv), ?_⟩
          have hnot : key ∉ rest.map fst := hnodup.1
          intro heq
          apply hnot
          rw [← heq]
          exact mem_map_of_mem hkv (f := fst)
        have hlast' : ∀ kv, (rest.dropWhile fun kv =>
            startsWith keyPrefix kv.1 = some true).head? = some kv →
            keyPrefix.length ≤ kv.1.length := by
          intro kv hkv
          apply hlast kv
          rw [dropWhile_cons_of_pos (by simp [hmatch])]
          exact hkv
        obtain ⟨mgr₃, hloop, hinv₃, hkept⟩ :=
          ih _ hinv' hsub' hnodup.2 hlast'
        rw [hdrop]
        simp only
        rw [hremove]
        refine ⟨mgr₃, hloop, hinv₃, ?_⟩
        intro s hs hnot
        refine hkept s ((hd.used s).2 ⟨hs, ?_⟩) hnot
        intro heq
        rw [seg_unique hinv.sound.addrs hs.1 hseg.1 heq, hkey] at hnot
        exact hnot hmatch

-- ======== clearSlabs

/-- Pinned segments stay, and stay pinned. -/
def Spared (mgr mgr' : BufferMgr) : Prop :=
  ∀ s, mgr.Used s → mgr.isPinned s = true → mgr'.Used s ∧ mgr'.isPinned s = true

theorem clearSegment_spec (hinv : Inv none mgr) (addr : Nat) :
    ∃ mgr', mgr.clearSegment addr = .ok mgr' ∧ Inv none mgr'
      ∧ Spared mgr mgr' := by
  unfold clearSegment
  split
  · exact ⟨mgr, rfl, hinv, fun s hs hp => ⟨hs, hp⟩⟩
  · rename_i seg hderef
    obtain ⟨hmem, haddr⟩ := (deref_eq_some hinv.sound.addrs).1 hderef
    split
    · exact ⟨mgr, rfl, hinv, fun s hs hp => ⟨hs, hp⟩⟩
    · rename_i hused
      split
      · exact ⟨mgr, rfl, hinv, fun s hs hp => ⟨hs, hp⟩⟩
      · rename_i hunpinned
        have hseg : mgr.Used seg := by
          refine ⟨hmem, ?_⟩
          cases hstatus : seg.memStatus with
          | free => exact absurd hstatus hused
          | used => rfl
        obtain ⟨mgr', hdelete, hinv', hused', b, hb, hbuffers⟩ :=
          hinv.deleteBuffer_spec hseg
        refine ⟨mgr', hdelete, hinv', ?_⟩
        intro s hs hp
        have hne : s.addr ≠ seg.addr := by
          intro heq
          rw [seg_unique hinv.sound.addrs hs.1 hseg.1 heq] at hp
          exact hunpinned hp
        have hs' := (hused' s).2 ⟨hs, hne⟩
        refine ⟨hs', ?_⟩
        -- its buffer is not the one that was deleted
        obtain ⟨-, bs, bufs, hbs, hbufs⟩ := hinv.bufferOf_used hs
        obtain ⟨-, bs', bufs', hbs', hbufs'⟩ := hinv'.bufferOf_used hs'
        obtain rfl : bs = bs' := some.inj (hbs.symm.trans hbs')
        have hneb : bs ≠ b := by
          intro heq
          rw [heq, hbuffers, update_self] at hbufs'
          cases hbufs'
        rw [isPinned_eq_true hbs hbufs] at hp
        apply (isPinned_eq_true hbs ?_).2 hp
        rw [hbuffers, update_of_ne hneb, hbufs]

theorem clearSlabs_spec (hinv : Inv none mgr) :
    ∃ mgr', mgr.clearSlabs = .ok mgr' ∧ Inv none mgr' ∧ Spared mgr mgr' := by
  unfold clearSlabs
  generalize (mgr.slabs.flatMap Slab.segs).map Segment.addr = addrs
  induction addrs generalizing mgr with
  | nil => exact ⟨mgr, rfl, hinv, fun s hs hp => ⟨hs, hp⟩⟩
  | cons addr addrs ih =>
    obtain ⟨mgr₁, hclear, hinv₁, hspared₁⟩ := clearSegment_spec hinv addr
    obtain ⟨mgr₂, hrest, hinv₂, hspared₂⟩ := ih hinv₁
    refine ⟨mgr₂, ?_, hinv₂, ?_⟩
    · rw [foldlM_cons, hclear]
      exact hrest
    · intro s hs hp
      obtain ⟨hs₁, hp₁⟩ := hspared₁ s hs hp
      exact hspared₂ s hs₁ hp₁

-- ======== createBuffer

/-- The segment of a new key. -/
def unsizedSeg (mgr : BufferMgr) (key : ChunkKey) : Segment :=
  ⟨mgr.nextAddr, -1, 0, .used, some mgr.nextBuffer, key, none, 0⟩

theorem used_insertUnsized (key : ChunkKey) (pageSize : Nat) (s : Segment) :
    (mgr.insertUnsized key pageSize).Used s ↔ s = mgr.unsizedSeg key ∨ mgr.Used s := by
  unfold Used segs insertUnsized
  simp only [mem_append, mem_singleton]
  constructor
  · intro h
    obtain ⟨(hold | hself) | hslab, hused⟩ := h
    · exact Or.inr ⟨Or.inl hold, hused⟩
    · exact Or.inl hself
    · exact Or.inr ⟨Or.inr hslab, hused⟩
  · intro h
    rcases h with rfl | ⟨hold | hslab, hused⟩
    · exact ⟨Or.inl (Or.inr rfl), rfl⟩
    · exact ⟨Or.inl (Or.inl hold), hused⟩
    · exact ⟨Or.inr hslab, hused⟩

theorem sound_insertUnsized (hs : Sound mgr.slabs mgr.unsizedSegs mgr.nextAddr) (key : ChunkKey) :
    Sound mgr.slabs (mgr.unsizedSegs ++ [mgr.unsizedSeg key])
      (mgr.nextAddr + 1) := by
  have hperm : ((mgr.unsizedSegs ++ [mgr.unsizedSeg key])
      ++ mgr.slabs.flatMap Slab.segs).Perm
      (mgr.unsizedSeg key :: (mgr.unsizedSegs ++ mgr.slabs.flatMap Slab.segs)) := by
    rw [append_assoc]
    exact perm_middle
  refine ⟨hs.tiled, ?_, ?_, hs.slabNums, ?_⟩
  · rw [(hperm.map Segment.addr).nodup_iff, map_cons, nodup_cons]
    refine ⟨?_, hs.addrs⟩
    intro hmem
    obtain ⟨s, hs', haddr⟩ := mem_map.1 hmem
    have hlt := hs.fresh s hs'
    have hnew : (mgr.unsizedSeg key).addr = mgr.nextAddr := rfl
    omega
  · intro s hs'
    rcases mem_cons.1 (hperm.mem_iff.1 hs') with rfl | hold
    · exact lt_succ_self _
    · have := hs.fresh s hold
      omega
  · intro s hs'
    rcases mem_append.1 hs' with hold | hself
    · exact hs.unsized s hold
    · rw [mem_singleton.1 hself]
      exact ⟨rfl, rfl⟩

theorem Inv.insertUnsized (hinv : Inv none mgr) (hkey : key ≠ [])
    (hfresh : key ∉ mgr.chunkIndex.map fst) (pageSize : Nat) :
    Inv none (mgr.insertUnsized key pageSize) := by
  have hused := @used_insertUnsized mgr key pageSize
  refine ⟨sound_insertUnsized hinv.sound key, hinv.allocated, ?_, ?_, ?_, ?_⟩
  · intro b hb
    have hnext : mgr.nextBuffer + 1 ≤ b := hb
    change update mgr.buffers mgr.nextBuffer _ b = none
    rw [update_of_ne (by omega)]
    exact hinv.freshBuffer b (by omega)
  · exact StdMap.nodup_set hinv.keys _ _
  · intro s hs _
    rcases (hused s).1 hs with rfl | hold
    · refine ⟨hkey, StdMap.mem_set.2 (Or.inl ⟨rfl, rfl⟩), mgr.nextBuffer, _, rfl,
        update_self _ _ _, rfl, rfl⟩
    · have ho := hinv.owned s hold (by simp)
      refine ⟨ho.key, StdMap.mem_set.2 (Or.inr ⟨?_, ho.index⟩), ?_⟩
      · intro heq
        exact hfresh (heq ▸ mem_map_of_mem ho.index)
      · obtain ⟨b, buf, hb, hbuf, hrest⟩ := ho.buffer
        refine ⟨b, buf, hb, ?_, hrest⟩
        have hne : b ≠ mgr.nextBuffer := by
          intro heq
          rw [heq, hinv.freshBuffer _ (Nat.le_refl _)] at hbuf
          cases hbuf
        change update mgr.buffers mgr.nextBuffer _ b = some buf
        rw [update_of_ne hne, hbuf]
  · intro k a hka
    refine ⟨by simp, ?_⟩
    rcases StdMap.mem_set.1 hka with ⟨rfl, rfl⟩ | ⟨-, hold⟩
    · exact ⟨mgr.unsizedSeg k, (hused _).2 (Or.inl rfl), rfl, rfl⟩
    · obtain ⟨-, s, hs, haddr, hsk⟩ := hinv.indexed k a hold
      exact ⟨s, (hused s).2 (Or.inr hs), haddr, hsk⟩

theorem isPinned_insertUnsized (hinv : Inv none mgr) {s : Segment}
    (hs : mgr.Used s) (hp : mgr.isPinned s = true) (key : ChunkKey)
    (pageSize : Nat) : (mgr.insertUnsized key pageSize).isPinned s = true := by
  obtain ⟨-, b, buf, hb, hbuf⟩ := hinv.bufferOf_used hs
  rw [isPinned_eq_true hb hbuf] at hp
  apply (isPinned_eq_true hb ?_).2 hp
  have hne : b ≠ mgr.nextBuffer := by
    intro heq
    rw [heq, hinv.freshBuffer _ (Nat.le_refl _)] at hbuf
    cases hbuf
  change update mgr.buffers mgr.nextBuffer _ b = some buf
  rw [update_of_ne hne, hbuf]

/-- The handler takes back what was inserted. -/
theorem undoCreate_spec (hinv : Inv none mgr) {seg : Segment} {b : Nat}
    (hseg : mgr.Used seg) (hb : seg.buffer = some b) :
    ∃ mgr', mgr.undoCreate seg.chunkKey b = .ok mgr' ∧ Inv none mgr'
      ∧ ∀ s, mgr'.Used s ↔ mgr.Used s ∧ s.addr ≠ seg.addr := by
  have ho := hinv.owned seg hseg (by simp)
  obtain ⟨hself, hsound, -⟩ := @removeSegment_dropped mgr hinv.sound seg b hseg
  obtain ⟨-, -, mgr', hremove, hindex, hd⟩ := @removeSegment_dropped
    { mgr with chunkIndex := StdMap.erase mgr.chunkIndex seg.chunkKey }
    hinv.sound seg b hseg
  have hd' : Dropped mgr mgr' seg b :=
    ⟨hd.sound, hd.slabs, hd.numPages, hd.nextBuffer, hd.used, hd.buffers⟩
  refine ⟨mgr', ?_, hinv.dropped hseg hb hd' hindex, hd.used⟩
  have hfind := StdMap.find?_of_mem hinv.keys ho.index
  have hderef : ((mgr.setBuffer b none).modifySeg seg.addr clearBuffer).deref
      seg.addr = some (clearBuffer seg) :=
    (deref_eq_some hsound.addrs).2 ⟨hself.1, rfl⟩
  unfold undoCreate
  rw [hfind]
  change ((mgr.setBuffer b none).modifySeg seg.addr clearBuffer).deleteBuffer
    seg.chunkKey = .ok mgr'
  unfold deleteBuffer
  rw [show ((mgr.setBuffer b none).modifySeg seg.addr clearBuffer).chunkIndex
    = mgr.chunkIndex from rfl, hfind]
  simp only
  -- the segment has no buffer to delete
  unfold dropBuffer
  rw [show deref { (mgr.setBuffer b none).modifySeg seg.addr clearBuffer with
      chunkIndex := StdMap.erase mgr.chunkIndex seg.chunkKey } seg.addr
    = ((mgr.setBuffer b none).modifySeg seg.addr clearBuffer).deref seg.addr
    from rfl, hderef]
  exact hremove

variable {cfg : Config}

/-- A step has ended with the invariant, and has kept what it must. -/
structure Stepped (mgr : BufferMgr) (op : Op) (mgr' : BufferMgr) : Prop where
  inv : Inv none mgr'
  kept : ∀ s, mgr.Used s → mgr.isPinned s = true → ¬Deletes op s.chunkKey →
    ∃ s', mgr'.Used s' ∧ s'.chunkKey = s.chunkKey ∧ s'.buffer = s.buffer

/-- How a step may end. -/
def Ends (mgr : BufferMgr) (op : Op) : Except Fault BufferMgr → Prop
  | .ok mgr' => mgr.Stepped op mgr'
  | .error (.outOfMemory mgr') => mgr.Stepped op mgr'
  | .error .check => True
  | .error .evictsPinned => False
  | .error .undefined => False

section

variable (hinv : Inv none mgr)
include hinv

theorem createBuffer_ends {chunkPageSize initialSize : Nat} {canAlloc : Nat → Bool}
    (hmeets : mgr.Meets cfg (.createBuffer key chunkPageSize initialSize canAlloc)) :
    mgr.Ends (.createBuffer key chunkPageSize initialSize canAlloc)
      (mgr.createBuffer cfg canAlloc key chunkPageSize initialSize) := by
  obtain ⟨hkey, hfirst⟩ := hmeets
  unfold createBuffer
  simp only
  split
  · trivial
  · rename_i hnone
    have hfresh := StdMap.find?_eq_none hnone
    generalize (if chunkPageSize = 0 then cfg.pageSize else chunkPageSize)
      = pageSize at hfirst ⊢
    have hinv₁ := hinv.insertUnsized hkey hfresh pageSize
    have hused := @used_insertUnsized mgr key pageSize
    have hnew := (hused (mgr.unsizedSeg key)).2 (Or.inl rfl)
    split
    · exact ⟨hinv₁, fun s hs _ _ => ⟨s, (hused s).2 (Or.inr hs), rfl, rfl⟩⟩
    · have hbuf : (mgr.insertUnsized key pageSize).buffers mgr.nextBuffer
          = some ⟨mgr.nextAddr, pageSize, 0, 1, none⟩ := update_self _ _ _
      rcases @reserve_spec _ cfg canAlloc _ mgr.nextBuffer initialSize _ hinv₁ hnew
        rfl hbuf Int.one_pos hfirst with ⟨mgr₂, hok, hinv₂, hkept⟩ | ⟨search, hoom⟩
      · rw [hok]
        simp only
        split
        · trivial
        · refine ⟨hinv₂, ?_⟩
          intro s hs hp _
          exact hkept s ((hused s).2 (Or.inr hs))
            (isPinned_insertUnsized hinv hs hp key pageSize)
      · rw [hoom]
        simp only
        -- the segment of the new key is still the one that was inserted
        obtain ⟨mgr₃, hundo, hinv₃, hused₃⟩ := @undoCreate_spec
          ((mgr.insertUnsized key pageSize).withSearch search)
          (hinv₁.withSearch search) (mgr.unsizedSeg key) mgr.nextBuffer hnew rfl
        have hundo' : ((mgr.insertUnsized key pageSize).withSearch search).undoCreate
            key mgr.nextBuffer = .ok mgr₃ := hundo
        rw [hundo']
        refine ⟨hinv₃, ?_⟩
        intro s hs _ _
        refine ⟨s, (hused₃ s).2 ⟨(hused s).2 (Or.inr hs), ?_⟩, rfl, rfl⟩
        have hlt := hinv.sound.fresh s hs.1
        exact Nat.ne_of_lt hlt

theorem addPin_stepped {key : ChunkKey} {op : Op} (hmem : key ∈ mgr.chunkIndex.map fst) (n : Int) :
    ∃ mgr', mgr.addPin key n = .ok mgr' ∧ mgr.Stepped op mgr' := by
  obtain ⟨seg, hseg, rfl⟩ := hinv.used_of_key hmem
  obtain ⟨hof, b, buf, hb, hbuf⟩ := hinv.bufferOf_used hseg
  unfold addPin
  rw [hof, hb]
  simp only
  rw [hbuf]
  refine ⟨_, rfl, ?_, fun s hs _ _ => ⟨s, hs, rfl, rfl⟩⟩
  refine ⟨hinv.sound, hinv.allocated, ?_, hinv.keys, ?_, hinv.indexed⟩
  · intro b' hb'
    have hold := hinv.freshBuffer b' hb'
    have hne : b' ≠ b := by
      intro heq
      rw [heq, hbuf] at hold
      cases hold
    change update mgr.buffers b _ b' = none
    rw [update_of_ne hne, hold]
  · intro s hs _
    have hos := hinv.owned s hs (by simp)
    refine ⟨hos.key, hos.index, ?_⟩
    obtain ⟨bs, bufs, hbs, hbufs, hits, hmems⟩ := hos.buffer
    by_cases heq : bs = b
    · rw [heq, hbuf] at hbufs
      obtain rfl := some.inj hbufs
      exact ⟨b, _, heq ▸ hbs, update_self _ _ _, hits, hmems⟩
    · exact ⟨bs, bufs, hbs, by
        change update mgr.buffers b _ bs = some bufs
        rw [update_of_ne heq, hbufs], hits, hmems⟩

/-- A key whose buffer has a pin count has a used segment. -/
theorem used_of_pinCount {n : Int} (h : mgr.pinCountOf key = some n) :
    ∃ seg b buf, mgr.Used seg ∧ seg.chunkKey = key ∧ seg.buffer = some b
      ∧ mgr.buffers b = some buf ∧ buf.pinCount = n := by
  obtain ⟨buf, hbuf, hn⟩ := map_eq_some_iff.1 h
  obtain ⟨b, hb, hbuf⟩ := bind_eq_some_iff.1 hbuf
  obtain ⟨seg, hseg, hb⟩ := bind_eq_some_iff.1 hb
  obtain ⟨addr, hfind, hderef⟩ := bind_eq_some_iff.1 hseg
  have hmem := StdMap.find?_eq_some hfind
  obtain ⟨-, s, hs, haddr, hkey⟩ := hinv.indexed key addr hmem
  have hseg' : seg = s := by
    have hs' := (deref_eq_some hinv.sound.addrs).2 ⟨hs.1, haddr⟩
    exact some.inj (hderef.symm.trans hs')
  subst hseg'
  exact ⟨seg, b, buf, hs, hkey, hb, hbuf, hn⟩

theorem reserve_ends {numBytes : Nat} {canAlloc : Nat → Bool}
    (hallowed : mgr.Allowed (.reserve key numBytes canAlloc))
    (hmeets : mgr.Meets cfg (.reserve key numBytes canAlloc)) :
    mgr.Ends (.reserve key numBytes canAlloc)
      (mgr.step cfg (.reserve key numBytes canAlloc)) := by
  obtain ⟨n, hcount, hn⟩ := hallowed
  obtain ⟨seg, b, buf, hseg, rfl, hb, hbuf, rfl⟩ := used_of_pinCount hinv hcount
  have hof := (hinv.bufferOf_used hseg).1.trans hb
  unfold step
  simp only
  rw [hof]
  simp only
  rcases reserve_spec hinv hseg hb hbuf hn (hmeets b buf hof hbuf) with
    ⟨mgr', hok, hinv', hkept⟩ | ⟨search, hoom⟩
  · rw [hok]
    exact ⟨hinv', fun s hs hp _ => hkept s hs hp⟩
  · rw [hoom]
    exact ⟨hinv.withSearch search, fun s hs _ _ => ⟨s, hs, rfl, rfl⟩⟩

theorem deleteBuffer_ends (key : ChunkKey) :
    mgr.Ends (.deleteBuffer key) (mgr.deleteBuffer key) := by
  by_cases hmem : key ∈ mgr.chunkIndex.map fst
  · obtain ⟨seg, hseg, rfl⟩ := hinv.used_of_key hmem
    obtain ⟨mgr', hdelete, hinv', hused', -⟩ := hinv.deleteBuffer_spec hseg
    rw [hdelete]
    refine ⟨hinv', ?_⟩
    intro s hs _ hnot
    refine ⟨s, (hused' s).2 ⟨hs, ?_⟩, rfl, rfl⟩
    intro heq
    exact hnot (seg_unique hinv.sound.addrs hs.1 hseg.1 heq ▸ rfl)
  · unfold deleteBuffer
    cases hfind : StdMap.find? mgr.chunkIndex key with
    | none => trivial
    | some addr =>
      exact absurd (mem_map_of_mem (StdMap.find?_eq_some hfind)) hmem

/-- Every step that meets the condition ends as it should. -/
theorem step_ends {op : Op} (hallowed : mgr.Allowed op)
    (hmeets : mgr.Meets cfg op) : mgr.Ends op (mgr.step cfg op) := by
  cases op with
  | createBuffer key chunkPageSize initialSize canAlloc =>
    exact createBuffer_ends hinv hmeets
  | reserve key numBytes canAlloc => exact reserve_ends hinv hallowed hmeets
  | pin key =>
    obtain ⟨mgr', hok, hstepped⟩ := @addPin_stepped mgr hinv key (.pin key) hallowed 1
    rw [show mgr.step cfg (.pin key) = .ok mgr' from hok]
    exact hstepped
  | unPin key =>
    obtain ⟨mgr', hok, hstepped⟩ :=
      @addPin_stepped mgr hinv key (.unPin key) hallowed (-1)
    rw [show mgr.step cfg (.unPin key) = .ok mgr' from hok]
    exact hstepped
  | deleteBuffer key => exact deleteBuffer_ends hinv key
  | deleteBuffersWithPrefix keyPrefix =>
    have hsub := StdMap.lowerBound_sublist mgr.chunkIndex keyPrefix
    obtain ⟨mgr', hok, hinv', hkept⟩ := deletePrefixLoop_spec _ mgr hinv
      (fun kv hkv => hsub.subset hkv) (hinv.keys.sublist (hsub.map _)) hmeets
    rw [show mgr.step cfg (.deleteBuffersWithPrefix keyPrefix) = .ok mgr' from hok]
    exact ⟨hinv', fun s hs _ hnot => ⟨s, hkept s hs hnot, rfl, rfl⟩⟩
  | clearSlabs =>
    obtain ⟨mgr', hok, hinv', hspared⟩ := clearSlabs_spec hinv
    rw [show mgr.step cfg .clearSlabs = .ok mgr' from hok]
    exact ⟨hinv', fun s hs hp _ => ⟨s, (hspared s hs hp).1, rfl, rfl⟩⟩

-- ======== runs

omit hinv in
theorem inv_init (cfg : Config) : Inv none (init cfg) := by
  refine ⟨⟨?_, ?_, ?_, ?_, ?_⟩, fun _ => rfl, fun _ _ => rfl, ?_, ?_, ?_⟩
  · intro slab hslab
    cases hslab
  · exact nodup_nil
  · intro seg hseg
    cases hseg
  · intro n slab hslab
    simp [init] at hslab
  · intro seg hseg
    cases hseg
  · exact nodup_nil
  · intro seg hseg
    cases hseg.1
  · intro key addr hmem
    cases hmem

omit hinv in
/-- Every state of a run whose steps meet the condition has the invariant. -/
theorem reached_inv
    (h : Reached cfg (fun mgr op => mgr.Allowed op ∧ mgr.Meets cfg op) mgr) :
    Inv none mgr := by
  induction h with
  | start => exact inv_init cfg
  | ok _ hop hstep ih | threw _ hop hstep ih =>
    have hends := step_ends ih hop.1 hop.2
    rw [hstep] at hends
    exact hends.inv

theorem Inv.represents : mgr.Represents := by
  refine ⟨hinv.sound.tiled, hinv.keys, ?_, ?_⟩
  · intro key addr hmem
    obtain ⟨-, seg, hseg, haddr, hkey⟩ := hinv.indexed key addr hmem
    exact ⟨seg, (deref_eq_some hinv.sound.addrs).2 ⟨hseg.1, haddr⟩, hseg.2, hkey⟩
  · intro slab hslab seg hseg seg' hseg' key key' hkey hkey' hne
    apply (hinv.sound.tiled slab hslab).disjoint hseg hseg'
    intro heq
    subst heq
    -- one segment has one key
    have hin : seg ∈ mgr.segs :=
      mem_append_right _ (mem_flatMap.2 ⟨slab, hslab, hseg⟩)
    obtain ⟨-, s, hs, haddr, hk⟩ := hinv.indexed key _ hkey
    obtain ⟨-, s', hs', haddr', hk'⟩ := hinv.indexed key' _ hkey'
    rw [seg_unique hinv.sound.addrs hs.1 hin haddr] at hk
    rw [seg_unique hinv.sound.addrs hs'.1 hin haddr'] at hk'
    exact hne (hk.symm.trans hk')

theorem Stepped.keepsPinned {op : Op} (h : mgr.Stepped op mgr') : mgr.KeepsPinned op mgr' := by
  intro key n hcount hn hnot
  obtain ⟨seg, b, buf, hseg, rfl, hb, hbuf, rfl⟩ := used_of_pinCount hinv hcount
  obtain ⟨s', hs', hkey, hbuffer⟩ :=
    h.kept seg hseg ((isPinned_eq_true hb hbuf).2 hn) hnot
  rw [(hinv.bufferOf_used hseg).1, ← hkey, (h.inv.bufferOf_used hs').1, hbuffer]

end

/-- In every run whose steps meet the condition the pool keeps its
representation invariant, and no pinned buffer is evicted. -/
theorem runs_sound (cfg : Config) :
    RunsSound cfg fun mgr op => mgr.Allowed op ∧ mgr.Meets cfg op := by
  intro mgr hmgr
  have hinv := reached_inv hmgr
  refine ⟨hinv.represents, ?_⟩
  intro op hop
  have hends := step_ends hinv hop.1 hop.2
  unfold StepSound
  revert hends
  cases mgr.step cfg op with
  | ok mgr' => exact fun hends => hends.keepsPinned hinv
  | error fault =>
    cases fault with
    | outOfMemory mgr' => exact fun hends => hends.keepsPinned hinv
    | check => exact fun _ => trivial
    | evictsPinned | undefined => exact fun hends => hends

/-- The manager after a step that ends well. -/
def next (cfg : Config) (mgr : BufferMgr) (op : Op) : BufferMgr :=
  match mgr.step cfg op with
  | .ok mgr' => mgr'
  | .error _ => mgr

theorem Reached.next {P : BufferMgr → Op → Prop} {op : Op}
    (hmgr : Reached cfg P mgr) (hop : P mgr op)
    (hok : (mgr.step cfg op).toBool = true) : Reached cfg P (mgr.next cfg op) := by
  cases hstep : mgr.step cfg op with
  | ok mgr' =>
    unfold BufferMgr.next
    rw [hstep]
    exact Reached.ok hmgr hop hstep
  | error fault =>
    rw [hstep] at hok
    cases hok

/-- A pool of one page. -/
def onePage : Config := ⟨512, 512, 512⟩

/-- A buffer of one page, with all the memory there is. -/
def onePageBuffer (key : ChunkKey) : Op := .createBuffer key 512 512 fun _ => true

/-- A buffer comes and is unpinned. -/
def oneBuffer (key : ChunkKey) : BufferMgr :=
  ((init onePage).next onePage (onePageBuffer key)).next onePage (.unPin key)

/-- Another buffer comes, for which the first one has to go. -/
def twoBuffers (first second : ChunkKey) : BufferMgr :=
  (oneBuffer first).next onePage (onePageBuffer second)

theorem reached_oneBuffer {P : BufferMgr → Op → Prop} (key : ChunkKey)
    (hcreate : P (init onePage) (onePageBuffer key))
    (hunpin : P ((init onePage).next onePage (onePageBuffer key)) (.unPin key))
    (hok : ((init onePage).step onePage (onePageBuffer key)).toBool = true)
    (hok' : (((init onePage).next onePage (onePageBuffer key)).step onePage
      (.unPin key)).toBool = true) : Reached onePage P (oneBuffer key) :=
  (Reached.start.next hcreate hok).next hunpin hok'

theorem meets_onePageBuffer {mgr : BufferMgr} (hkey : key ≠ [])
    (hadded : mgr.slabs = [] → (addSlabLoop onePage (fun _ => true) 1
      mgr.numPagesAllocated mgr.currentMaxSlabPageSize
      mgr.allocationsCapped).added ≠ none) :
    mgr.Allowed (onePageBuffer key) ∧ mgr.Meets onePage (onePageBuffer key) :=
  ⟨trivial, hkey, fun hempty => Or.inr (Or.inr (Or.inl (hadded hempty)))⟩

theorem twoBuffers_represents : (twoBuffers [1] [2]).Represents := by
  have hunpin : [1] ∈ ((init onePage).next onePage
      (onePageBuffer [1])).chunkIndex.map Prod.fst := by decide +kernel
  have hone := reached_oneBuffer
    (P := fun mgr op => mgr.Allowed op ∧ mgr.Meets onePage op) [1]
    (meets_onePageBuffer (by decide) (by decide +kernel)) ⟨hunpin, trivial⟩
    (by decide +kernel) (by decide +kernel)
  have htwo : Reached onePage _ (twoBuffers [1] [2]) :=
    hone.next (meets_onePageBuffer (by decide) (by decide +kernel))
      (by decide +kernel)
  exact (runs_sound onePage _ htwo).1

/-- A pool of one slab of eight pages. -/
def eightPages : Config := ⟨512, 4096, 4096⟩

/-- The pool with a buffer of four pages. -/
def halfTaken : BufferMgr :=
  (init eightPages).next eightPages (.createBuffer [1] 512 2048 fun _ => true)

theorem reached_halfTaken : Reached eightPages Anything halfTaken :=
  Reached.start.next trivial (by decide +kernel)

/-- A buffer under the empty key is evicted and stays in the index; and a
pool whose first slab cannot be allocated reads a slab that is not there. -/
theorem runs_unsound :
    ¬RunsSound onePage (fun mgr op => mgr.Allowed op)
      ∧ ¬RunsSound eightPages (fun mgr op => mgr.Allowed op) := by
  constructor
  · intro h
    have hunpin : [] ∈ ((init onePage).next onePage
        (onePageBuffer [])).chunkIndex.map Prod.fst := by decide +kernel
    have hone := reached_oneBuffer (P := fun mgr op => mgr.Allowed op) []
      trivial hunpin (by decide +kernel) (by decide +kernel)
    have htwo : Reached onePage _ (twoBuffers [] [1]) :=
      hone.next trivial (by decide +kernel)
    obtain ⟨seg, hseg, -⟩ := (h _ htwo).1.indexed [] 1 (by decide +kernel)
    have hgone : (twoBuffers [] [1]).deref 1 = none := by decide +kernel
    rw [hgone] at hseg
    cases hseg
  · intro h
    have hsound := (h _ Reached.start).2
      (.createBuffer [1] 512 4096 fun _ => false) trivial
    unfold StepSound at hsound
    have hstep : (match (init eightPages).step eightPages
        (.createBuffer [1] 512 4096 fun _ => false) with
      | .error .undefined => true
      | _ => false) = true := by decide +kernel
    revert hsound hstep
    cases (init eightPages).step eightPages
      (.createBuffer [1] 512 4096 fun _ => false) with
    | ok mgr' =>
      intro _ hstep
      cases hstep
    | error fault =>
      cases fault with
      | undefined =>
        intro hsound _
        exact hsound
      | outOfMemory mgr' | check | evictsPinned =>
        intro _ hstep
        cases hstep

end BufferMgr

end Compass.BufferPool
