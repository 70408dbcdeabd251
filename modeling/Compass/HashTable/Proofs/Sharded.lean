/-
Slots of a sharded table are exact, if the two remainders of every key
agree.

They agree on keys that are not negative. On a negative key that the shard
count does not divide, the signed remainder is negative and becomes a
number near 2^32, which is no shard (`slotShard_neg`). Where they agree a
key is congruent to its shard, so that two keys of one shard have two
quotients, and the offset of a sub-buffer is not cut off.
-/
import Compass.HashTable.Sharded
import Mathlib.Data.Int.ModEq

namespace Compass.HashTable.Sharded

open List Option Nat

open Import (shardOf JoinColumnTypeInfo)

variable {n : Nat} {key : Int}

-- ======== remainders

theorem shardOf_lt (hn : 0 < n) (key : Int) : shardOf n key < n :=
  mod_lt _ hn

theorem slotShard_of_nonneg (hn : 0 < n) (hlt : n < 2 ^ 31) (hkey : 0 ≤ key) :
    slotShard n key = key.toNat % n := by
  have hmod : 0 ≤ key % n ∧ key % n < n :=
    ⟨Int.emod_nonneg _ (by omega), Int.emod_lt_of_pos _ (by omega)⟩
  have hcast : ((key.toNat % n : Nat) : Int) = key % n := by
    rw [Int.natCast_emod, Int.toNat_of_nonneg hkey]
  rw [slotShard, Int.tmod_eq_emod_of_nonneg hkey, Int.emod_eq_of_lt hmod.1 (by omega)]
  omega

theorem shardOf_of_nonneg (hkey : 0 ≤ key) (hlt : key < 2 ^ 63) :
    shardOf n key = key.toNat % n := by
  rw [shardOf, Int.emod_eq_of_lt hkey (by omega)]

/-- The signed remainder of a negative key, as a `uint32_t`. -/
theorem slotShard_neg (hn : 0 < n) (hlt : n < 2 ^ 31) (hkey : key < 0) :
    slotShard n key = if (-key) % n = 0 then 0 else 2 ^ 32 - ((-key) % n).toNat := by
  have hmod : 0 ≤ (-key) % n ∧ (-key) % n < n :=
    ⟨Int.emod_nonneg _ (by omega), Int.emod_lt_of_pos _ (by omega)⟩
  have htmod : key.tmod n = -((-key) % n) := by
    rw [← Int.tmod_eq_emod_of_nonneg (by omega), Int.neg_tmod, neg_neg]
  rw [slotShard, htmod]
  split_ifs with hzero
  · rw [hzero]
    rfl
  · omega

/-- Where the remainders agree, a key is congruent to its shard. -/
theorem dvd_of_agree (hn : 0 < n) (hlt : n < 2 ^ 31) (hkey : key < 2 ^ 63)
    (h : slotShard n key = shardOf n key) : (n : Int) ∣ key - shardOf n key := by
  by_cases hneg : 0 ≤ key
  · rw [shardOf_of_nonneg hneg hkey]
    have hcast : ((key.toNat % n : Nat) : Int) = key % n := by
      rw [Int.natCast_emod, Int.toNat_of_nonneg hneg]
    rw [hcast]
    exact Int.dvd_self_sub_emod
  · have hshard := shardOf_lt hn key
    rw [← h]
    rw [← h, slotShard_neg hn hlt (by omega)] at hshard
    rw [slotShard_neg hn hlt (by omega)]
    have hr := Int.emod_lt_of_pos (-key) (show (0 : Int) < n by omega)
    split_ifs at hshard ⊢ with hzero
    · rw [cast_zero, sub_zero]
      exact Int.dvd_neg.mp (Int.dvd_of_emod_eq_zero hzero)
    · omega

/-- On a negative key the remainders agree if both are zero. -/
theorem slotShard_neg_eq_iff (hn : 0 < n) (hlt : n < 2 ^ 31) (hkey : key < 0)
    (hge : -2 ^ 63 ≤ key) :
    slotShard n key = shardOf n key ↔ (n : Int) ∣ key ∧ n ∣ 2 ^ 64 := by
  have hr := Int.emod_lt_of_pos (-key) (show (0 : Int) < n by omega)
  have hdvd : (-key) % n = 0 ↔ (n : Int) ∣ key := by
    rw [← Int.dvd_iff_emod_eq_zero, Int.dvd_neg]
  have hshard := shardOf_lt hn key
  have hsize : key % 2 ^ 64 = key + 2 ^ 64 := by omega
  rw [slotShard_neg hn hlt hkey]
  split_ifs with hzero
  · have hkeydvd := hdvd.mp hzero
    have hsum : (n : Int) ∣ key + 2 ^ 64 ↔ n ∣ 2 ^ 64 := by
      rw [Int.dvd_add_right hkeydvd]
      exact_mod_cast Int.natCast_dvd_natCast (m := n) (n := 2 ^ 64)
    have hcast : (n : Int) ∣ ((key + 2 ^ 64).toNat : Int) ↔ (n : Int) ∣ key + 2 ^ 64 := by
      rw [Int.toNat_of_nonneg (by omega)]
    rw [shardOf, hsize, eq_comm, ← dvd_iff_mod_eq_zero, ← Int.natCast_dvd_natCast, hcast, hsum]
    exact ⟨fun h => ⟨hkeydvd, h⟩, And.right⟩
  · refine iff_of_false (by omega) fun h => hzero (hdvd.mpr h.1)

namespace ShardedJoin

variable {j : ShardedJoin}

/-- The two remainders that are taken of a key are equal. -/
def RemaindersAgree (j : ShardedJoin) : Prop :=
  ∀ k, j.IsKey k → slotShard j.numShards k = shardOf j.numShards k

theorem IsKey.range (h : j.IsKey key) : -2 ^ 63 ≤ key ∧ key < 2 ^ 63 := by
  have hmin := j.minKey_ge
  have hmax := j.maxKey_lt
  have htr := j.translated_lt
  obtain ⟨hlo, hhi⟩ := h
  unfold lastKey at hhi
  split_ifs at hhi with hbw
  · have := htr hbw
    omega
  · omega

theorem remaindersAgree_iff : j.RemaindersAgree ↔ j.NegativeKeysInShardZero := by
  have hn := j.numShards_pos
  have hlt := j.numShards_lt
  constructor
  · intro h k hk hneg
    exact (slotShard_neg_eq_iff hn hlt hneg hk.range.1).mp (h k hk)
  · intro h k hk
    by_cases hneg : k < 0
    · exact (slotShard_neg_eq_iff hn hlt hneg hk.range.1).mpr (h k hk hneg)
    · rw [slotShard_of_nonneg hn hlt (not_lt.mp hneg),
        shardOf_of_nonneg (not_lt.mp hneg) hk.range.2]

theorem hashEntryCount_le : j.hashEntryCount ≤ maxHashEntryCount := by
  have hfew := j.few
  unfold hashEntryCount lastKey
  split_ifs at hfew ⊢ <;> omega

theorem IsKey.index (h : j.IsKey key) :
    0 ≤ key - j.minKey ∧ (key - j.minKey).toNat < j.hashEntryCount := by
  obtain ⟨hlo, hhi⟩ := h
  unfold hashEntryCount
  omega

namespace Devices

variable {p : j.Devices}

-- ======== slots

theorem hashEntryCount_le_mul (p : j.Devices) :
    j.hashEntryCount ≤ p.entryCountPerShard * j.numShards := by
  have hpos := j.numShards_pos
  have hdiv := div_add_mod (j.hashEntryCount + j.numShards - 1) j.numShards
  have hmod := mod_lt (j.hashEntryCount + j.numShards - 1) hpos
  have hle := mul_le_mul_left j.numShards p.enough
  rw [mul_comm p.entryCountPerShard]
  omega

theorem shard_div_lt (p : j.Devices) {s : Nat} (hs : s < j.numShards) :
    s / p.deviceCount < p.shardsPerDevice := by
  have hpos := p.deviceCount_pos
  refine (div_lt_iff_lt_mul hpos).mpr ?_
  have hdiv := div_add_mod (j.numShards + p.deviceCount - 1) p.deviceCount
  have hmod := mod_lt (j.numShards + p.deviceCount - 1) hpos
  unfold shardsPerDevice
  rw [mul_comm]
  omega

theorem quotient_lt (p : j.Devices) (h : j.IsKey key) :
    (key - j.minKey).toNat / j.numShards < p.entryCountPerShard :=
  (div_lt_iff_lt_mul j.numShards_pos).mpr
    (lt_of_lt_of_le h.index.2 p.hashEntryCount_le_mul)

/-- The slot of a key, in the sub-buffer of its shard. -/
def exactSlot (p : j.Devices) (key : Int) : Nat :=
  shardOf j.numShards key / p.deviceCount * p.entryCountPerShard
    + (key - j.minKey).toNat / j.numShards

theorem exactSlot_lt (p : j.Devices) (h : j.IsKey key) :
    p.exactSlot key < (shardOf j.numShards key / p.deviceCount + 1) * p.entryCountPerShard := by
  rw [exactSlot, Nat.add_mul, Nat.one_mul]
  exact Nat.add_lt_add_left (p.quotient_lt h) _

variable (hagree : j.RemaindersAgree)
include hagree

theorem slotOf_eq (p : j.Devices) (h : j.IsKey key) :
    p.slotOf key = some (p.exactSlot key : Int) := by
  have hrange : -2 ^ 63 ≤ key - j.minKey ∧ key - j.minKey < 2 ^ 63 := by
    have hindex := h.index
    have hle := j.hashEntryCount_le
    unfold maxHashEntryCount at hle
    omega
  have hfit : shardOf j.numShards key / p.deviceCount * p.entryCountPerShard < 2 ^ 32 := by
    have hlt := p.shard_div_lt (shardOf_lt j.numShards_pos key)
    calc shardOf j.numShards key / p.deviceCount * p.entryCountPerShard
        ≤ p.shardsPerDevice * p.entryCountPerShard := mul_le_mul_right _ hlt.le
      _ = p.entryCountPerShard * p.shardsPerDevice := mul_comm ..
      _ < 2 ^ 32 := p.fits
  rw [slotOf, getHashSlotSharded, if_pos hrange, shardBuffer, hagree key h,
    mod_eq_of_lt hfit, Int.tdiv_eq_ediv_of_nonneg h.index.1, exactSlot]
  congr 1
  rw [cast_add, Int.natCast_ediv, Int.toNat_of_nonneg h.index.1]

/-- Two keys of a device that have one slot are one key. -/
theorem exactSlot_inj (p : j.Devices) {k₁ k₂ : Int} (h₁ : j.IsKey k₁) (h₂ : j.IsKey k₂)
    (hdevice : shardOf j.numShards k₁ % p.deviceCount = shardOf j.numShards k₂ % p.deviceCount)
    (heq : p.exactSlot k₁ = p.exactSlot k₂) : k₁ = k₂ := by
  have hn := j.numShards_pos
  -- the sub-buffer, and so the shard, is the quotient of the slot
  have hindex {k : Int} (h : j.IsKey k) :
      p.exactSlot k / p.entryCountPerShard = shardOf j.numShards k / p.deviceCount := by
    refine Nat.div_eq_of_lt_le (Nat.le_add_right _ _) ?_
    exact p.exactSlot_lt h
  have hsub : shardOf j.numShards k₁ / p.deviceCount = shardOf j.numShards k₂ / p.deviceCount := by
    rw [← hindex h₁, ← hindex h₂, heq]
  have hshard : shardOf j.numShards k₁ = shardOf j.numShards k₂ := by
    rw [← Nat.div_add_mod (shardOf j.numShards k₁) p.deviceCount,
      ← Nat.div_add_mod (shardOf j.numShards k₂) p.deviceCount, hsub, hdevice]
  have hquot : (k₁ - j.minKey).toNat / j.numShards = (k₂ - j.minKey).toNat / j.numShards := by
    unfold exactSlot at heq
    rw [hsub] at heq
    exact Nat.add_left_cancel heq
  -- keys of one shard are congruent, so the quotients determine them
  have hdvd : (j.numShards : Int) ∣ k₁ - k₂ := by
    have hd₁ := dvd_of_agree hn j.numShards_lt h₁.range.2 (hagree k₁ h₁)
    have hd₂ := dvd_of_agree hn j.numShards_lt h₂.range.2 (hagree k₂ h₂)
    rw [hshard] at hd₁
    have hsub := Int.dvd_sub hd₁ hd₂
    rwa [sub_sub_sub_cancel_right] at hsub
  have hmod : (k₁ - j.minKey).toNat % j.numShards = (k₂ - j.minKey).toNat % j.numShards := by
    have hemod : (k₁ - j.minKey) % j.numShards = (k₂ - j.minKey) % j.numShards := by
      refine (Int.modEq_iff_dvd.mpr ?_).symm
      rwa [sub_sub_sub_cancel_right]
    have hcast {k : Int} (h : j.IsKey k) :
        (((k - j.minKey).toNat % j.numShards : Nat) : Int) = (k - j.minKey) % j.numShards := by
      rw [Int.natCast_emod, Int.toNat_of_nonneg h.index.1]
    have := (hcast h₁).trans (hemod.trans (hcast h₂).symm)
    exact_mod_cast this
  have hnat : (k₁ - j.minKey).toNat = (k₂ - j.minKey).toNat := by
    rw [← Nat.div_add_mod (k₁ - j.minKey).toNat j.numShards,
      ← Nat.div_add_mod (k₂ - j.minKey).toNat j.numShards, hquot, hmod]
  have h₁' := h₁.index.1
  have h₂' := h₂.index.1
  omega

-- ======== filling

omit hagree in
theorem entryAt_natCast (buff : List Int) (s : Nat) : entryAt buff (s : Int) = buff[s]? := by
  rw [entryAt, if_pos (Int.natCast_nonneg s), Int.toNat_natCast]

omit hagree in
theorem exactSlot_lt_length (p : j.Devices) (h : j.IsKey key) :
    p.exactSlot key < p.entryCountPerShard * p.shardsPerDevice := by
  have hshard := p.shard_div_lt (shardOf_lt j.numShards_pos key)
  calc p.exactSlot key
      < (shardOf j.numShards key / p.deviceCount + 1) * p.entryCountPerShard := p.exactSlot_lt h
    _ ≤ p.shardsPerDevice * p.entryCountPerShard := mul_le_mul_right _ hshard
    _ = p.entryCountPerShard * p.shardsPerDevice := mul_comm ..

/-- A fill keeps the entries that are taken. If it has no error every row
is in its slot, and it has none if the slots are free and different. -/
theorem fillRows_spec (p : j.Devices) {rows : List (Nat × Int)}
    {buff : List Int} (hlen : buff.length = p.entryCountPerShard * p.shardsPerDevice)
    (hkeys : ∀ r ∈ rows, j.IsKey r.2) :
    ∃ err buff', p.fillRows buff rows = some (err, buff')
      ∧ (∀ s : Nat, buff[s]? ≠ some invalidVal → buff'[s]? = buff[s]?)
      ∧ (err = 0 → ∀ r ∈ rows, buff'[p.exactSlot r.2]? = some (r.1 : Int))
      ∧ ((rows.map fun r => p.exactSlot r.2).Nodup →
          (∀ r ∈ rows, buff[p.exactSlot r.2]? = some invalidVal) → err = 0) := by
  induction rows generalizing buff with
  | nil => exact ⟨0, buff, rfl, fun _ _ => rfl, by simp, fun _ _ => rfl⟩
  | cons r rows ih =>
    obtain ⟨i, key⟩ := r
    have hkey := hkeys (i, key) mem_cons_self
    have hs := p.exactSlot_lt_length hkey
    rw [← hlen] at hs
    have hentry : entryAt buff (p.exactSlot key : Int) = some buff[p.exactSlot key] := by
      rw [entryAt_natCast, getElem?_eq_getElem hs]
    by_cases hfree : buff[p.exactSlot key] = invalidVal
    · -- the row takes the slot, and later rows leave it alone
      obtain ⟨err, buff', hfill, hframe, hrows, hok⟩ :=
        @ih (buff.set (p.exactSlot key) i) (by rw [length_set, hlen])
          fun r hr => hkeys r (mem_cons_of_mem _ hr)
      have hhead : (buff.set (p.exactSlot key) (i : Int))[p.exactSlot key]? = some (i : Int) := by
        rw [getElem?_set_self hs]
      refine ⟨err, buff', ?_, ?_, ?_, ?_⟩
      · simp only [fillRows, slotOf_eq hagree p hkey, mapdCas, hentry, hfree,
          bind_eq_bind, bind_some, Int.toNat_natCast]
        exact hfill
      · intro s hs'
        have hne : p.exactSlot key ≠ s := fun h => hs' (by
          rw [← h, getElem?_eq_getElem hs, hfree])
        have hsame : (buff.set (p.exactSlot key) (i : Int))[s]? = buff[s]? :=
          getElem?_set_ne hne
        rw [hframe s (by rwa [hsame]), hsame]
      · intro herr r hr
        rcases mem_cons.mp hr with rfl | hr
        · rw [hframe _ (by rw [hhead]; simp [invalidVal]), hhead]
        · exact hrows herr r hr
      · intro hnodup hall
        rw [map_cons, nodup_cons] at hnodup
        refine hok hnodup.2 fun r hr => ?_
        have hne : p.exactSlot key ≠ p.exactSlot r.2 := fun h =>
          hnodup.1 (List.mem_map.mpr ⟨r, hr, h.symm⟩)
        rw [getElem?_set_ne hne]
        exact hall r (mem_cons_of_mem _ hr)
    · refine ⟨-1, buff, ?_, fun _ _ => rfl, fun h => absurd h (by decide), fun _ hall => ?_⟩
      · simp only [fillRows, slotOf_eq hagree p hkey, mapdCas, hentry, bind_eq_bind,
          bind_some, Option.pure_def, if_neg hfree, if_pos hfree, ne_eq]
      · have := hall (i, key) mem_cons_self
        rw [getElem?_eq_getElem hs, some_inj] at this
        exact absurd this hfree

omit hagree in
/-- A row of a device has a key of the table, and unless it is the key for
nulls the shard of the key is one of the device. -/
theorem mem_deviceRows (p : j.Devices) {deviceId : Nat} (hdevice : deviceId < p.deviceCount)
    {bytes : List Nat} {numElems : Nat} (hcovers : j.Covers bytes numElems) {r : Nat × Int}
    (hr : r ∈ p.deviceRows deviceId bytes numElems) :
    j.IsKey r.2 ∧ (r.2 ≤ j.maxKey → shardOf j.numShards r.2 % p.deviceCount = deviceId) := by
  obtain ⟨shard, hshard, hr⟩ := mem_flatMap.mp hr
  obtain ⟨i, hi, hrow⟩ := mem_filterMap.mp hr
  obtain ⟨elem, helem, -, -, hval⟩ := hcovers i (mem_range.mp hi)
  have hmod : shard % p.deviceCount = deviceId := by
    obtain ⟨m, -, rfl⟩ := mem_range'.mp hshard
    rw [add_mul_mod_self_left, mod_eq_of_lt hdevice]
  simp only [helem, bind_eq_bind, bind_some, Import.joinKey, j.noProxies] at hrow
  split_ifs at hrow with hsel hnull hbw
  · -- a null, where null equals null
    simp only [bind_some, Option.pure_def, some_inj] at hrow
    subst hrow
    rw [j.translated]
    have hle := j.min_le_max
    refine ⟨⟨by omega, by rw [lastKey, if_pos hbw]⟩, fun h => absurd h (by omega)⟩
  · simp at hrow
  · simp only [bind_some, Option.pure_def, some_inj] at hrow
    subst hrow
    have hin := hval.resolve_left hnull
    refine ⟨⟨hin.1, ?_⟩, fun _ => ?_⟩
    · unfold lastKey
      split_ifs <;> omega
    · rw [not_not.mp hsel]
      exact hmod

theorem hashJoinIdxSharded_eq (p : j.Devices) (buff : List Int)
    (h : j.IsKey key) (hmax : key ≤ j.maxKey) :
    p.hashJoinIdxSharded buff key = buff[p.exactSlot key]? := by
  rw [hashJoinIdxSharded, if_pos ⟨h.1, hmax⟩, slotOf_eq hagree p h, bind_eq_bind,
    bind_some, entryAt_natCast]

theorem slotsExact_of_agree (p : j.Devices) : p.SlotsExact where
  injective k₁ k₂ h₁ h₂ hne hdevice heq := by
    rw [slotOf_eq hagree p h₁, slotOf_eq hagree p h₂, some_inj] at heq
    exact hne (exactSlot_inj hagree p h₁ h₂ hdevice (by exact_mod_cast heq))
  inside k h := by
    refine ⟨_, slotOf_eq hagree p h, ?_, ?_⟩
    · exact Int.ofNat_le.mpr (le_add_right _ _)
    · exact Int.ofNat_lt.mpr (p.exactSlot_lt h)
  found deviceId hdevice bytes numElems hcovers rows hperm := by
    have hrows (r : Nat × Int) (hr : r ∈ rows) :=
      p.mem_deviceRows hdevice hcovers (hperm.mem_iff.mp hr)
    obtain ⟨err, buff, hfill, -, hfound, hok⟩ := @fillRows_spec j hagree p rows p.initBuff
      (by rw [initBuff, length_replicate]) fun r hr => (hrows r hr).1
    refine ⟨err, buff, hfill, fun herr r hr hmax => ?_, fun hnodup hmax => hok ?_ fun r hr => ?_⟩
    · rw [hashJoinIdxSharded_eq hagree p buff (hrows r hr).1 hmax]
      exact hfound herr r hr
    · have hcomp : (rows.map fun r => p.exactSlot r.2)
          = (rows.map Prod.snd).map p.exactSlot := by
        rw [List.map_map]
        rfl
      rw [hcomp]
      refine hnodup.map_on fun k₁ hk₁ k₂ hk₂ heq => ?_
      obtain ⟨r₁, hr₁, rfl⟩ := List.mem_map.mp hk₁
      obtain ⟨r₂, hr₂, rfl⟩ := List.mem_map.mp hk₂
      refine exactSlot_inj hagree p (hrows r₁ hr₁).1 (hrows r₂ hr₂).1 ?_ heq
      rw [(hrows r₁ hr₁).2 (hmax r₁ hr₁), (hrows r₂ hr₂).2 (hmax r₂ hr₂)]
    · rw [initBuff, getElem?_replicate, if_pos (p.exactSlot_lt_length (hrows r hr).1)]

end Devices

-- ======== necessary

/-- One device, with shards that are no larger than they have to be. -/
def oneDevice (j : ShardedJoin) : j.Devices where
  deviceCount := 1
  entryCountPerShard := (j.hashEntryCount + j.numShards - 1) / j.numShards
  deviceCount_pos := Nat.one_pos
  deviceCount_lt := by decide
  enough := le_refl _
  fits := by
    have hmul := Nat.div_mul_le_self (j.hashEntryCount + j.numShards - 1) j.numShards
    have hle := j.hashEntryCount_le
    have hlt := j.numShards_lt
    unfold maxHashEntryCount at hle
    rw [Nat.add_sub_cancel, Nat.div_one]
    omega

/-- The sub-buffers of the one device, counted twice, are below 2^32. -/
theorem oneDevice_twice (j : ShardedJoin) :
    2 * (j.oneDevice.entryCountPerShard * j.numShards) ≤ 2 ^ 32 := by
  have hmul := div_mul_le_self (j.hashEntryCount + j.numShards - 1) j.numShards
  have hle := j.hashEntryCount_le
  have hlt := j.numShards_lt
  unfold maxHashEntryCount at hle
  change 2 * ((j.hashEntryCount + j.numShards - 1) / j.numShards * j.numShards) ≤ 2 ^ 32
  generalize hq : (j.hashEntryCount + j.numShards - 1) / j.numShards = q at hmul ⊢
  -- one entry for a shard, or fewer shards than entries
  by_cases hone : q ≤ 1
  · have := mul_le_mul_right j.numShards hone
    omega
  · have hdouble : 2 * j.numShards ≤ q * j.numShards := mul_le_mul_right _ (by omega)
    omega

/-- If every slot of the one device lies in its sub-buffer, the remainders
agree. -/
theorem agree_of_inside (h : j.oneDevice.SlotsExact) : j.RemaindersAgree := by
  intro k hk
  have hn := j.numShards_pos
  by_cases hneg : 0 ≤ k
  · rw [slotShard_of_nonneg hn j.numShards_lt hneg, shardOf_of_nonneg hneg hk.range.2]
  · obtain ⟨slot, hslot, hlo, hhi⟩ := h.inside k hk
    have htwice := j.oneDevice_twice
    have hquot := j.oneDevice.quotient_lt hk
    have hshard := shardOf_lt hn k
    have hq : (k - j.minKey).tdiv j.numShards
        = (((k - j.minKey).toNat / j.numShards : Nat) : Int) := by
      rw [Int.tdiv_eq_ediv_of_nonneg hk.index.1, Int.natCast_ediv, Int.toNat_of_nonneg hk.index.1]
    have hrange : -2 ^ 63 ≤ k - j.minKey ∧ k - j.minKey < 2 ^ 63 := by
      have hindex := hk.index
      have hle := j.hashEntryCount_le
      unfold maxHashEntryCount at hle
      omega
    rw [Devices.slotOf, getHashSlotSharded, if_pos hrange, some_inj, shardBuffer, hq]
      at hslot
    have hone : j.oneDevice.deviceCount = 1 := rfl
    rw [hone, Nat.div_one] at hlo hhi hslot
    generalize j.oneDevice.entryCountPerShard = c at htwice hquot hlo hhi hslot
    generalize (k - j.minKey).toNat / j.numShards = q at hquot hslot
    have hr := Int.emod_lt_of_pos (-k) (show (0 : Int) < j.numShards by omega)
    have hr₀ := Int.emod_nonneg (-k) (show (j.numShards : Int) ≠ 0 by omega)
    rw [slotShard_neg hn j.numShards_lt (by omega)] at hslot ⊢
    split_ifs at hslot ⊢ with hzero
    · -- the slot is in the first sub-buffer
      by_contra hne
      have hle : 1 * c ≤ shardOf j.numShards k * c := Nat.mul_le_mul_right c (by omega)
      omega
    · -- the slot is behind the last sub-buffer
      exfalso
      generalize hrem : ((-k) % (j.numShards : Int)).toNat = r at hslot
      have hr₁ : 1 ≤ r := by omega
      have hr₂ : r < j.numShards := by omega
      have hrc : r * c ≤ j.numShards * c := Nat.mul_le_mul_right c hr₂.le
      have hrc₁ : 1 * c ≤ r * c := Nat.mul_le_mul_right c hr₁
      have hend : (shardOf j.numShards k + 1) * c ≤ j.numShards * c := Nat.mul_le_mul_right c hshard
      rw [Nat.mul_comm c] at htwice
      have hstart : (2 ^ 32 - r) * c % 2 ^ 32 = 2 ^ 32 - r * c := by
        have hprod : (2 ^ 32 - r) * c = (2 ^ 32 - r * c) + 2 ^ 32 * (c - 1) := by
          rw [Nat.sub_mul, Nat.mul_sub, Nat.mul_one]
          omega
        rw [hprod, Nat.add_mul_mod_self_left, Nat.mod_eq_of_lt (by omega)]
      omega

/-- A join has exact slots on all its devices exactly if a negative key of
its range is a multiple of the shard count, which is a power of two. -/
theorem slotsExact_iff (j : ShardedJoin) :
    (∀ p : j.Devices, p.SlotsExact) ↔ j.NegativeKeysInShardZero := by
  rw [← remaindersAgree_iff]
  exact ⟨fun h => agree_of_inside (h j.oneDevice),
    fun hagree p => Devices.slotsExact_of_agree hagree p⟩

/-- The keys -1 and 0 in two shards. -/
def twoShards : ShardedJoin where
  info := ⟨8, -2 ^ 63, false, 1, false, none⟩
  minKey := -1
  maxKey := 0
  numShards := 2
  minKey_ge := by decide
  min_le_max := by decide
  maxKey_lt := by decide
  translated_lt := by decide
  translated := rfl
  noProxies := rfl
  numShards_pos := Nat.two_pos
  numShards_lt := by decide
  few := by decide

/-- The slot of -1 is far behind a buffer of two entries. -/
theorem twoShards_outside :
    twoShards.oneDevice.initBuff.length = 2
      ∧ twoShards.oneDevice.slotOf (-1) = some (2 ^ 32 - 1)
      ∧ ¬ twoShards.oneDevice.SlotsExact := by
  refine ⟨by decide, by decide, fun h => ?_⟩
  obtain ⟨slot, hslot, -, hhi⟩ := h.inside (-1) ⟨by decide, by decide⟩
  have heq : twoShards.oneDevice.slotOf (-1) = some (2 ^ 32 - 1) := by decide
  cases heq.symm.trans hslot
  exact absurd hhi (by decide)

end ShardedJoin

end Compass.HashTable.Sharded
