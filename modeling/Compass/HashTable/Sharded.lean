/-
The perfect hash table of a join on a shard column (JoinHashImpl.h,
HashJoinRuntime.cpp, GroupByRuntime.cpp, JoinHashTable.cpp).

A device holds the shards that are its number modulo the device count, and
its buffer has one sub-buffer for each of them. What goes into the table
is chosen by the remainder of the key as a `size_t`, the same that the
loader takes (`Import.shardOf`); where it goes is computed with another
remainder, that of the key as an `int64_t`, kept in a `uint32_t`.

Sharded tables are filled on the GPU only, where the dictionaries of the
two columns are not passed. The rows of a fill are in the order in which
its threads come to them. An access outside of the buffer and a difference
of `int64_t` that overflows are none.
-/
import Compass.Import.Loader

namespace Compass.HashTable.Sharded

open Import (shardOf JoinColumnTypeInfo)

-- ======== slots

/-- `uint32_t shard = key % num_shards`, of an `int64_t`. -/
def slotShard (numShards : Nat) (key : Int) : Nat :=
  (key.tmod numShards % 2 ^ 32).toNat

/-- The start of the sub-buffer, a `uint32_t`. -/
def shardBuffer (entryCountPerShard numShards deviceCount : Nat) (key : Int) : Nat :=
  slotShard numShards key / deviceCount * entryCountPerShard % 2 ^ 32

/-- `get_hash_slot_sharded`, as an index into `buff`. -/
def getHashSlotSharded (key minKey : Int) (entryCountPerShard numShards deviceCount : Nat) :
    Option Int :=
  if -2 ^ 63 ≤ key - minKey ∧ key - minKey < 2 ^ 63 then
    some (shardBuffer entryCountPerShard numShards deviceCount key
      + (key - minKey).tdiv numShards)
  else none

/-- The entry at an index. -/
def entryAt (buff : List Int) (slot : Int) : Option Int :=
  if 0 ≤ slot then buff[slot.toNat]? else none

/-- `mapd_cas`: what the entry was, and the buffer after. -/
def mapdCas (buff : List Int) (slot compare val : Int) : Option (Int × List Int) := do
  let old ← entryAt buff slot
  return (old, if old = compare then buff.set slot.toNat val else buff)

-- ======== tables

/-- `hash_join_invalid_val`. -/
def invalidVal : Int := -1

/-- On the GPU. -/
def maxHashEntryCount : Nat := (2 ^ 31 - 1) / 4

/-- A join on a shard column, with what `getInstance` makes sure of: keys
are `int64_t`, and no more than the GPU can hold. `lastKey` is the key for
nulls, where null equals null. -/
structure ShardedJoin where
  info : JoinColumnTypeInfo
  minKey : Int
  maxKey : Int
  numShards : Nat
  minKey_ge : -2 ^ 63 ≤ minKey
  min_le_max : minKey ≤ maxKey
  maxKey_lt : maxKey < 2 ^ 63
  translated_lt : info.usesBwEq = true → maxKey + 1 < 2 ^ 63
  translated : info.translatedNullVal = maxKey + 1
  noProxies : info.translate = none
  numShards_pos : 0 < numShards
  numShards_lt : numShards < 2 ^ 31
  /-- `get_hash_entry_count`. -/
  few : (maxKey - minKey + 1 + if info.usesBwEq then 1 else 0) ≤ maxHashEntryCount

namespace ShardedJoin

variable (j : ShardedJoin)

def lastKey : Int := if j.info.usesBwEq then j.maxKey + 1 else j.maxKey

/-- The number of keys. -/
def hashEntryCount : Nat := (j.lastKey - j.minKey + 1).toNat

/-- A key that has a slot. -/
def IsKey (key : Int) : Prop := j.minKey ≤ key ∧ key ≤ j.lastKey

/-- The devices of a join, and the size of a shard: enough for its keys,
and so that the sub-buffers of a device are below 2^32 entries. -/
structure Devices where
  deviceCount : Nat
  entryCountPerShard : Nat
  deviceCount_pos : 0 < deviceCount
  deviceCount_lt : deviceCount < 2 ^ 31
  enough : (j.hashEntryCount + j.numShards - 1) / j.numShards ≤ entryCountPerShard
  fits : entryCountPerShard * ((j.numShards + deviceCount - 1) / deviceCount) < 2 ^ 32

namespace Devices

variable {j} (p : j.Devices)

def shardsPerDevice : Nat := (j.numShards + p.deviceCount - 1) / p.deviceCount

def slotOf (key : Int) : Option Int :=
  getHashSlotSharded key j.minKey p.entryCountPerShard j.numShards p.deviceCount

/-- `fill_hash_join_buff_sharded` over rows of its shard: the error code
and the buffer. -/
def fillRows (buff : List Int) : List (Nat × Int) → Option (Int × List Int)
  | [] => some (0, buff)
  | (i, key) :: rows => do
      let slot ← p.slotOf key
      let (old, buff) ← mapdCas buff slot invalidVal i
      if old ≠ invalidVal then return (-1, buff)
      else fillRows buff rows

/-- The shards that a device holds. -/
def shardsOf (deviceId : Nat) : List Nat :=
  List.range' deviceId ((j.numShards - deviceId + p.deviceCount - 1) / p.deviceCount)
    p.deviceCount

/-- The rows that a device enters: the row id and the key of each. -/
def deviceRows (deviceId : Nat) (bytes : List Nat) (numElems : Nat) : List (Nat × Int) :=
  (p.shardsOf deviceId).flatMap fun shard =>
    Import.fillHashJoinBuffSharded j.info shard j.numShards bytes numElems

/-- The table after `init_hash_join_buff`. -/
def initBuff : List Int :=
  List.replicate (p.entryCountPerShard * p.shardsPerDevice) invalidVal

/-- `hash_join_idx_sharded`. -/
def hashJoinIdxSharded (hashBuff : List Int) (key : Int) : Option Int :=
  if j.minKey ≤ key ∧ key ≤ j.maxKey then do
    let slot ← p.slotOf key
    entryAt hashBuff slot
  else some (-1)

end Devices

-- ======== the statement

/-- A column whose values are in the range of the table. -/
def Covers (bytes : List Nat) (numElems : Nat) : Prop :=
  ∀ i < numElems, ∃ elem, Import.fixedWidthDecode j.info bytes i = some elem
    ∧ -2 ^ 63 ≤ elem ∧ elem < 2 ^ 63
    ∧ (elem = j.info.nullVal ∨ (j.minKey ≤ elem ∧ elem ≤ j.maxKey))

/-- Two keys of one device have two slots, a slot lies in the sub-buffer
of the shard of its key, and the rows that are entered are found. -/
structure Devices.SlotsExact {j : ShardedJoin} (p : j.Devices) : Prop where
  injective : ∀ k₁ k₂, j.IsKey k₁ → j.IsKey k₂ → k₁ ≠ k₂ →
    shardOf j.numShards k₁ % p.deviceCount = shardOf j.numShards k₂ % p.deviceCount →
    p.slotOf k₁ ≠ p.slotOf k₂
  inside : ∀ k, j.IsKey k → ∃ slot, p.slotOf k = some slot
    ∧ ↑(shardOf j.numShards k / p.deviceCount * p.entryCountPerShard) ≤ slot
    ∧ slot < ↑((shardOf j.numShards k / p.deviceCount + 1) * p.entryCountPerShard)
  found : ∀ deviceId < p.deviceCount, ∀ bytes numElems, j.Covers bytes numElems →
    ∀ rows, rows.Perm (p.deviceRows deviceId bytes numElems) →
      ∃ err buff, p.fillRows p.initBuff rows = some (err, buff)
        ∧ (err = 0 → ∀ r ∈ rows, r.2 ≤ j.maxKey →
            p.hashJoinIdxSharded buff r.2 = some (r.1 : Int))
        ∧ ((rows.map Prod.snd).Nodup → (∀ r ∈ rows, r.2 ≤ j.maxKey) → err = 0)

/-- A negative key is in shard 0 by both remainders. -/
def NegativeKeysInShardZero : Prop :=
  ∀ k, j.IsKey k → k < 0 → (j.numShards : Int) ∣ k ∧ j.numShards ∣ 2 ^ 64

end ShardedJoin

end Compass.HashTable.Sharded
