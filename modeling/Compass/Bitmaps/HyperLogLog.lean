/-
HyperLogLog registers (HyperLogLog.h, HyperLogLogRank.h), for approximate
counts of distinct values and for the sizes of join tables: filled in
several buffers, which are then unified.

A register holds the greatest rank of the keys of its index. So a buffer
is a join of single keys, and tells of a set of keys: in whatever order
and however often they came, and whatever buffers met.

`b` is from 4 to 16 (`hll_size_for_rate`). Then every index is a register,
and a rank fits the `int8_t` to which it is cast.
-/
import Mathlib
import Compass.Lib.Merging

namespace Compass.Bitmaps.HyperLogLog

open Function (update)
open Merging

def murmurM : UInt64 := 0xc6a4a7935bd1e995

/-- `MurmurHash64A` of words of eight bytes. -/
def murmurHash64A (words : List UInt64) (seed : UInt64) : UInt64 :=
  let h := words.foldl (fun h k =>
    let k := k * murmurM
    let k := k ^^^ (k >>> 47)
    let k := k * murmurM
    (h ^^^ k) * murmurM) (seed ^^^ (UInt64.ofNat (8 * words.length) * murmurM))
  let h := h ^^^ (h >>> 47)
  let h := h * murmurM
  h ^^^ (h >>> 47)

def getRank (x : UInt64) (b : Nat) : Nat :=
  min b (if x ≠ 0 then x.toBitVec.clz.toNat else 64) + 1

/-- The registers of a buffer. -/
abbrev Registers := Nat → Nat

variable (b : Nat)

/-- `agg_approximate_count_distinct` of a key, and a turn of the loop of
`approximate_distinct_tuples` for a key of several components. -/
def addKey (M : Registers) (key : List UInt64) : Registers :=
  let hash := murmurHash64A key 0
  let index := (hash >>> UInt64.ofNat (64 - b)).toNat
  update M index (max (M index) (getRank (hash <<< UInt64.ofNat b) (64 - b)))

/-- `hll_unify` of two buffers; each turn of its loop has a register of its
own. -/
def hllUnify (buffers : Nat → Registers) (lhs rhs : Nat) : Nat → Registers := fun i r =>
  if r < 2 ^ b ∧ (i = lhs ∨ i = rhs) then max (buffers lhs r) (buffers rhs r) else buffers i r

/-- Keys come to buffers, and then buffers are unified. -/
def run (entries : List (Nat × List UInt64)) (calls : List (Nat × Nat)) : Nat → Registers :=
  calls.foldl (fun buffers c => hllUnify b buffers c.1 c.2)
    (entries.foldl (fun buffers e => update buffers e.1 (addKey b (buffers e.1) e.2)) 0)

/-- The registers that a set of keys makes. -/
def registersOf (keys : Finset (List UInt64)) : Registers := keys.sup (addKey b 0)

/-- The keys that came to a buffer. -/
def keysOf (entries : List (Nat × List UInt64)) (i : Nat) : Finset (List UInt64) :=
  ((entries.filter fun e => e.1 = i).map Prod.snd).toFinset

end Compass.Bitmaps.HyperLogLog
