/-
Baseline group-by hashing (GroupByRuntime.cpp, RuntimeFunctions.cpp): the
entry of the output buffer that a key's aggregates go to.

The buffer holds one entry for each group, in one of two layouts. Row by
row, an entry is `row_size_quad` quads: the components of its key, 4 or 8
bytes each, padded to a quad, and then its aggregates. Column by column,
each component and each aggregate has a column of `entry_count` quads.
An entry whose first component is the empty key is free.

A pointer is an address in cells: cells are as wide as a key component in
the row layout and quads in the columnar one, and the address that is
returned counts quads. Offsets are computed as `uint32_t`.

Between two calls the query writes whatever it computes to the aggregates
of the entry it got; that is an argument of a run here.

MurmurHash1 (MurmurHash1Inl.h), the hash of the keys of group-by buffers
and of join tables.
-/
import Compass.Lib.Cells
import Compass.Lib.Probing

namespace Compass.HashTable

/-- The two values of `key_width`. -/
inductive KeyWidth
  | w4
  | w8
deriving DecidableEq, Repr

/-- `get_empty_key`: EMPTY_KEY_32 or EMPTY_KEY_64. -/
def KeyWidth.emptyKey : KeyWidth → Int
  | .w4 => 2 ^ 31 - 1
  | .w8 => 2 ^ 63 - 1

def KeyWidth.minKey : KeyWidth → Int
  | .w4 => -2 ^ 31
  | .w8 => -2 ^ 63

def KeyWidth.cellsPerQuad : KeyWidth → ℕ
  | .w4 => 2
  | .w8 => 1

/-- An output buffer. -/
structure GroupBuffer where
  entryCount : ℕ
  rowSizeQuad : ℕ
  keyCount : ℕ
  keyWidth : KeyWidth
  aggColCount : ℕ
  entryCount_pos : 0 < entryCount
  entryCount_lt : entryCount < 2 ^ 32
  keyCount_pos : 0 < keyCount
  /-- A row holds the padded key. -/
  holdsKey : (keyCount + keyWidth.cellsPerQuad - 1) / keyWidth.cellsPerQuad ≤ rowSizeQuad

-- ======== addresses

/-- Where an entry keeps the components of its key, the address that is
returned for it, and the cells of the aggregates at such an address. -/
structure Addressing where
  keyCount : ℕ
  cell : ℕ → ℕ → ℕ
  slot : ℕ → ℕ
  aggs : ℕ → List ℕ

def Addressing.keyCells (A : Addressing) (h : ℕ) : List ℕ :=
  (List.range A.keyCount).map (A.cell h)

namespace GroupBuffer

variable (g : GroupBuffer)

/-- The quads of a padded key. -/
def keyQuads : ℕ :=
  (g.keyCount + g.keyWidth.cellsPerQuad - 1) / g.keyWidth.cellsPerQuad

/-- The row layout, for offsets in quads computed by `off`. -/
def rows (off : ℕ → ℕ) : Addressing where
  keyCount := g.keyCount
  cell h i := off h * g.keyWidth.cellsPerQuad + i
  slot h := off h + g.keyQuads
  aggs s := (List.range ((g.rowSizeQuad - g.keyQuads) * g.keyWidth.cellsPerQuad)).map
    (s * g.keyWidth.cellsPerQuad + ·)

/-- The columnar layout, for offsets of columns computed by `off`. -/
def columns (off : ℕ → ℕ) : Addressing where
  keyCount := g.keyCount
  cell h i := off (h + i * g.entryCount)
  slot h := off (h + g.keyCount * g.entryCount)
  aggs s := (List.range g.aggColCount).map (s + · * g.entryCount)

/-- The addresses the functions compute. -/
def rowwise : Addressing := g.rows fun h => h * g.rowSizeQuad % 2 ^ 32

def columnar : Addressing := g.columns (· % 2 ^ 32)

/-- The addresses of the entries of the buffer. -/
def rowEntries : Addressing := g.rows (· * g.rowSizeQuad)

def columnEntries : Addressing := g.columns id

end GroupBuffer

-- ======== functions

abbrev Memory := ℕ → Int

/-- One attempt: a free entry takes the key, an entry with the key is it. -/
def Addressing.getMatching (A : Addressing) (emptyKey : Int) (buffer : Memory)
    (key : List Int) (h : ℕ) : Option (Memory × ℕ) :=
  if buffer (A.cell h 0) = emptyKey then
    some (Cells.store buffer (A.keyCells h) key, A.slot h)
  else if (A.keyCells h).map buffer = key then some (buffer, A.slot h)
  else none

/-- The attempts from the entry the hash gives on. -/
def Addressing.getValue (A : Addressing) (emptyKey : Int) (entryCount : ℕ)
    (hash : List Int → ℕ) (buffer : Memory) (key : List Int) :
    Option (Option (Memory × ℕ)) :=
  Probing.probe entryCount (A.getMatching emptyKey buffer key) (hash key % entryCount)

namespace GroupBuffer

variable (g : GroupBuffer)

/-- `get_matching_group_value`. -/
def getMatchingGroupValue : Memory → List Int → ℕ → Option (Memory × ℕ) :=
  g.rowwise.getMatching g.keyWidth.emptyKey

/-- `get_matching_group_value_columnar`. -/
def getMatchingGroupValueColumnar : Memory → List Int → ℕ → Option (Memory × ℕ) :=
  g.columnar.getMatching KeyWidth.w8.emptyKey

/-- `get_group_value`: none when the loop does not end, NULL within. -/
def getGroupValue (keyHash : List Int → ℕ) :
    Memory → List Int → Option (Option (Memory × ℕ)) :=
  g.rowwise.getValue g.keyWidth.emptyKey g.entryCount keyHash

/-- `get_group_value_columnar`. -/
def getGroupValueColumnar (keyHash : List Int → ℕ) :
    Memory → List Int → Option (Option (Memory × ℕ)) :=
  g.columnar.getValue KeyWidth.w8.emptyKey g.entryCount keyHash

end GroupBuffer

-- ======== runs

/-- A row of the query's input: its key, and what the query writes to
the aggregates of the entry of the key. -/
structure Input where
  key : List Int
  aggs : List Int

/-- The addresses that the rows of the input get, in order. -/
def serve (getValue : Memory → List Int → Option (Option (Memory × ℕ)))
    (aggs : ℕ → List ℕ) (buffer : Memory) :
    List Input → Option (Memory × List (Option ℕ))
  | [] => some (buffer, [])
  | row :: rows =>
    match getValue buffer row.key with
    | none => none
    | some none =>
      (serve getValue aggs buffer rows).map fun r => (r.1, none :: r.2)
    | some (some (buffer', s)) =>
      (serve getValue aggs (Cells.store buffer' (aggs s) row.aggs) rows).map
        fun r => (r.1, some s :: r.2)

-- ======== the statement

/-- A key of the buffer's width that does not begin with the empty key. -/
def GroupBuffer.ValidKey (g : GroupBuffer) (key : List Int) : Prop :=
  key.length = g.keyCount
    ∧ (∀ c ∈ key, g.keyWidth.minKey ≤ c ∧ c ≤ g.keyWidth.emptyKey)
    ∧ key.head? ≠ some g.keyWidth.emptyKey

/-- All entries are free. -/
def Fresh (entries : Addressing) (emptyKey : Int) (entryCount : ℕ) (buffer : Memory) : Prop :=
  ∀ p < entryCount, buffer (entries.cell p 0) = emptyKey

/-- The cells of an entry. -/
def Addressing.area (entries : Addressing) (p : ℕ) : List ℕ :=
  entries.keyCells p ++ entries.aggs (entries.slot p)

/-- A run over the rows gives out these entries, and a further call
leaves the entries that were given out as they are. -/
def Serves (getValue : Memory → List Int → Option (Option (Memory × ℕ)))
    (entries : Addressing) (validKey : List Int → Prop) (buffer : Memory)
    (rows : List Input) (given : List (List Int × Option ℕ)) : Prop :=
  ∃ buffer', serve getValue entries.aggs buffer rows
        = some (buffer', given.map fun x => x.2.map entries.slot)
      ∧ ∀ key, validKey key → ∀ buffer'' s, getValue buffer' key = some (some (buffer'', s)) →
          ∀ k p, (k, some p) ∈ given → ∀ a ∈ entries.area p, buffer'' a = buffer' a

/-- Whatever the rows, there is one choice of entries that gives each key
its own, and both layouts follow it. -/
def GroupBuffer.OneSlotPerKey (g : GroupBuffer) (keyHash : List Int → ℕ) : Prop :=
  ∀ rows : List Input, (∀ row ∈ rows, g.ValidKey row.key) →
    ∃ given : List (List Int × Option ℕ), given.map Prod.fst = rows.map Input.key
        ∧ Probing.Assigns g.entryCount given
        ∧ (∀ buffer, Fresh g.rowEntries g.keyWidth.emptyKey g.entryCount buffer →
            Serves (g.getGroupValue keyHash) g.rowEntries g.ValidKey buffer rows given)
        ∧ (g.keyWidth = .w8 →
            ∀ buffer, Fresh g.columnEntries g.keyWidth.emptyKey g.entryCount buffer →
              Serves (g.getGroupValueColumnar keyHash) g.columnEntries g.ValidKey buffer
                rows given)

/-- No offset of an entry is cut off. -/
def GroupBuffer.Addressable (g : GroupBuffer) : Prop :=
  (g.entryCount - 1) * g.rowSizeQuad < 2 ^ 32
    ∧ (g.keyWidth = .w8 → (g.keyCount + 1) * g.entryCount ≤ 2 ^ 32)


/-- The multiplier. -/
def murmurM : UInt32 := 0xc6a4a793

/-- One round of mixing, with a shift. -/
def murmurMix (h shift : UInt32) : UInt32 :=
  let h := h * murmurM
  h ^^^ (h >>> shift)

/-- The bytes of the key, four at a time, then those that are left. -/
def murmurBody : UInt32 → List UInt8 → UInt32
  | h, a :: b :: c :: d :: rest =>
    let k := a.toUInt32 ||| (b.toUInt32 <<< 8) ||| (c.toUInt32 <<< 16) ||| (d.toUInt32 <<< 24)
    murmurBody (murmurMix (h + k) 16) rest
  | h, [a, b, c] =>
    murmurMix (h + (c.toUInt32 <<< 16) + (b.toUInt32 <<< 8) + a.toUInt32) 16
  | h, [a, b] => murmurMix (h + (b.toUInt32 <<< 8) + a.toUInt32) 16
  | h, [a] => murmurMix (h + a.toUInt32) 16
  | h, [] => h

/-- `MurmurHash1Impl`. -/
def murmurHash1 (key : List UInt8) (seed : UInt32) : UInt32 :=
  let h := murmurBody (seed ^^^ (UInt32.ofNat key.length * murmurM)) key
  murmurMix (murmurMix h 10) 17

/-- The bytes of a component in memory, the lowest first. -/
def KeyWidth.bytesOf (w : KeyWidth) (c : Int) : List UInt8 :=
  let size := 8 / w.cellsPerQuad
  (List.range size).map fun i => UInt8.ofNat ((c % 2 ^ (8 * size)).toNat / 2 ^ (8 * i))

/-- `key_hash`. -/
def keyHash (w : KeyWidth) (key : List Int) : ℕ :=
  (murmurHash1 (key.flatMap w.bytesOf) 0).toNat

end Compass.HashTable
