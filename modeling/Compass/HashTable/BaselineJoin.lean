/-
The one-to-one hash table of a join on several columns
(HashJoinRuntime.cpp, JoinHashTableQueryRuntime.cpp).

The table is an array of rows, each the components of a key and the id of
the inner row with that key, all of the width of a component. A row whose
first component is the empty key is free; its id is `invalid_slot_val`,
which is -1. While a key is written its first component is the
write-pending value; between two calls no write is pending, so the loop
that waits for one is not entered.

A table is filled at byte offsets computed as `uint32_t` and searched at
addresses computed as `size_t`. The fields of `JoinTable` are what the
callers make sure of: `getInstance` throws TooManyHashEntries for more
entries than an `int32_t` counts, and a key has at most
`g_maximum_conditions_to_coalesce` components.
-/
import Compass.HashTable.GroupBy
import Mathlib.Order.Interval.Finset.Nat

namespace Compass.HashTable

structure JoinTable where
  entryCount : ℕ
  keyComponentCount : ℕ
  keyWidth : KeyWidth
  entryCount_pos : 0 < entryCount
  entryCount_lt : entryCount < 2 ^ 31
  keyComponentCount_pos : 0 < keyComponentCount
  keyComponentCount_le : keyComponentCount ≤ 8

/-- `sizeof(T)`. -/
def KeyWidth.size : KeyWidth → ℕ
  | .w4 => 4
  | .w8 => 8

def invalidSlotVal : Int := -1

def kNoMatch : Int := -1

def kNotPresent : Int := -2

namespace JoinTable

variable (t : JoinTable)

/-- `get_invalid_key`. -/
def emptyKey : Int := t.keyWidth.emptyKey

def writePending : Int := t.emptyKey - 1

/-- The layout, for the cell where a row begins. -/
def layout (start : ℕ → ℕ) : Addressing where
  keyCount := t.keyComponentCount
  cell h i := start h + i
  slot h := start h + t.keyComponentCount
  aggs s := [s]

/-- The addresses of a table that is filled. -/
def filled : Addressing :=
  t.layout fun h =>
    h * (t.keyComponentCount + 1) * t.keyWidth.size % 2 ^ 32 / t.keyWidth.size

/-- The addresses of a table that is searched. -/
def searched : Addressing :=
  t.layout (· * (t.keyComponentCount + 1))

-- ======== filling

/-- `init_baseline_hash_join_buff`. -/
def initBaselineHashJoinBuff (hashBuff : Memory) : Memory :=
  (List.range t.entryCount).foldl
    (fun buff h => Cells.store buff (t.filled.keyCells h ++ [t.filled.slot h])
      (List.replicate t.keyComponentCount t.emptyKey ++ [invalidSlotVal]))
    hashBuff

/-- `get_matching_baseline_hash_slot_at`. -/
def getMatchingBaselineHashSlotAt (hashBuff : Memory) (key : List Int) (h : ℕ) :
    Option (Memory × ℕ) :=
  if key.head? = some t.writePending then none
  else t.filled.getMatching t.emptyKey hashBuff key h

/-- `write_baseline_hash_slot`: the table, or the code of the error. -/
def writeBaselineHashSlot (hash : List Int → ℕ) (hashBuff : Memory) (val : Int)
    (key : List Int) : Option (Except Int Memory) :=
  match Probing.probe t.entryCount (t.getMatchingBaselineHashSlotAt hashBuff key)
      (hash key % t.entryCount) with
  | none => none
  | some none => some (.error (-2))
  | some (some (buff, slot)) =>
    if buff slot = invalidSlotVal then some (.ok (Function.update buff slot val))
    else some (.error (-1))

/-- `fill_baseline_hash_join_buff`, over the rows in the order in which
they are written. -/
def fillBaselineHashJoinBuff (hash : List Int → ℕ) (hashBuff : Memory) :
    List (ℕ × List Int) → Option (Except Int Memory)
  | [] => some (.ok hashBuff)
  | (id, key) :: rows =>
    match t.writeBaselineHashSlot hash hashBuff id key with
    | some (.ok buff) => fillBaselineHashJoinBuff hash buff rows
    | r => r

-- ======== searching

/-- `get_matching_slot`. -/
def getMatchingSlot (hashBuff : Memory) (key : List Int) (h : ℕ) : Int :=
  if (t.searched.keyCells h).map hashBuff = key then hashBuff (t.searched.slot h)
  else if hashBuff (t.searched.cell h 0) = t.emptyKey then kNotPresent
  else kNoMatch

/-- `baseline_hash_join_idx`; none when the loop does not end. -/
def baselineHashJoinIdx (hash : List Int → ℕ) (hashBuff : Memory) (key : List Int) :
    Option Int :=
  (Probing.probe t.entryCount
    (fun h => if t.getMatchingSlot hashBuff key h ≠ kNoMatch then
        some (t.getMatchingSlot hashBuff key h) else none)
    (hash key % t.entryCount)).map (·.getD kNoMatch)

-- ======== offsets

/-- The components of a row, the id of the inner row among them or not. -/
def rowComponents (withValSlot : Bool) : ℕ :=
  t.keyComponentCount + if withValSlot then 1 else 0

/-- `off` of slot `h` in `init_baseline_hash_join_buff`: a `size_t` that
is kept in a `uint32_t`. -/
def initOffset (withValSlot : Bool) (h : ℕ) : ℕ :=
  h * t.rowComponents withValSlot * t.keyWidth.size % 2 ^ 64 % 2 ^ 32

/-- `off` of slot `h` in `get_matching_baseline_hash_slot_at`. -/
def matchingOffset (withValSlot : Bool) (h : ℕ) : ℕ :=
  h * t.rowComponents withValSlot * t.keyWidth.size % 2 ^ 64 % 2 ^ 32

/-- The size of a key, which the generated code passes to a search. -/
def keyBytes : ℕ := t.keyComponentCount * t.keyWidth.size

/-- Where `get_matching_slot` reads slot `h`. -/
def readOffset (h : ℕ) : ℕ :=
  h * (t.keyBytes + t.keyWidth.size) % 2 ^ 64

/-- The bytes of a row that begins at an offset. -/
def rowBytes (off : ℕ) : Finset ℕ :=
  Finset.Ico off (off + t.rowComponents true * t.keyWidth.size)

/-- A slot lies at one offset for all who use it, and no byte is in two
slots. -/
structure SlotsConsistent : Prop where
  init_eq : ∀ h < t.entryCount, t.initOffset true h = t.readOffset h
  matching_eq : ∀ h < t.entryCount, t.matchingOffset true h = t.readOffset h
  disjoint : ∀ p < t.entryCount, ∀ q < t.entryCount, p ≠ q →
    Disjoint (t.rowBytes (t.readOffset p)) (t.rowBytes (t.readOffset q))

-- ======== the statement

/-- A key of the width of the table. -/
def ValidKey (key : List Int) : Prop :=
  key.length = t.keyComponentCount
    ∧ ∀ c ∈ key, t.keyWidth.minKey ≤ c ∧ c ≤ t.keyWidth.emptyKey

/-- Inner rows: ids are `int32_t`, keys are different, and there are
fewer rows than entries. -/
structure InnerRows (rows : List (ℕ × List Int)) : Prop where
  valid : ∀ r ∈ rows, t.ValidKey r.2
  ids : ∀ r ∈ rows, r.1 < 2 ^ 31
  nodup : (rows.map Prod.snd).Nodup
  length_lt : rows.length < t.entryCount

/-- The table is filled, and then finds the id of every row and no other
key. -/
def FindsEveryRow (hash : List Int → ℕ) (allocated : Memory) (rows : List (ℕ × List Int)) : Prop :=
  ∃ buff, t.fillBaselineHashJoinBuff hash (t.initBaselineHashJoinBuff allocated) rows
      = some (.ok buff)
    ∧ (∀ r ∈ rows, t.baselineHashJoinIdx hash buff r.2 = some (r.1 : Int))
    ∧ ∀ key, t.ValidKey key → key ∉ rows.map Prod.snd →
        ∃ i < 0, t.baselineHashJoinIdx hash buff key = some i

/-- No offset is cut off, no key begins with the write-pending value, and
only the row that is written last may begin with the empty key. -/
def Storable (rows : List (ℕ × List Int)) : Prop :=
  (t.entryCount - 1) * (t.keyComponentCount + 1) * t.keyWidth.size < 2 ^ 32
    ∧ (∀ r ∈ rows, r.2.head? ≠ some t.writePending)
    ∧ ∀ r ∈ rows.dropLast, r.2.head? ≠ some t.emptyKey

end JoinTable

end Compass.HashTable
