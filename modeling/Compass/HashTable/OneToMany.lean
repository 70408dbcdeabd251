/-
The one-to-many perfect hash table of a join (HashJoinRuntime.cpp,
`fill_one_to_many_hash_table`), built on the CPU by several threads.

The buffer has three parts: for each slot the position of its segment in
`id_buff` and the length of that segment, and `id_buff` itself. The fill
counts the rows of each slot, takes the running sums of the counts as the
positions, and then puts every row id at the next free place of its slot.

The threads stride over the rows and over the slots. Their actions on the
shared buffer interleave in any way; an action is one access that the
hardware does at once, so the `mapd_add` of a row and the store of its id
are two. `inclusive_scan` lets its threads work on ranges that do not
overlap, and takes no action on what another thread reads.

A column has at most 2^31 - 1 rows (`JoinHashTable::reify`), so the counts
and the positions are naturals. What is undefined in the source (an index
outside of its buffer, an `int` past its end) or stops it (a failed
`CHECK`) is `none`.
-/
import Compass.Lib.Interleave
import Mathlib.Algebra.GroupWithZero.Nat

namespace Compass.HashTable.OneToMany

open Interleave

def intMax : Nat := 2147483647

/-- `StringDictionary::INVALID_STR_ID`. -/
def invalidStrId : Int := -1

/-- `hash_join_invalid_val`. -/
def invalidSlotVal : Int := -1

/-- The dictionaries of an inner and an outer column of strings. -/
structure Proxies where
  getString : Int → String
  getIdOfString : String → Int

/-- What a fill is given. The elements are decoded; `minVal` and `maxVal`
are the range that `JoinHashTable::getInstance` computes. -/
structure Build where
  elems : List Int
  nullVal : Int
  usesBwEq : Bool
  proxies : Option Proxies
  minVal : Int
  maxVal : Int
  cpuThreadCount : Nat

namespace Build

variable (b : Build)

def numElems : Nat := b.elems.length

/-- `col_range_.getIntMax() + 1`. -/
def translatedNullVal : Int := b.maxVal + 1

/-- `get_hash_entry_count`. An empty range is 0 to -1. -/
def hashEntryCount : Nat :=
  (b.maxVal - b.minVal + 1).toNat + if b.usesBwEq then 1 else 0

-- ======== the key of a row

/-- The first test of both loops: a null is left out, or translated when
the join is null-safe. -/
def translateNull (elem : Int) : Option Int :=
  if elem = b.nullVal then
    if b.usesBwEq then some b.translatedNullVal else none
  else some elem

/-- The second test of both loops: the id of the inner dictionary becomes
the id that the outer one has for the same string, if any. -/
def translateId (elem : Int) : Option Int :=
  match b.proxies with
  | none => some elem
  | some p =>
    if !b.usesBwEq || elem != b.translatedNullVal then
      let outerId := p.getIdOfString (p.getString elem)
      if outerId = invalidStrId then none else some outerId
    else some elem

/-- The key of a row; `none` where the loops go on with the next row. -/
def rowKey (i : Nat) : Option Int :=
  ((b.elems[i]?).bind b.translateNull).bind b.translateId

/-- `get_hash_slot`, as an index into the buffer it is given. -/
def getHashSlot (key : Int) : Int := key - b.minVal

end Build

-- ======== the buffer

structure Buff where
  pos : Nat → Int
  count : Nat → Nat
  ids : Nat → Nat

/-- The buffer when the fill starts: `init_hash_join_buff` has set the
positions, and the vector is made of zeroes. -/
def Buff.init : Buff := ⟨fun _ => invalidSlotVal, fun _ => 0, fun _ => 0⟩

/-- An index into a buffer of `n` entries. -/
def index (n : Nat) (i : Int) : Option Nat :=
  if 0 ≤ i ∧ i < n then some i.toNat else none

namespace Build

variable (b : Build)

-- ======== count_matches

/-- The slots that thread `t` counts up, in its order. -/
def countMatches (t : Nat) : List Int :=
  (strided b.cpuThreadCount b.numElems t).filterMap fun i =>
    (b.rowKey i).map b.getHashSlot

/-- `mapd_add(entry_ptr, 1)`. -/
def mapdAdd (count : Nat → Nat) (slot : Int) : Option (Nat → Nat) :=
  (index b.hashEntryCount slot).map fun s =>
    Function.update count s (count s + 1)

/-- The first phase, for the order `run` of the increments. -/
def runCounts (run : List Int) : Option (Nat → Nat) :=
  run.foldlM b.mapdAdd fun _ => 0

end Build

-- ======== inclusive_scan

/-- `*out = sum += *iter`, from `sum` on. -/
def scanFrom (sum : Nat) : List Nat → List Nat
  | [] => []
  | x :: xs => (sum + x) :: scanFrom (sum + x) xs

/-- `start_off` of thread `t`. -/
def startOff (elemCount step : Nat) : Nat → Nat
  | 0 => 0
  | t + 1 => min (startOff elemCount step t + step) elemCount

/-- The range of thread `t`: from its `start_off` to its `end_off`. -/
def chunk (xs : List Nat) (step t : Nat) : List Nat :=
  let start := startOff xs.length step t
  (xs.drop start).take (min (start + step) xs.length - start)

def inclusiveScan (xs : List Nat) (threadCount : Nat) : List Nat :=
  if xs.length < 10000 ∨ threadCount ≤ 1 then scanFrom 0 xs
  else
    let step := (xs.length + threadCount - 1) / threadCount
    let chunks := (List.range threadCount).map (chunk xs step)
    let partialSums := scanFrom 0 (chunks.map List.sum)
    let out := chunks.map (scanFrom 0)
    -- every thread but the first adds what the ones before it summed up
    (out.take 1 ++ List.zipWith (fun prevSum ys => ys.map (prevSum + ·))
      partialSums (out.drop 1)).flatten

namespace Build

variable (b : Build)

/-- `count_copy`: the counts, shifted by one. -/
def countCopy (count : Nat → Nat) : List Nat :=
  0 :: (List.range (b.hashEntryCount - 1)).map count

-- ======== the positions

/-- The slots of `for (int i = thread_idx; i < hash_entry_count; i +=
cpu_thread_count)`. The counter is an `int`: `none` if it goes past its
end before it passes the bound. -/
def intLoop (step bound : Nat) (i : Nat) : Option (List Nat) :=
  if i < bound ∧ 0 < step then
    if i + step ≤ intMax then
      (intLoop step bound (i + step)).map (i :: ·)
    else none
  else some []
termination_by bound - i

/-- The loops of all threads. -/
def posLoops : Option (List (List Nat)) :=
  (List.range b.cpuThreadCount).mapM
    (intLoop b.cpuThreadCount b.hashEntryCount)

/-- One step of the loop. -/
def setPos (count : Nat → Nat) (scan : List Nat) (pos : Nat → Int) (i : Nat) :
    Nat → Int :=
  if count i = 0 then pos else Function.update pos i (scan.getD i 0)

/-- The third phase, for the order `run` of the steps. -/
def runPositions (count : Nat → Nat) (scan : List Nat) (pos : Nat → Int)
    (run : List Nat) : Nat → Int :=
  run.foldl (setPos count scan) pos

-- ======== fill_row_ids

/-- What a thread does for a row: it takes the next place of the slot,
and stores the row id there. -/
inductive RowAction
  | take (i : Nat) (slot : Int)
  | store (i : Nat)
deriving DecidableEq, Repr

def rowActions (i : Nat) : List RowAction :=
  match b.rowKey i with
  | none => []
  | some key => [.take i (b.getHashSlot key), .store i]

def fillRowIds (t : Nat) : List RowAction :=
  (strided b.cpuThreadCount b.numElems t).flatMap b.rowActions

/-- The buffer, and for each row the `id_buff_idx` that its thread holds. -/
structure RowState where
  buff : Buff
  idBuffIdx : Nat → Option Int

def rowStep (st : RowState) : RowAction → Option RowState
  | .take i slot => do
      let s ← index b.hashEntryCount slot
      if st.buff.pos s = invalidSlotVal then none
      else
        some {
          buff := { st.buff with
            count := Function.update st.buff.count s (st.buff.count s + 1) }
          idBuffIdx := Function.update st.idBuffIdx i
            (some (st.buff.count s + st.buff.pos s)) }
  | .store i => do
      let idx ← st.idBuffIdx i
      let q ← index b.numElems idx
      some { st with
        buff := { st.buff with ids := Function.update st.buff.ids q i } }

/-- The last phase, for the order `run` of the actions. -/
def runRows (buff : Buff) (run : List RowAction) : Option RowState :=
  run.foldlM b.rowStep ⟨buff, fun _ => none⟩

-- ======== the fill

/-- The fill, for one order of each phase. -/
def fill (counting : List Int) (positioning : List Nat)
    (scattering : List RowAction) : Option Buff := do
  let count ← b.runCounts counting
  let scan := inclusiveScan (b.countCopy count) b.cpuThreadCount
  let pos := runPositions count scan Buff.init.pos positioning
  let st ← b.runRows { Buff.init with pos := pos } scattering
  some st.buff

/-- `fill_one_to_many_hash_table`: what the fill may end with. The phases
are apart, since the threads of one are joined before the next. -/
inductive FillOneToManyHashTable : Option Buff → Prop
  | overflow (hloops : b.posLoops = none) : FillOneToManyHashTable none
  | run {loops : List (List Nat)} {counting : List Int}
      {positioning : List Nat} {scattering : List RowAction}
      (hloops : b.posLoops = some loops)
      (hcounting : Interleaves
        ((List.range b.cpuThreadCount).map b.countMatches) counting)
      (hpositioning : Interleaves loops positioning)
      (hscattering : Interleaves
        ((List.range b.cpuThreadCount).map b.fillRowIds) scattering) :
      FillOneToManyHashTable (b.fill counting positioning scattering)

-- ======== the claim

/-- The key under which a row is to be found: of its value, or of the
value that stands for null. -/
def joinKey (elem : Int) : Option Int :=
  if elem = b.nullVal then
    if b.usesBwEq then some b.translatedNullVal else none
  else
    match b.proxies with
    | none => some elem
    | some p =>
      let outerId := p.getIdOfString (p.getString elem)
      if outerId = invalidStrId then none else some outerId

/-- The rows of a slot. -/
def rowsOf (s : Nat) : List Nat :=
  (List.range b.numElems).filter fun i =>
    (b.elems[i]?).bind b.joinKey = some (b.minVal + s)

/-- What callers give to the fill: a range that covers the values of the
column and the ids that they are translated to, and sizes that fit an
`int`. -/
structure Covered : Prop where
  values : ∀ elem ∈ b.elems, elem ≠ b.nullVal →
    b.minVal ≤ elem ∧ elem ≤ b.maxVal
  outerIds : ∀ p, b.proxies = some p → ∀ elem ∈ b.elems, elem ≠ b.nullVal →
    p.getIdOfString (p.getString elem) ≠ invalidStrId →
    b.minVal ≤ p.getIdOfString (p.getString elem)
      ∧ p.getIdOfString (p.getString elem) ≤ b.maxVal
  range : b.minVal ≤ b.maxVal + 1
  entries : 0 < b.hashEntryCount ∧ b.hashEntryCount ≤ intMax
  rows : b.numElems ≤ intMax
  threads : 0 < b.cpuThreadCount ∧ b.cpuThreadCount ≤ intMax

/-- The segment of a slot in `id_buff`. -/
def segment (buff : Buff) (s : Nat) : List Nat :=
  (List.range (buff.count s)).map fun (k : Nat) =>
    buff.ids (buff.pos s + (k : Int)).toNat

structure Exact (buff : Buff) : Prop where
  segments : ∀ s < b.hashEntryCount, (segment buff s).Perm (b.rowsOf s)
  inside : ∀ s < b.hashEntryCount, ∀ k < buff.count s,
    0 ≤ buff.pos s + k ∧ buff.pos s + k < b.numElems
  disjoint : ∀ s < b.hashEntryCount, ∀ s' < b.hashEntryCount, s ≠ s' →
    ∀ k < buff.count s, ∀ k' < buff.count s', buff.pos s + k ≠ buff.pos s' + k'
  empty : ∀ s < b.hashEntryCount, b.rowsOf s = [] →
    buff.pos s = invalidSlotVal

/-- Whatever the schedule, the fill ends with an exact table. -/
def FillsExactly : Prop :=
  (∃ outcome, b.FillOneToManyHashTable outcome) ∧
    ∀ outcome, b.FillOneToManyHashTable outcome →
      ∃ buff, outcome = some buff ∧ b.Exact buff

/-- No counter of the position loops goes past its end. -/
def LoopsFit : Prop := b.hashEntryCount + b.cpuThreadCount ≤ 2 ^ 31

instance : Decidable b.LoopsFit :=
  inferInstanceAs (Decidable (b.hashEntryCount + b.cpuThreadCount ≤ 2 ^ 31))

end Build

end Compass.HashTable.OneToMany
