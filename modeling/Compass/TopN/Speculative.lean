/-
Speculative top n (SpeculativeTopN.cpp): the groups with the highest (or
lowest) counts, from the best groups of each device.

Each device sorts its own groups. A map keeps the first `truncate_n` of
them and, as `unknown`, the count of the next one. `reduce` adds a map to
the ones before it: a group that the map does not have counts as much as
its `unknown`, and is marked. `asRows` sorts what is there and fails if a
group that it would return is marked.

Counts are numbers of rows, so they and their sums are naturals here. A
`std::unordered_map` is a list of its entries; the order in which it is
visited only matters for groups with equal counts, and the sort may put
those in any order.
-/
import Compass.Lib.Sorting
import Mathlib.Data.Finset.Card
import Mathlib.Algebra.BigOperators.Group.List.Basic
import Mathlib.Algebra.GroupWithZero.Nat

namespace Compass.TopN

/-- A row of a result: the group and its count, or the count first. -/
structure Row where
  col0 : Int
  col1 : Int
deriving DecidableEq, Repr

def Row.ofGroup (countFirst : Bool) (key : Int) (val : ℕ) : Row :=
  if countFirst then ⟨val, key⟩ else ⟨key, val⟩

def Row.key (countFirst : Bool) (row : Row) : Int :=
  if countFirst then row.col1 else row.col0

def Row.val (countFirst : Bool) (row : Row) : ℕ :=
  (if countFirst then row.col0 else row.col1).toNat

/-- `SpeculativeTopNVal`. -/
structure Val where
  val : ℕ
  unknown : Bool
deriving DecidableEq, Repr

/-- `SpeculativeTopNMap`. -/
structure TopNMap where
  map : List (Int × Val)
  unknown : ℕ

inductive Fault
  | check
  | speculativeTopNFailed
deriving DecidableEq, Repr

namespace TopNMap

def empty : TopNMap := ⟨[], 0⟩

def find? (m : TopNMap) (key : Int) : Option Val :=
  (m.map.find? fun kv => kv.1 = key).map Prod.snd

/-- The loop of the constructor, from row `i` on. -/
def build (countFirst : Bool) (truncateN : ℕ) :
    ℕ → List (Int × Val) → List Row → Except Fault TopNMap
  | _, map, [] => .ok ⟨map, 0⟩
  | i, map, row :: rows =>
    if i < truncateN then
      if map.any (·.1 = row.key countFirst) then .error .check
      else build countFirst truncateN (i + 1)
        (map ++ [(row.key countFirst, ⟨row.val countFirst, false⟩)]) rows
    else .ok ⟨map, row.val countFirst⟩

/-- The constructor from the rows of a device. -/
def ofRows (countFirst : Bool) (rows : List Row) (truncateN : ℕ) : Except Fault TopNMap :=
  build countFirst truncateN 0 [] rows

/-- An entry after `that` is added. -/
def reduceEntry (that : TopNMap) (kv : Int × Val) : Int × Val :=
  match that.find? kv.1 with
  | some e => (kv.1, { kv.2 with val := kv.2.val + e.val })
  | none => (kv.1, ⟨kv.2.val + that.unknown, decide (that.unknown ≠ 0)⟩)

def reduce (m that : TopNMap) : Except Fault TopNMap :=
  if m.map.any fun kv => (that.find? kv.1).any Val.unknown then .error .check
  else .ok
    { map := m.map.map (reduceEntry that)
        ++ (that.map.filter fun kv => (m.find? kv.1).isNone).map fun kv =>
          (kv.1, ⟨kv.2.val + m.unknown, decide (m.unknown ≠ 0)⟩)
      unknown := m.unknown + that.unknown }

end TopNMap

/-- One count is not better than another. -/
def NotBetter (desc : Bool) (a b : ℕ) : Prop :=
  if desc then a ≤ b else b ≤ a

instance (desc : Bool) (a b : ℕ) : Decidable (NotBetter desc a b) :=
  inferInstanceAs (Decidable (if desc then a ≤ b else b ≤ a))

/-- The order that entries are sorted in. -/
def Sorted (desc : Bool) (x y : Int × Val) : Prop :=
  NotBetter desc y.2.val x.2.val

/-- `asRows`. -/
def TopNMap.asRows (m : TopNMap) (countFirst : Bool) (topN : ℕ) (desc : Bool)
    (sort : StdSort (Int × Val) (Sorted desc)) : Except Fault (List Row) :=
  let vec := sort.run m.map
  let numRows := min topN vec.length
  if (vec.take numRows).any (·.2.unknown) then .error .speculativeTopNFailed
  else .ok ((vec.take numRows).map fun kv => Row.ofGroup countFirst kv.1 kv.2.val)

-- ======== a query

/-- The groups of a device with their counts, in the order of its rows. -/
abbrev Device := List (Int × ℕ)

def Device.rows (countFirst : Bool) (d : Device) : List Row :=
  d.map fun kc => Row.ofGroup countFirst kc.1 kc.2

/-- The maps of the devices, reduced one after the other. -/
def reduceAll (countFirst : Bool) (truncateN : ℕ) (m : TopNMap) :
    List Device → Except Fault TopNMap
  | [] => .ok m
  | d :: ds => do
      let that ← TopNMap.ofRows countFirst (d.rows countFirst) truncateN
      let m' ← m.reduce that
      reduceAll countFirst truncateN m' ds

/-- `reduceSpeculativeTopN`, for any truncation. -/
def speculativeTopN (countFirst : Bool) (truncateN topN : ℕ) (desc : Bool)
    (sort : StdSort (Int × Val) (Sorted desc)) (devices : List Device) :
    Except Fault (List Row) := do
  let m ← reduceAll countFirst truncateN .empty devices
  m.asRows countFirst topN desc sort

-- ======== the statement

/-- Each group has one row, and the rows are sorted. -/
def Device.Valid (desc : Bool) (d : Device) : Prop :=
  (d.map Prod.fst).Nodup ∧ d.Pairwise fun x y => NotBetter desc y.2 x.2

/-- The count of a group on a device. -/
def Device.count (d : Device) (key : Int) : ℕ :=
  ((d.find? fun kc => kc.1 = key).map Prod.snd).getD 0

def total (devices : List Device) (key : Int) : ℕ :=
  (devices.map (·.count key)).sum

def groups (devices : List Device) : Finset Int :=
  (devices.flatMap (·.map Prod.fst)).toFinset

/-- The right answers: `n` groups or all, with their totals, and no other
group is better. -/
structure Answers (countFirst : Bool) (n : ℕ) (desc : Bool) (devices : List Device)
    (out : List Row) : Prop where
  length : out.length = min n (groups devices).card
  nodup : (out.map (Row.key countFirst)).Nodup
  exact : ∀ row ∈ out, row.key countFirst ∈ groups devices
    ∧ row = Row.ofGroup countFirst (row.key countFirst) (total devices (row.key countFirst))
  best : ∀ key ∈ groups devices, key ∉ out.map (Row.key countFirst) → ∀ row ∈ out,
    NotBetter desc (total devices key) (row.val countFirst)

/-- It fails or it is right. -/
def ExactOrFails (countFirst : Bool) (truncateN n : ℕ) (desc : Bool)
    (sort : StdSort (Int × Val) (Sorted desc)) (devices : List Device) : Prop :=
  speculativeTopN countFirst truncateN n desc sort devices = .error .speculativeTopNFailed
    ∨ ∃ out, speculativeTopN countFirst truncateN n desc sort devices = .ok out
      ∧ Answers countFirst n desc devices out

/-- The groups that a map keeps of a device. -/
def Device.top (truncateN : ℕ) (d : Device) : Device :=
  d.take truncateN

/-- The `unknown` of its map. -/
def Device.bound (truncateN : ℕ) (d : Device) : ℕ :=
  (d[truncateN]?.map Prod.snd).getD 0

/-- The mark of a group is taken back: the last device that does not keep
the group has no bound, some device before it has one, and the group was
there already. -/
def Cleared (truncateN : ℕ) (devices : List Device) (key : Int) : Prop :=
  ∃ pre d post, devices = pre ++ d :: post
    ∧ (∃ e ∈ pre, key ∈ (e.top truncateN).map Prod.fst)
    ∧ (∃ e ∈ pre, key ∉ (e.top truncateN).map Prod.fst ∧ e.bound truncateN ≠ 0)
    ∧ key ∉ (d.top truncateN).map Prod.fst ∧ d.bound truncateN = 0
    ∧ ∀ e ∈ post, key ∈ (e.top truncateN).map Prod.fst

/-- The maps keep enough groups, and bounds are never used, or are upper
bounds that leave their marks. -/
def Sound (truncateN n : ℕ) (desc : Bool) (devices : List Device) : Prop :=
  n = 0
    ∨ (n ≤ (groups (devices.map (·.top truncateN))).card
        ∨ groups (devices.map (·.top truncateN)) = groups devices)
      ∧ ((∀ d ∈ devices, d.length ≤ truncateN) ∨ devices.length ≤ 1
        ∨ (desc = true ∧ ∀ key, ¬ Cleared truncateN devices key))

end Compass.TopN
