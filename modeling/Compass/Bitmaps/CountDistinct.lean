/-
Sets of distinct values, collected in several result buffers and merged
(CountDistinct.h, CountDistinctDescriptor.h, RuntimeFunctions.cpp).

A set is a bitmap or a `std::set`. A bitmap may be several sub-bitmaps, one
behind the other and each padded to words; threads put a value into any of
them, and they are brought together only when the set is counted. A union
writes both of its operands, and counting writes the first sub-bitmap.

Handles name the sets; what is undefined (an access behind the end of a
bitmap) or stops the program (a failed CHECK) is none. The sketches of an
approximate count are a parameter.
-/
import Compass.Bitmaps.InValuesBitmap
import Compass.Lib.Merging

namespace Compass.Bitmaps

open Bitmap (Byte)

-- ======== descriptors

inductive CountDistinctImplType where
  | Invalid
  | Bitmap
  | StdSet
deriving DecidableEq, Repr

inductive ExecutorDeviceType where
  | CPU
  | GPU
deriving DecidableEq, Repr

structure CountDistinctDescriptor where
  implType : CountDistinctImplType
  minVal : Int64
  bitmapSzBits : Int
  approximate : Bool
  deviceType : ExecutorDeviceType
  subBitmapCount : ℕ
deriving DecidableEq, Repr

/-- `align_to_int64`. -/
def alignToInt64 (addr : ℕ) : ℕ := (addr + 7) / 8 * 8

namespace CountDistinctDescriptor

variable (d : CountDistinctDescriptor)

def bitmapSizeBytes : Option ℕ :=
  if d.implType = .Bitmap then
    if d.approximate then
      some (2 ^ d.bitmapSzBits.toNat * if d.deviceType = .GPU then 4 else 1)
    else some (bitmapBitsToBytes d.bitmapSzBits.toNat)
  else none

def bitmapPaddedSizeBytes : Option ℕ := do
  let effectiveSize ← d.bitmapSizeBytes
  let paddedSize :=
    if d.deviceType = .GPU ∨ d.subBitmapCount > 1 then alignToInt64 effectiveSize
    else effectiveSize
  return paddedSize * d.subBitmapCount

end CountDistinctDescriptor

-- ======== sets

inductive CountDistinctSet where
  | bitmap (bytes : List Byte)
  | stdSet (elems : Finset Int64)
deriving DecidableEq

/-- The sets of a program, by handle. -/
abbrev Sets := ℕ → CountDistinctSet

/-- The byte at an offset of a bitmap. -/
def Sets.load (m : Sets) (p : ℕ × ℕ) : Option Byte :=
  match m p.1 with
  | .bitmap bytes => bytes[p.2]?
  | .stdSet _ => none

def Sets.store (m : Sets) (p : ℕ × ℕ) (v : Byte) : Option Sets :=
  match m p.1 with
  | .bitmap bytes =>
    if p.2 < bytes.length then some (Function.update m p.1 (.bitmap (bytes.set p.2 v)))
    else none
  | .stdSet _ => none

/-- `lhs[i] = rhs[i] = lhs[i] | rhs[i]`. -/
def unionByte (lhs rhs : ℕ × ℕ) (m : Sets) (i : ℕ) : Option Sets := do
  let l ← m.load (lhs.1, lhs.2 + i)
  let r ← m.load (rhs.1, rhs.2 + i)
  let m ← m.store (rhs.1, rhs.2 + i) (l ||| r)
  m.store (lhs.1, lhs.2 + i) (l ||| r)

def bitmapSetUnion (m : Sets) (lhs rhs : ℕ × ℕ) (bitmapSz : ℕ) : Option Sets :=
  (List.range bitmapSz).foldlM (unionByte lhs rhs) m

/-- The bits of whole words, and then of the bytes that remain. -/
def bitmapSetSize (bitmap : List Byte) (bitmapByteSz : ℕ) : Option ℕ :=
  if bitmapByteSz ≤ bitmap.length then
    let bitmapWordCount := bitmapByteSz / 8
    some (((List.range bitmapWordCount).map fun i =>
        Bitmap.popCount (Bitmap.word 64 ((bitmap.drop (8 * i)).take 8))).sum
      + ((List.range (bitmapByteSz % 8)).map fun i =>
        Bitmap.popCount (bitmap.getD (8 * bitmapWordCount + i) 0)).sum)
  else none

/-- `partial_bitmap_union`: the sub-bitmaps into the first one. -/
def partialBitmapUnion (m : Sets) (setVals : ℕ) (d : CountDistinctDescriptor) : Option Sets := do
  let padded ← d.bitmapPaddedSizeBytes
  let size ← d.bitmapSizeBytes
  if padded % d.subBitmapCount ≠ 0 then none
  else
    let partialPaddedSize := padded / d.subBitmapCount
    (List.range' 1 (d.subBitmapCount - 1)).foldlM
      (fun m i => bitmapSetUnion m (setVals, 0) (setVals, i * partialPaddedSize) size) m

/-- What a count does first. -/
def foldSubBitmaps (m : Sets) (setVals : ℕ) (d : CountDistinctDescriptor) : Option Sets :=
  if d.subBitmapCount > 1 then partialBitmapUnion m setVals d else some m

/-- `hll_size` and `hll_unify`. -/
structure Hll where
  size : ExecutorDeviceType → List Byte → Int → Int
  unify : ExecutorDeviceType → ExecutorDeviceType → List Byte → List Byte → ℕ →
    List Byte × List Byte

variable (hll : Hll)

/-- `count_distinct_set_size`; the handle 0 is none. -/
def countDistinctSetSize (m : Sets) (setHandle : Option ℕ) (targetIdx : ℕ)
    (countDistinctDescriptors : List CountDistinctDescriptor) : Option (Int × Sets) :=
  match setHandle with
  | none => some (0, m)
  | some h => do
      let d ← countDistinctDescriptors[targetIdx]?
      match d.implType, m h with
      | .Bitmap, .bitmap bytes =>
        if d.approximate then
          if d.bitmapSzBits > 0 then return (hll.size d.deviceType bytes d.bitmapSzBits, m)
          else none
        else do
          let m ← foldSubBitmaps m h d
          match m h with
          | .bitmap bytes => do
              let size ← d.bitmapSizeBytes
              let count ← bitmapSetSize bytes size
              return ((count : Int), m)
          | .stdSet _ => none
      | .StdSet, .stdSet elems => return ((elems.card : Int), m)
      | _, _ => none

/-- `count_distinct_set_union`. -/
def countDistinctSetUnion (m : Sets) (newSet oldSet : ℕ)
    (newDesc oldDesc : CountDistinctDescriptor) : Option Sets :=
  if newDesc.implType = .Bitmap then
    if newDesc.approximate then
      match oldDesc.approximate, m newSet, m oldSet with
      | true, .bitmap new, .bitmap old =>
        let (new, old) := hll.unify newDesc.deviceType oldDesc.deviceType new old
          (2 ^ oldDesc.bitmapSzBits.toNat)
        some (Function.update (Function.update m newSet (.bitmap new)) oldSet (.bitmap old))
      | _, _, _ => none
    else if newDesc.subBitmapCount = oldDesc.subBitmapCount ∧ 1 ≤ oldDesc.subBitmapCount then do
      let bitmapByteSz ←
        if oldDesc.subBitmapCount = 1 then oldDesc.bitmapSizeBytes
        else oldDesc.bitmapPaddedSizeBytes
      bitmapSetUnion m (newSet, 0) (oldSet, 0) bitmapByteSz
    else none
  else if oldDesc.implType = .StdSet then
    match m newSet, m oldSet with
    | .stdSet new, .stdSet old =>
      let m := Function.update m newSet (.stdSet (new ∪ old))
      match m newSet, m oldSet with
      | .stdSet new, .stdSet old => some (Function.update m oldSet (.stdSet (old ∪ new)))
      | _, _ => none
    | _, _ => none
  else none

-- ======== values

/-- A value that reaches a result buffer, and for a bitmap the sub-bitmap
that it is put into. -/
structure Entry where
  buffer : ℕ
  sub : ℕ
  val : Int64
deriving DecidableEq, Repr

/-- `agg_count_distinct` and `agg_count_distinct_bitmap`, or their
`_skip_val` forms. -/
def addValue (d : CountDistinctDescriptor) (skipVal : Option Int64) (m : Sets) (e : Entry) :
    Option Sets :=
  if skipVal = some e.val then some m
  else
    match d.implType, m e.buffer with
    | .Bitmap, .bitmap bytes => do
        let padded ← d.bitmapPaddedSizeBytes
        let start := e.sub * (padded / d.subBitmapCount)
        let agg ← aggCountDistinctBitmap (bytes.drop start) e.val d.minVal
        return Function.update m e.buffer (.bitmap (bytes.take start ++ agg))
    | .StdSet, .stdSet elems =>
      some (Function.update m e.buffer (.stdSet (insert e.val elems)))
    | _, _ => none

/-- One target of a query that is counted exactly: the descriptors of every
result buffer have the same geometry, and may be of different devices. -/
structure ExactCount where
  target : CountDistinctDescriptor
  device : ℕ → ExecutorDeviceType
  targetIdx : ℕ
  descriptors : ℕ → List CountDistinctDescriptor
  skipVal : Option Int64
  same : ∀ h, (descriptors h)[targetIdx]? = some { target with deviceType := device h }
  exact : target.approximate = false
  impl : target.implType ≠ .Invalid
  bits_nonneg : 0 ≤ target.bitmapSzBits
  bits_lt : target.bitmapSzBits < 2 ^ 63
  subs_pos : 1 ≤ target.subBitmapCount

inductive Call where
  | union (newSet oldSet : ℕ)
  | size (setHandle : ℕ)
deriving DecidableEq, Repr

namespace ExactCount

variable (c : ExactCount)

def desc (h : ℕ) : CountDistinctDescriptor := { c.target with deviceType := c.device h }

/-- The sets as they are allocated. -/
def allocated : Sets := fun h =>
  match (c.desc h).implType with
  | .Bitmap => .bitmap (List.replicate ((c.desc h).bitmapPaddedSizeBytes.getD 0) 0)
  | _ => .stdSet ∅

def fill (entries : List Entry) : Option Sets :=
  entries.foldlM (fun m e => addValue (c.desc e.buffer) c.skipVal m e) c.allocated

def call (m : Sets) : Call → Option Sets
  | .union newSet oldSet =>
    countDistinctSetUnion hll m newSet oldSet (c.desc newSet) (c.desc oldSet)
  | .size h => (countDistinctSetSize hll m (some h) c.targetIdx (c.descriptors h)).map Prod.snd

def run (entries : List Entry) (calls : List Call) : Option Sets := do
  let m ← c.fill entries
  calls.foldlM (c.call hll) m

-- ======== the statement

/-- A value that is not null lies in the range of the bitmap, and goes into
a sub-bitmap that there is. -/
def Valid (e : Entry) : Prop :=
  c.target.implType = .Bitmap → c.skipVal ≠ some e.val →
    c.target.minVal.toInt ≤ e.val.toInt
      ∧ e.val.toInt - c.target.minVal.toInt < c.target.bitmapSzBits
      ∧ e.sub < c.target.subBitmapCount

/-- The distinct values of the entries of some buffers, null excluded. -/
def distinct (entries : List Entry) (buffers : Finset ℕ) : Finset Int64 :=
  ((entries.filter fun e => e.buffer ∈ buffers ∧ c.skipVal ≠ some e.val).map Entry.val).toFinset

end ExactCount

/-- The pairs of sets that calls merge. -/
def unions (calls : List Call) : List (ℕ × ℕ) :=
  calls.filterMap fun
    | .union newSet oldSet => some (newSet, oldSet)
    | .size _ => none

end Compass.Bitmaps
