/-
Membership in a long list of integers, by a bitmap (InValuesBitmap.cpp,
InValuesIR.cpp, RuntimeFunctions.cpp).

The bitmap spans the least and the greatest value of the list; entries that
are the null sentinel are left out and remembered in one flag. Code for a
lookup is emitted only when there is a bitmap: a list without values gives
a constant. The flag is read for that constant alone, so a list that has
both a null and a value answers false where it should answer null.

An access outside the bitmap, a difference of `int64_t` that overflows and
a failed CHECK are none; what the constructor throws is a `Thrown`.
-/
import Compass.Lib.Bitmap
import Compass.Lib.Kleene

namespace Compass.Bitmaps

open Bitmap (Byte)

-- ======== access

/-- `bitmap_bits_to_bytes`. -/
def bitmapBitsToBytes (bitmapSz : ℕ) : ℕ :=
  if bitmapSz % 8 ≠ 0 then bitmapSz / 8 + 1 else bitmapSz / 8

/-- `x - y` of two `int64_t`. -/
def int64Sub (x y : Int64) : Option Int64 :=
  if -2 ^ 63 ≤ x.toInt - y.toInt ∧ x.toInt - y.toInt < 2 ^ 63 then some (x - y) else none

/-- `agg_count_distinct_bitmap`. -/
def aggCountDistinctBitmap (agg : List Byte) (val minVal : Int64) : Option (List Byte) := do
  let bitmapIdx ← int64Sub val minVal
  Bitmap.insert agg bitmapIdx.toUInt64.toNat

/-- `bit_is_set`. -/
def bitIsSet (bitset : List Byte) (val minVal maxVal nullVal : Int64) (nullBoolVal : Int8) :
    Option Int8 :=
  if val = nullVal then some nullBoolVal
  else if val < minVal ∨ val > maxVal then some 0
  else do
    let bitmapIdx ← int64Sub val minVal
    let isSet ← Bitmap.test bitset bitmapIdx.toUInt64.toNat
    return if isSet then 1 else 0

-- ======== construction

inductive Thrown where
  | failedToCreateBitmap
  | overflow
  | outOfHostMemory
deriving DecidableEq, Repr

/-- `checked_int64_t`: a sign and 64 bits. -/
def checkedInt64 (n : Int) : Except Thrown Int :=
  if n.natAbs < 2 ^ 64 then .ok n else .error .overflow

/-- `static_cast<int64_t>` of a `checked_int64_t`. -/
def checkedToInt64 (n : Int) : Except Thrown Int :=
  if -2 ^ 63 ≤ n ∧ n < 2 ^ 63 then .ok n else .error .overflow

/-- What the loop over the list finds. -/
structure Scan where
  rhsHasNull : Bool
  minVal : Int64
  maxVal : Int64
deriving DecidableEq, Repr

def Scan.init : Scan := ⟨false, Int64.maxValue, Int64.minValue⟩

def Scan.step (nullVal : Int64) (s : Scan) (value : Int64) : Scan :=
  if value = nullVal then { s with rhsHasNull := true }
  else
    { s with
      minVal := if value < s.minVal then value else s.minVal
      maxVal := if value > s.maxVal then value else s.maxVal }

/-- `bitset` is the one of `bitsets_`, where there is one. -/
structure InValuesBitmap where
  bitset : Option (List Byte)
  rhsHasNull : Bool
  minVal : Int64
  maxVal : Int64
  nullVal : Int64
deriving DecidableEq, Repr

def maxBitmapBits : Int := 8 * 1000 * 1000 * 1000

/-- `bitmap_sz_bits`, when it is not too large. -/
def bitmapSzBits (minVal maxVal : Int64) : Except Thrown Int := do
  let diff ← checkedInt64 (maxVal.toInt - minVal.toInt)
  let size ← checkedInt64 (diff + 1)
  let bits ← checkedToInt64 size
  if bits > maxBitmapBits then throw .failedToCreateBitmap
  return bits

/-- The bitmap of the values that are not null, in zeroed memory. -/
def fillBitset (values : List Int64) (nullVal minVal : Int64) (bytes : ℕ) : Option (List Byte) :=
  values.foldlM
    (fun bitset value =>
      if value = nullVal then some bitset else aggCountDistinctBitmap bitset value minVal)
    (List.replicate bytes 0)

/-- `InValuesBitmap::InValuesBitmap` on the host. `uninit` is in the fields
that it leaves alone, and `callocs` says whether memory can be had. -/
def InValuesBitmap.make (uninit : Int64) (callocs : ℕ → Bool) (values : List Int64)
    (nullVal : Int64) : Option (Except Thrown InValuesBitmap) :=
  if values.isEmpty then some (.ok ⟨none, false, uninit, uninit, nullVal⟩)
  else
    let s := values.foldl (Scan.step nullVal) Scan.init
    if s.maxVal < s.minVal then
      if s.minVal = Int64.maxValue ∧ s.maxVal = Int64.minValue ∧ s.rhsHasNull then
        some (.ok ⟨none, s.rhsHasNull, s.minVal, s.maxVal, nullVal⟩)
      else none
    else
      match bitmapSzBits s.minVal s.maxVal with
      | .error e => some (.error e)
      | .ok bits =>
        let bytes := bitmapBitsToBytes bits.toNat
        if callocs bytes then
          (fillBitset values nullVal s.minVal bytes).map fun bitset =>
            .ok ⟨some bitset, s.rhsHasNull, s.minVal, s.maxVal, nullVal⟩
        else some (.error .outOfHostMemory)

-- ======== lookup

/-- `inline_int_null_val` of a boolean. -/
def nullBool : Int8 := Int8.minValue

/-- What the code emitted for `needle IN list` computes. -/
def InValuesBitmap.lookup (b : InValuesBitmap) (needle : Int64) : Option Int8 :=
  match b.bitset with
  | none => some (if b.rhsHasNull then nullBool else 0)
  | some bitset => bitIsSet bitset needle b.minVal b.maxVal b.nullVal nullBool

-- ======== the statement

/-- The value that an `int64_t` stands for. -/
def decode (nullVal v : Int64) : Option Int64 :=
  if v = nullVal then none else some v

/-- SQL equality. -/
def sqlEq : Option Int64 → Option Int64 → Truth
  | some x, some y => if x = y then .yes else .no
  | _, _ => .unknown

/-- SQL membership. -/
def sqlIn (needle : Option Int64) (list : List (Option Int64)) : Truth :=
  Truth.any (list.map (sqlEq needle))

/-- The truth value that a boolean in a register stands for. -/
def truthOf (r : Int8) : Truth :=
  if r = nullBool then .unknown else if r = 0 then .no else .yes

/-- Every lookup stays inside the bitmap and answers as the list does. -/
def InValuesBitmap.AnswersAs (b : InValuesBitmap) (values : List Int64) (nullVal : Int64) :
    Prop :=
  ∀ needle, ∃ r, b.lookup needle = some r
    ∧ truthOf r = sqlIn (decode nullVal needle) (values.map (decode nullVal))

/-- The bitmap has a bit for every number from the least to the greatest
value, and no more than a byte needs. -/
def InValuesBitmap.SizeExact (b : InValuesBitmap) : Prop :=
  ∀ bitset, b.bitset = some bitset →
    bitset.length = bitmapBitsToBytes (b.maxVal.toInt - b.minVal.toInt + 1).toNat
      ∧ b.minVal ≤ b.maxVal

end Compass.Bitmaps
