/-
The string dictionary of StringDictionary/StringDictionary.{h,cpp}: the
ids of the strings of a dictionary-encoded column.

# Storage

The strings stand one after the other in the payload; the offsets hold
one `StringIdxEntry` for each, by id. Both grow by whole increments of
`1024 * PAGE_SIZE` bytes of `0xff`, the canary. A dictionary over files
maps the two files, a temporary one allocates the same bytes; the
bookkeeping is the same, so one state stands for both. The offsets are a
list of their 8-byte records and the payload a list of its bytes: the
lengths are the two `_file_size_` members.

# Faults

`CHECK` and `LOG(FATAL)` abort, an access outside of a vector or of a
mapping is undefined, and a probe may find no slot to stop at. A function
that can run into one of them returns an `Except Fault`.

# The table

`str_ids_` is an open-addressing hash table of ids with linear probing.
A bucket is computed as a `size_t` and returned as an `int32_t`, by which
the vector is then indexed.

The locks, the remote client and the caches of the search functions do
not change what these functions return for a sequence of calls, and are
left out.
-/
import Compass.Lib.Probing

namespace Compass.Dict

/-- The bytes of a `std::string`. -/
abbrev Str := List UInt8

/-- How a function of the dictionary fails to return. -/
inductive Fault
  | check
  | bounds
  | endless
  | divide
deriving DecidableEq, Repr

-- ======== machine integers

/-- Conversion to `int32_t`. -/
def toInt32 (n : Int) : Int :=
  n.bmod (2 ^ 32)

/-- A read of a vector at an `int32_t` index. -/
def at32 {α : Type} (data : List α) (i : Int) : Except Fault α :=
  if i < 0 then .error .bounds
  else match data[i.toNat]? with
    | some x => .ok x
    | none => .error .bounds

/-- A write of a vector at an `int32_t` index. -/
def set32 {α : Type} (data : List α) (i : Int) (x : α) : Except Fault (List α) :=
  if i < 0 ∨ data.length ≤ i.toNat then .error .bounds
  else .ok (data.set i.toNat x)

/-- `memcpy` into a mapping. -/
def memcpy {α : Type} (dst : List α) (off : Nat) (src : List α) : Except Fault (List α) :=
  if off + src.length ≤ dst.length then
    .ok (dst.take off ++ src ++ dst.drop (off + src.length))
  else .error .bounds

-- ======== state

def invalidStrId : Int := -1

def maxStrlen : Nat := 2 ^ 15 - 1

def maxStrcount : Nat := 2 ^ 30

structure StringIdxEntry where
  off : BitVec 48
  size : BitVec 16
deriving DecidableEq, Repr

def sizeofStringIdxEntry : Nat := 8

/-- The byte that fills new capacity. -/
def canaryByte : UInt8 := 0xff

/-- The eight bytes `0xff`, read as an entry. -/
def canaryEntry : StringIdxEntry := ⟨BitVec.allOnes 48, BitVec.allOnes 16⟩

structure StringDictionary where
  strCount : Nat
  strIds : List Int
  offsetMap : List StringIdxEntry
  payloadMap : List UInt8
  payloadFileOff : Nat
deriving DecidableEq, Repr

def StringDictionary.offsetFileSize (d : StringDictionary) : Nat :=
  sizeofStringIdxEntry * d.offsetMap.length

def StringDictionary.payloadFileSize (d : StringDictionary) : Nat :=
  d.payloadMap.length

-- ======== hash

/-- A `char` of the string, sign-extended to `size_t`. -/
def charToSize (c : UInt8) : UInt64 :=
  c.toInt8.toInt64.toUInt64

def rkHash (str : Str) : UInt64 :=
  str.foldl (fun strHash c => strHash * 997 + charToSize c) 1

-- ======== storage

/-- The bytes one increment of capacity adds. -/
def canaryBuffSize (pageSize : Nat) : Nat := 1024 * pageSize

def addPayloadCapacity (pageSize : Nat) (d : StringDictionary) : StringDictionary :=
  { d with payloadMap := d.payloadMap ++ List.replicate (canaryBuffSize pageSize) canaryByte }

def addOffsetCapacity (pageSize : Nat) (d : StringDictionary) : StringDictionary :=
  { d with
    offsetMap := d.offsetMap ++
      List.replicate (canaryBuffSize pageSize / sizeofStringIdxEntry) canaryEntry }

def appendToStorage (pageSize : Nat) (d : StringDictionary) (str : Str) :
    Except Fault StringDictionary := do
  -- write the payload
  let d := if d.payloadFileOff + str.length > d.payloadFileSize then
      addPayloadCapacity pageSize d
    else d
  let payloadMap ← memcpy d.payloadMap d.payloadFileOff str
  -- write the offset and length
  let strMeta : StringIdxEntry :=
    ⟨BitVec.ofNat 48 d.payloadFileOff, BitVec.ofNat 16 str.length⟩
  let d := { d with payloadMap, payloadFileOff := d.payloadFileOff + str.length }
  let offsetFileOff := d.strCount * sizeofStringIdxEntry
  let d := if offsetFileOff + sizeofStringIdxEntry ≥ d.offsetFileSize then
      addOffsetCapacity pageSize d
    else d
  let offsetMap ← memcpy d.offsetMap d.strCount [strMeta]
  return { d with offsetMap }

/-- The bytes of a stored string, or `none` at the canary. -/
def getStringFromStorage (d : StringDictionary) (stringId : Int) :
    Except Fault (Option Str) :=
  if stringId < 0 then .error .check
  else match d.offsetMap[stringId.toNat]? with
    | none => .error .bounds
    | some strMeta =>
      if strMeta.size = 0xffff#16 then .ok none
      else if strMeta.off.toNat + strMeta.size.toNat ≤ d.payloadMap.length then
        .ok (some ((d.payloadMap.drop strMeta.off.toNat).take strMeta.size.toNat))
      else .error .bounds

def getStringChecked (d : StringDictionary) (stringId : Int) : Except Fault Str :=
  match getStringFromStorage d stringId with
  | .ok (some str) => .ok str
  | .ok none => .error .check
  | .error e => .error e

-- ======== buckets

/-- The loop of `computeBucket` and `computeUniqueBucketWithHash`, which
stops at a vacant slot or at one whose id is found to be the same.
Nothing changes in the loop but the bucket, so when it has walked
over every slot without stopping it never stops. -/
def probe (data : List Int) (same : Int → Except Fault Bool) :
    Nat → Nat → Except Fault Nat
  | 0, _ => .error .endless
  | fuel + 1, bucket =>
    match data[bucket]? with
    | none => .error .bounds
    | some id =>
      if id = invalidStrId then .ok bucket
      else match same id with
        | .error e => .error e
        | .ok true => .ok bucket
        | .ok false => probe data same fuel (Probing.next data.length bucket)

/-- The first bucket a hash goes to, in a table of so many slots. -/
def homeBucket (hash : UInt64) (size : Nat) : Nat :=
  hash.toNat &&& (size - 1)

/-- Whether the string under an id is `str`. -/
def sameString (d : StringDictionary) (str : Str) (id : Int) : Except Fault Bool :=
  match getStringChecked d id with
  | .ok oldStr => .ok (decide (str = oldStr))
  | .error e => .error e

def computeBucket (d : StringDictionary) (hash : UInt64) (str : Str) (data : List Int)
    (unique : Bool) : Except Fault Int := do
  let same := if unique then fun _ => .ok false else sameString d str
  let bucket ← probe data same data.length (homeBucket hash data.length)
  return toInt32 bucket

def computeUniqueBucketWithHash (hash : UInt64) (data : List Int) : Except Fault Int := do
  let bucket ← probe data (fun _ => .ok false) data.length (homeBucket hash data.length)
  return toInt32 bucket

-- ======== operations

def fillRateIsHigh (d : StringDictionary) : Bool :=
  d.strIds.length ≤ d.strCount * 2

/-- One round of the loop of `increaseCapacity`. -/
def rehashString (d : StringDictionary) (newStrIds : List Int) (i : Nat) :
    Except Fault (List Int) := do
  let str ← getStringChecked d i
  let bucket ← computeBucket d (rkHash str) str newStrIds true
  set32 newStrIds bucket i

def increaseCapacity (d : StringDictionary) : Except Fault StringDictionary := do
  if d.strCount ≥ maxStrcount then
    .error .check
  else
    let newStrIds := List.replicate (d.strIds.length * 2) invalidStrId
    let newStrIds ← (List.range d.strCount).foldlM (rehashString d) newStrIds
    return { d with strIds := newStrIds }

/-- `inline_int_null_value<int32_t>()`, which stands for the empty
string. -/
def nullStrId : Int := -2 ^ 31

/-- The string becomes the next one, with its id in the bucket. -/
def insertString (pageSize : Nat) (d : StringDictionary) (str : Str) (bucket : Int) :
    Except Fault (StringDictionary × Int) := do
  let d ← appendToStorage pageSize d str
  let strIds ← set32 d.strIds bucket (toInt32 d.strCount)
  let id ← at32 strIds bucket
  return ({ d with strIds, strCount := d.strCount + 1 }, id)

/-- The part of `getOrAddImpl` under the write lock. -/
def addString (pageSize : Nat) (d : StringDictionary) (str : Str) :
    Except Fault (StringDictionary × Int) := do
  -- need to recalculate the bucket in case it changed before we got the lock
  let bucket ← computeBucket d (rkHash str) str d.strIds false
  let id ← at32 d.strIds bucket
  if id = invalidStrId then
    if fillRateIsHigh d then
      -- resize when more than 50% is full
      let d ← increaseCapacity d
      let bucket ← computeBucket d (rkHash str) str d.strIds false
      insertString pageSize d str bucket
    else
      insertString pageSize d str bucket
  else
    return (d, id)

def getOrAddImpl (pageSize : Nat) (d : StringDictionary) (str : Str) :
    Except Fault (StringDictionary × Int) := do
  if str.length = 0 then
    return (d, nullStrId)
  else if str.length > maxStrlen then
    .error .check
  else
    let bucket ← computeBucket d (rkHash str) str d.strIds false
    let id ← at32 d.strIds bucket
    if id ≠ invalidStrId then
      return (d, id)
    else
      addString pageSize d str

def getOrAdd (pageSize : Nat) (d : StringDictionary) (str : Str) :
    Except Fault (StringDictionary × Int) :=
  getOrAddImpl pageSize d str

def getIdOfString (d : StringDictionary) (str : Str) : Except Fault Int := do
  let bucket ← computeBucket d (rkHash str) str d.strIds false
  at32 d.strIds bucket

def getString (d : StringDictionary) (stringId : Int) : Except Fault Str :=
  if stringId < toInt32 d.strCount then getStringChecked d stringId
  else .error .check

-- ======== bulk encoding

/-- The integer types `getOrAddBulk` is instantiated for. -/
inductive EncodedType
  | uint8
  | uint16
  | int32
deriving DecidableEq, Repr

def EncodedType.bits : EncodedType → Nat
  | .uint8 => 8
  | .uint16 => 16
  | .int32 => 32

def EncodedType.isSigned : EncodedType → Bool
  | .int32 => true
  | _ => false

/-- Conversion of an `int32_t` or `int64_t` to the type. -/
def EncodedType.cast (t : EncodedType) (n : Int) : Int :=
  if t.isSigned then n.bmod (2 ^ t.bits) else n % 2 ^ t.bits

def inlineIntNullValue (t : EncodedType) : Int :=
  if t.isSigned then -2 ^ (t.bits - 1) else 2 ^ t.bits - 1

def maxValidIntValue (t : EncodedType) : Int :=
  if t.isSigned then 2 ^ (t.bits - 1) - 1 else 2 ^ t.bits - 1 - 1

/-- What `getOrAddBulk` writes for a string id. -/
def encodeStringId (t : EncodedType) (stringId : Int) : Int :=
  let invalid := stringId > maxValidIntValue t
  if invalid ∨ stringId = nullStrId then t.cast (inlineIntNullValue t)
  else t.cast stringId

def getOrAddBulk (pageSize : Nat) (t : EncodedType) (d : StringDictionary) :
    List Str → Except Fault (StringDictionary × List Int)
  | [] => .ok (d, [])
  | str :: stringVec => do
      let (d, stringId) ← getOrAddImpl pageSize d str
      let (d, encodedVec) ← getOrAddBulk pageSize t d stringVec
      return (d, encodeStringId t stringId :: encodedVec)

end Compass.Dict
