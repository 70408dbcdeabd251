/-
The constructor of the string dictionary, with recovery from the files of
an earlier one, and runs of calls on a dictionary
(StringDictionary/StringDictionary.cpp).

# Recovery

The number of records in the offsets file bounds the number of strings,
and gives the size of the table. The records are read in batches of 1000,
each by its own future, up to the first canary. Every `thread_count`
batches the futures are gathered: each string goes to the first vacant
bucket after the one its hash names, under the next id, and only the
lower 32 bits of the hash are kept between the two. A future reads
nothing that gathering changes, so its result is computed here where it
is launched.

`std::thread::hardware_concurrency()` is a parameter: it may be 0, where
the number is not known.

# The specification

What the string dictionary is for, without its table and its storage.

A dictionary numbers the distinct strings it is given in the order in
which it first sees them. `firstId` is that number, read off the sequence
of strings alone, and `Consistent` is what a dictionary and the answers
of its calls owe to it.
-/
import Compass.Dict.StringDictionary

namespace Compass.Dict

-- ======== files

/-- The contents of `DictOffsets` and `DictPayload`. -/
structure DictFiles where
  dictOffsets : List StringIdxEntry
  dictPayload : List UInt8
deriving DecidableEq, Repr

/-- The two files before a dictionary is first made over them. -/
def DictFiles.empty : DictFiles := ⟨[], []⟩

/-- `checked_open`: `O_APPEND` keeps the contents, `O_TRUNC` does not. -/
def checkedOpen (files : DictFiles) (recover : Bool) : DictFiles :=
  if recover then files else .empty

/-- What `checkpoint` leaves in the files: the mappings are shared, so
their bytes are the files'. -/
def checkpoint (d : StringDictionary) : DictFiles :=
  ⟨d.offsetMap, d.payloadMap⟩

-- ======== recovery

def roundUpP2 (num : Nat) : UInt32 :=
  let v := UInt32.ofNat num - 1
  let v := v ||| (v >>> 1)
  let v := v ||| (v >>> 2)
  let v := v ||| (v >>> 4)
  let v := v ||| (v >>> 8)
  let v := v ||| (v >>> 16)
  let v := v + 1
  if v = 0 then (1 : UInt32) <<< 31 else v

/-- The hash and the size of a string, as `unsigned int`s. -/
abbrev HashEntry := UInt32 × UInt32

def itemsPerThread : Nat := 1000

/-- The body of one future: at most so many strings from `currId` on. -/
def recoverBatch (d : StringDictionary) : Nat → Nat → Except Fault (List HashEntry)
  | 0, _ => .ok []
  | n + 1, currId => do
      match ← getStringFromStorage d currId with
      -- hit the canary, recovery finished
      | none => return []
      | some temp =>
        let hashVec ← recoverBatch d n (currId + 1)
        return ((rkHash temp).toUInt32, UInt32.ofNat temp.length) :: hashVec

/-- The loop body of `processDictionaryFutures`. -/
def recoverString (d : StringDictionary) (hash : HashEntry) :
    Except Fault StringDictionary := do
  let bucket ← computeUniqueBucketWithHash hash.1.toUInt64 d.strIds
  let strIds ← set32 d.strIds bucket (toInt32 d.strCount)
  return { d with
    strIds
    payloadFileOff := d.payloadFileOff + hash.2.toNat
    strCount := d.strCount + 1 }

def processDictionaryFutures (d : StringDictionary) (dictionaryFutures : List (List HashEntry)) :
    Except Fault StringDictionary :=
  dictionaryFutures.foldlM (fun d hashVec => hashVec.foldlM recoverString d) d

/-- What the recovery loop changes. -/
structure Recovery where
  dict : StringDictionary
  dictionaryFutures : List (List HashEntry)
  threadInits : Nat

/-- One round of the recovery loop, for the batch from `stringId` on. -/
def recoverRound (threadCount strCount : Nat) (r : Recovery) (stringId : Nat) :
    Except Fault Recovery := do
  let hashVec ← recoverBatch r.dict (min itemsPerThread (strCount - stringId)) stringId
  let dictionaryFutures := r.dictionaryFutures ++ [hashVec]
  let threadInits := r.threadInits + 1
  if threadCount = 0 then
    .error .divide
  else if threadInits % threadCount = 0 then
    let dict ← processDictionaryFutures r.dict dictionaryFutures
    return ⟨dict, [], threadInits⟩
  else
    return ⟨r.dict, dictionaryFutures, threadInits⟩

/-- The values of `string_id` in the recovery loop. -/
def batchStarts (strCount : Nat) : List Nat :=
  (List.range ((strCount + itemsPerThread - 1) / itemsPerThread)).map (· * itemsPerThread)

/-- The part of the constructor under `recover`. -/
def recoverStrings (threadCount : Nat) (d : StringDictionary) :
    Except Fault StringDictionary := do
  let strCount := d.offsetFileSize / sizeofStringIdxEntry % 2 ^ 32
  let maxEntries := roundUpP2 ((strCount * 2 + 1) % 2 ^ 32)
  let d := { d with strIds := List.replicate maxEntries.toNat invalidStrId }
  let r ← (batchStarts strCount).foldlM (recoverRound threadCount strCount) ⟨d, [], 0⟩
  -- gather last few threads
  if r.dictionaryFutures.length ≠ 0 then
    processDictionaryFutures r.dict r.dictionaryFutures
  else
    return r.dict

-- ======== constructor

/-- The dictionary of the constructor's initialisers over the contents of
its files, with capacity in both. -/
def initialDictionary (pageSize : Nat) (opened : DictFiles) (initialCapacity : Nat) :
    StringDictionary :=
  let d : StringDictionary :=
    ⟨0, List.replicate initialCapacity invalidStrId, opened.dictOffsets, opened.dictPayload, 0⟩
  let d := if d.payloadFileSize = 0 then addPayloadCapacity pageSize d else d
  if d.offsetFileSize = 0 then addOffsetCapacity pageSize d else d

def construct (pageSize threadCount : Nat) (files : DictFiles) (isTemp recover : Bool)
    (initialCapacity : Nat) : Except Fault StringDictionary :=
  -- initial capacity must be a power of two for efficient bucket computation
  if initialCapacity &&& (initialCapacity - 1) ≠ 0 then
    .error .check
  else
    let opened := if isTemp then .empty else checkedOpen files recover
    let d := initialDictionary pageSize opened initialCapacity
    -- we never mmap or recover temp dictionaries
    if !isTemp && recover then recoverStrings threadCount d else .ok d

-- ======== calls

/-- A call that may add strings. -/
inductive Call
  | getOrAdd (str : Str)
  | getOrAddBulk (t : EncodedType) (stringVec : List Str)
deriving DecidableEq, Repr

/-- The strings of a call, in the order in which they are looked up. -/
def Call.strings : Call → List Str
  | .getOrAdd str => [str]
  | .getOrAddBulk _ stringVec => stringVec

/-- A call on a dictionary, with what it returns or writes. -/
def Call.exec (pageSize : Nat) (d : StringDictionary) :
    Call → Except Fault (StringDictionary × List Int)
  | .getOrAdd str => do
      let (d, id) ← Dict.getOrAdd pageSize d str
      return (d, [id])
  | .getOrAddBulk t stringVec => Dict.getOrAddBulk pageSize t d stringVec

/-- A sequence of calls, with what each returns or writes. -/
def runCalls (pageSize : Nat) (d : StringDictionary) :
    List Call → Except Fault (StringDictionary × List (List Int))
  | [] => .ok (d, [])
  | call :: calls => do
      let (d, answer) ← call.exec pageSize d
      let (d, answers) ← runCalls pageSize d calls
      return (d, answer :: answers)

/-- A sequence of `getOrAdd` calls, with the ids they return. -/
def getOrAddAll (pageSize : Nat) (d : StringDictionary) :
    List Str → Except Fault (StringDictionary × List Int)
  | [] => .ok (d, [])
  | str :: strs => do
      let (d, id) ← getOrAdd pageSize d str
      let (d, ids) ← getOrAddAll pageSize d strs
      return (d, id :: ids)


/-- The number of distinct strings before the first occurrence of `s`. -/
def firstId (strs : List Str) (s : Str) : Nat :=
  (strs.take (strs.idxOf s)).toFinset.card

/-- The strings of a sequence of calls, in order. -/
def callStrings (calls : List Call) : List Str :=
  calls.flatMap Call.strings

/-- The answer of a call where the strings have these ids. -/
def Call.answer (ids : Str → Int) : Call → List Int
  | .getOrAdd str => [ids str]
  | .getOrAddBulk t stringVec => stringVec.map fun str => encodeStringId t (ids str)

/-- The calls that are meant: strings that are neither empty nor too
long, and fewer than the limit of distinct ones. -/
structure ValidCalls (calls : List Call) : Prop where
  lengths : ∀ s ∈ callStrings calls, 0 < s.length ∧ s.length ≤ maxStrlen
  few : (callStrings calls).toFinset.card < maxStrcount

/-- A dictionary is consistent with the calls that led to it. -/
structure Consistent (calls : List Call) (d : StringDictionary)
    (answers : List (List Int)) : Prop where
  /-- Every call answers with the ids in order of first occurrence. -/
  inOrder : answers = calls.map (Call.answer fun s => firstId (callStrings calls) s)
  /-- These are all the numbers below the number of distinct strings. -/
  numbers : ∀ i, (∃ s ∈ callStrings calls, firstId (callStrings calls) s = i)
    ↔ i < (callStrings calls).toFinset.card
  /-- Strings have the same id just when they are equal. -/
  injective : ∀ s ∈ callStrings calls, ∀ t ∈ callStrings calls,
    firstId (callStrings calls) s = firstId (callStrings calls) t ↔ s = t
  /-- An id gives its string back. -/
  getString : ∀ s ∈ callStrings calls, getString d (firstId (callStrings calls) s) = .ok s
  /-- A string gives its id back, or none where it was not added. -/
  getIdOfString : ∀ s, getIdOfString d s = .ok
    (if s ∈ callStrings calls then (firstId (callStrings calls) s : Int) else invalidStrId)
  /-- Every probe ends. -/
  probes : ∀ hash s unique, ∃ bucket, computeBucket d hash s d.strIds unique = .ok bucket

/-- Every run of such calls on a new dictionary returns, with a
dictionary and answers that are consistent with the calls. -/
def ConsistentRuns (pageSize threadCount : Nat) (files : DictFiles) (isTemp : Bool)
    (initialCapacity : Nat) : Prop :=
  ∀ calls, ValidCalls calls → ∃ d answers,
    (do
      let d ← construct pageSize threadCount files isTemp false initialCapacity
      runCalls pageSize d calls) = .ok (d, answers)
    ∧ Consistent calls d answers

-- ======== recovery

/-- A dictionary does what another one does. -/
structure SameDictionary (pageSize : Nat) (d d' : StringDictionary) : Prop where
  strCount : d'.strCount = d.strCount
  payloadFileOff : d'.payloadFileOff = d.payloadFileOff
  ids : ∀ s, getIdOfString d' s = getIdOfString d s
  /-- Later calls return the same ids, or fail alike. -/
  later : ∀ strs, (getOrAddAll pageSize d' strs).map Prod.snd
    = (getOrAddAll pageSize d strs).map Prod.snd

/-- Over the files of every dictionary that `getOrAdd` calls lead to, a
dictionary is recovered that does the same. The second constructor call
has a capacity of its own. -/
def RecoversExactly (pageSize threadCount : Nat) (files : DictFiles)
    (initialCapacity newCapacity : Nat) : Prop :=
  ∀ strs d ids,
    (do
      let d ← construct pageSize threadCount files false false initialCapacity
      getOrAddAll pageSize d strs) = .ok (d, ids) →
    ∃ d', construct pageSize threadCount (checkpoint d) false true newCapacity = .ok d'
      ∧ SameDictionary pageSize d d'

end Compass.Dict
