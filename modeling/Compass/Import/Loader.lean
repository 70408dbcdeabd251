/-
The columns of an import (`TypedImportBuffer`, Import/Importer.h) and how
their values are read back (`int_value_at` and its siblings,
Import/Importer.cpp).

A buffer is one vector of values of the type of its column, and for a
dictionary-encoded string column a second one of string ids. The vectors
of integers are also memory: `int_value_at` reads them again as an array
of elements of the logical size of the column, whatever the elements of
the vector are. A read outside of the vector has no result here, and a
failed CHECK has none either.

The distribution of an import over the shards of a table, and what the
join reads of it again (`Loader::distributeToShards`, `loadToShard`,
Import/Importer.cpp; `fill_hash_join_buff_sharded`,
QueryEngine/HashJoinRuntime.cpp).

The loader takes the shard of a row from the value in the import buffer
of the shard column. What is stored is not the buffer: the encoder of a
FIXED column keeps the low bytes of each value, and the strings of a
dictionary-encoded column are numbered a second time, shard by shard. The
join decodes the stored chunk and keeps, for one shard, the elements that
are in it by its own formula. Both formulas are over `size_t`, to which a
negative key is converted first.
-/
import Compass.Lib.Bytes
import Compass.Sql.Types
import Compass.Dict.Construct

namespace Compass.Import

open Compass.Dict (Str)

-- ======== types

/-- `EncodingType` of sqltypes.h. -/
inductive EncodingType where
  | kENCODING_NONE | kENCODING_FIXED | kENCODING_RL | kENCODING_DIFF
  | kENCODING_DICT | kENCODING_SPARSE
deriving DecidableEq, Repr

/-- The `SQLTypeInfo` of a column, as far as an import reads it. -/
structure ColumnType where
  type : SQLTypes
  subtype : SQLTypes
  compression : EncodingType
  compParam : Nat
  size : Nat
deriving DecidableEq, Repr

/-- `IS_STRING`. -/
def isString (type : SQLTypes) : Bool :=
  type == .kTEXT || type == .kVARCHAR || type == .kCHAR

/-- `IS_INTEGER`. -/
def isInteger (type : SQLTypes) : Bool :=
  type == .kINT || type == .kSMALLINT || type == .kBIGINT

/-- The size of a value without an encoding, where there is one. -/
def noneSize : SQLTypes → Option Nat
  | .kBOOLEAN => some 1
  | .kSMALLINT => some 2
  | .kINT => some 4
  | .kBIGINT | .kNUMERIC | .kDECIMAL => some 8
  | .kFLOAT => some 4
  | .kDOUBLE => some 8
  | .kTIME | .kTIMESTAMP | .kDATE | .kINTERVAL_DAY_TIME | .kINTERVAL_YEAR_MONTH => some 8
  | _ => none

namespace ColumnType

variable (ti : ColumnType)

def getLogicalSize : Option Nat :=
  match ti.compression with
  | .kENCODING_FIXED => noneSize ti.type
  | .kENCODING_DICT => some 4
  | _ => some ti.size

/-- The column types that CREATE TABLE makes and that have an encoder. -/
def admitted : Bool :=
  match ti.type, ti.compression with
  | .kTEXT, .kENCODING_DICT | .kVARCHAR, .kENCODING_DICT | .kCHAR, .kENCODING_DICT =>
    ti.size == 1 || ti.size == 2 || ti.size == 4
  | .kTEXT, .kENCODING_NONE | .kVARCHAR, .kENCODING_NONE | .kCHAR, .kENCODING_NONE => true
  | .kARRAY, .kENCODING_DICT => isString ti.subtype
  | .kARRAY, .kENCODING_NONE => !isString ti.subtype
  | .kSMALLINT, .kENCODING_FIXED => ti.compParam == 8 && ti.size == 1
  | .kINT, .kENCODING_FIXED =>
    (ti.compParam == 8 || ti.compParam == 16) && ti.size == ti.compParam / 8
  | .kBIGINT, .kENCODING_FIXED =>
    (ti.compParam == 8 || ti.compParam == 16 || ti.compParam == 32)
      && ti.size == ti.compParam / 8
  | .kTIME, .kENCODING_FIXED | .kTIMESTAMP, .kENCODING_FIXED | .kDATE, .kENCODING_FIXED =>
    ti.compParam == 32 && ti.size == 4
  | .kBOOLEAN, .kENCODING_NONE | .kSMALLINT, .kENCODING_NONE | .kINT, .kENCODING_NONE
  | .kBIGINT, .kENCODING_NONE | .kNUMERIC, .kENCODING_NONE | .kDECIMAL, .kENCODING_NONE
  | .kFLOAT, .kENCODING_NONE | .kDOUBLE, .kENCODING_NONE | .kTIME, .kENCODING_NONE
  | .kTIMESTAMP, .kENCODING_NONE | .kDATE, .kENCODING_NONE => noneSize ti.type == some ti.size
  | _, _ => false

/-- `validate_shard_column_type`, and the CHECK of `distributeToShards`. -/
def shardable : Bool :=
  isInteger ti.type || (isString ti.type && ti.compression == .kENCODING_DICT)

end ColumnType

-- ======== buffers

/-- `ArrayDatum`: the bytes of an array, or null. -/
structure ArrayDatum where
  bytes : List Nat
  isNull : Bool
deriving DecidableEq, Repr

/-- A value of a buffer. Floating-point values are their bits. -/
inductive Cell where
  | int (v : Int)
  | float (bits : Nat)
  | double (bits : Nat)
  | string (v : Str)
  | array (v : ArrayDatum)
  | stringArray (v : List Str)
deriving DecidableEq, Repr

def Cell.toInt : Cell → Int
  | .int v => v
  | _ => 0

def Cell.toStr : Cell → Str
  | .string v => v
  | _ => []

/-- The vectors of the union in `TypedImportBuffer`. -/
inductive VectorType where
  | ints (width : Nat)
  | floats
  | doubles
  | strings
  | arrays
  | stringArrays
deriving DecidableEq, Repr

/-- The vector that the constructor makes for a column. -/
def vectorType (ti : ColumnType) : Option VectorType :=
  match ti.type with
  | .kBOOLEAN => some (.ints 1)
  | .kSMALLINT => some (.ints 2)
  | .kINT => some (.ints 4)
  | .kBIGINT | .kNUMERIC | .kDECIMAL => some (.ints 8)
  | .kFLOAT => some .floats
  | .kDOUBLE => some .doubles
  | .kTEXT | .kVARCHAR | .kCHAR => some .strings
  | .kTIME | .kTIMESTAMP | .kDATE => some (.ints 8)
  | .kARRAY => if isString ti.subtype then some .stringArrays else some .arrays
  | _ => none

/-- The values a vector can hold. -/
def VectorType.Holds : VectorType → Cell → Prop
  | .ints w, .int v => v.bmod (256 ^ w) = v
  | .floats, .float _ => True
  | .doubles, .double _ => True
  | .strings, .string _ => True
  | .arrays, .array _ => True
  | .stringArrays, .stringArray _ => True
  | _, _ => False

structure TypedImportBuffer where
  columnType : ColumnType
  values : List Cell
  /-- `string_dict_i8_buffer_` and so on. -/
  stringDict : List Int
deriving DecidableEq

namespace TypedImportBuffer

/-- A new buffer for the column. -/
def new (ti : ColumnType) : TypedImportBuffer := ⟨ti, [], []⟩

variable (b : TypedImportBuffer)

/-- `n` values of the type of the column. -/
structure Filled (n : Nat) : Prop where
  length : b.values.length = n
  holds : ∃ vt, vectorType b.columnType = some vt ∧ ∀ c ∈ b.values, vt.Holds c

/-- `addBoolean`, `addSmallint`, `addInt`, `addBigint` and `addTime`, which
push onto a vector of integers of `w` bytes. -/
def addNumber (w : Nat) (v : Int) : Option TypedImportBuffer :=
  if vectorType b.columnType = some (.ints w) then
    some { b with values := b.values ++ [.int (v.bmod (256 ^ w))] }
  else none

/-- The other functions that add a value. -/
def addCell (vt : VectorType) (c : Cell) : Option TypedImportBuffer :=
  if vectorType b.columnType = some vt then some { b with values := b.values ++ [c] }
  else none

def getAsBytes : Option (List Nat) :=
  match vectorType b.columnType with
  | some (.ints w) => some (LittleEndian.encodeAll w (b.values.map Cell.toInt))
  | _ => none

def getStringDictBuffer : Option (List Nat) :=
  if b.columnType.size = 1 ∨ b.columnType.size = 2 ∨ b.columnType.size = 4 then
    some (LittleEndian.encodeAll b.columnType.size b.stringDict)
  else none

def getStringBuffer : List Str := b.values.map Cell.toStr

/-- The type of a string id in a column of this size. -/
def encodedType : Option Dict.EncodedType :=
  match b.columnType.size with
  | 1 => some .uint8
  | 2 => some .uint16
  | 4 => some .int32
  | _ => none

def addDictEncodedString (pageSize : Nat) (d : Dict.StringDictionary) :
    Option (TypedImportBuffer × Dict.StringDictionary) := do
  if ∃ s ∈ b.getStringBuffer, Dict.maxStrlen < s.length then none
  else
    let t ← b.encodedType
    let (d, ids) ← (Dict.getOrAddBulk pageSize t d b.getStringBuffer).toOption
    return ({ b with stringDict := ids }, d)

end TypedImportBuffer

-- ======== reading a value

def intValueAt (b : TypedImportBuffer) (index : Nat) : Option Int := do
  let ti := b.columnType
  let valuesBuffer ←
    if isString ti.type then
      if ti.compression = .kENCODING_DICT then b.getStringDictBuffer else none
    else b.getAsBytes
  let w ← ti.getLogicalSize
  if w = 1 ∨ w = 2 ∨ w = 4 ∨ w = 8 then
    (LittleEndian.elementAt w valuesBuffer index).map LittleEndian.signed
  else none

/-- A read of the vector itself. -/
def valueAt (vt : VectorType) (b : TypedImportBuffer) (index : Nat) : Option Cell :=
  if vectorType b.columnType = some vt then b.values[index]? else none

end Compass.Import

namespace Compass.Import

open Compass.Dict (Str StringDictionary Call runCalls)

/-- `val % count`, with the value converted to `size_t`. -/
def shardOf (count : Nat) (val : Int) : Nat := (val % 2 ^ 64).toNat % count

-- ======== distribution

/-- One column of one row, from its import buffer to that of its shard. -/
def copyValue (i : Nat) (input output : TypedImportBuffer) : Option TypedImportBuffer := do
  let ti := input.columnType
  let number (w : Nat) := do output.addNumber w (← intValueAt input i)
  let cell (vt : VectorType) := do output.addCell vt (← valueAt vt input i)
  let type ←
    if ti.type = .kDECIMAL ∨ ti.type = .kNUMERIC then
      SQLTypeInfo.decimalToIntType ⟨ti.type, false, ti.size⟩
    else some ti.type
  match type with
  | .kBOOLEAN => number 1
  | .kSMALLINT => number 2
  | .kINT => number 4
  | .kBIGINT => number 8
  | .kFLOAT => cell .floats
  | .kDOUBLE => cell .doubles
  | .kTEXT | .kVARCHAR | .kCHAR => cell .strings
  | .kTIME | .kTIMESTAMP | .kDATE => number 8
  | .kARRAY => if isString ti.subtype then cell .stringArrays else cell .arrays
  | _ => none

/-- `OneShardBuffers`. -/
abbrev OneShardBuffers := List TypedImportBuffer

structure Shards where
  /-- `all_shard_import_buffers`. -/
  buffers : List OneShardBuffers
  /-- `all_shard_row_counts`. -/
  rowCounts : List Nat

/-- The columns of a row, one by one. -/
def copyRow (i : Nat) : OneShardBuffers → OneShardBuffers → Option OneShardBuffers
  | [], [] => some []
  | input :: inputs, output :: outputs => do
      let output ← copyValue i input output
      let outputs ← copyRow i inputs outputs
      return output :: outputs
  | _, _ => none

/-- One round of the loop over the rows. -/
def distributeRow (shardBuffer : TypedImportBuffer) (importBuffers : OneShardBuffers)
    (shardCount : Nat) (shards : Shards) (i : Nat) : Option Shards := do
  let val ← intValueAt shardBuffer i
  let shard := shardOf shardCount val
  let outputs ← shards.buffers[shard]?
  let outputs ← copyRow i importBuffers outputs
  let count ← shards.rowCounts[shard]?
  return ⟨shards.buffers.set shard outputs, shards.rowCounts.set shard (count + 1)⟩

/-- The new buffers of all shards. -/
def emptyShards (importBuffers : OneShardBuffers) (shardCount : Nat) : Shards :=
  ⟨List.replicate shardCount (importBuffers.map fun b => .new b.columnType),
    List.replicate shardCount 0⟩

def distributeToShards (pageSize : Nat) (d : StringDictionary) (shardedColumnId : Nat)
    (importBuffers : OneShardBuffers) (rowCount shardCount : Nat) :
    Option (Shards × StringDictionary) := do
  if shardedColumnId = 0 then none
  else
    let shardBuffer ← importBuffers[shardedColumnId - 1]?
    if shardBuffer.columnType.shardable then
      let (shardBuffer, d) ←
        if isString shardBuffer.columnType.type then
          shardBuffer.addDictEncodedString pageSize d
        else some (shardBuffer, d)
      let shards ← (List.range rowCount).foldlM
        (distributeRow shardBuffer importBuffers shardCount)
        (emptyShards importBuffers shardCount)
      return (shards, d)
    else none

-- ======== storage

/-- The bytes that an encoder appends for a column of a shard: a FIXED
encoder converts each value to its smaller type, that is to the low bytes
of it. -/
def storedChunk (pageSize : Nat) (d : StringDictionary) (b : TypedImportBuffer) :
    Option (List Nat) := do
  if isString b.columnType.type then
    let (b, _) ← b.addDictEncodedString pageSize d
    b.getStringDictBuffer
  else
    return LittleEndian.encodeAll b.columnType.size (b.values.map Cell.toInt)

-- ======== join

/-- How a chunk is decoded, and what is done with nulls and with the ids
of another dictionary. -/
structure JoinColumnTypeInfo where
  elemSz : Nat
  nullVal : Int
  usesBwEq : Bool
  translatedNullVal : Int
  isUnsigned : Bool
  /-- The ids of the outer dictionary by those of the inner one, where the
  two are different. -/
  translate : Option (Int → Option Int)

/-- `fixed_width_int_decode` and `fixed_width_unsigned_decode`. -/
def fixedWidthDecode (info : JoinColumnTypeInfo) (bytes : List Nat) (pos : Nat) : Option Int :=
  if info.elemSz = 1 ∨ info.elemSz = 2 ∨ info.elemSz = 4 ∨ info.elemSz = 8 then
    (LittleEndian.elementAt info.elemSz bytes pos).map fun e =>
      if info.isUnsigned ∧ info.elemSz ≠ 8 then LittleEndian.unsigned e
      else LittleEndian.signed e
  else some (-2 ^ 63 + 1)

/-- The key under which an element goes into the hash table, if it does. -/
def joinKey (info : JoinColumnTypeInfo) (elem : Int) : Option Int := do
  let elem ←
    if elem = info.nullVal then
      if info.usesBwEq then some info.translatedNullVal else none
    else some elem
  match info.translate with
  | some f =>
    if !info.usesBwEq ∨ elem ≠ info.translatedNullVal then f elem else some elem
  | none => some elem

/-- The keys that `fill_hash_join_buff` takes of a chunk, with the
positions of their elements. -/
def fillHashJoinBuff (info : JoinColumnTypeInfo) (bytes : List Nat) (numElems : Nat) :
    List (Nat × Int) :=
  (List.range numElems).filterMap fun i => do
    let elem ← fixedWidthDecode info bytes i
    return (i, ← joinKey info elem)

/-- The keys that `fill_hash_join_buff_sharded` takes for a shard. -/
def fillHashJoinBuffSharded (info : JoinColumnTypeInfo) (shard numShards : Nat)
    (bytes : List Nat) (numElems : Nat) : List (Nat × Int) :=
  (List.range numElems).filterMap fun i => do
    let elem ← fixedWidthDecode info bytes i
    if shardOf numShards elem ≠ shard then none
    else return (i, ← joinKey info elem)

/-- `is_unsigned_type`. -/
def isUnsignedType (ti : ColumnType) : Bool :=
  ti.compression == .kENCODING_DICT
    && (match ti.getLogicalSize with
      | some w => decide (ti.size < w)
      | none => false)

/-- The join on a column of this type. -/
def JoinColumnTypeInfo.IsFor (info : JoinColumnTypeInfo) (ti : ColumnType) : Prop :=
  info.elemSz = ti.size ∧ info.isUnsigned = isUnsignedType ti

-- ======== agreement

/-- The strings of a shard column that the dictionary has to number. -/
def keyStrings (b : TypedImportBuffer) : List Str :=
  if isString b.columnType.type then b.getStringBuffer.filter (0 < ·.length) else []

/-- An import into a sharded table. -/
structure ShardedImport where
  pageSize : Nat
  page : 4096 ≤ pageSize
  importBuffers : OneShardBuffers
  rowCount : Nat
  shardedColumnId : Nat
  admitted : ∀ b ∈ importBuffers, b.columnType.admitted = true
  filled : ∀ b ∈ importBuffers, b.Filled rowCount
  shardBuffer : TypedImportBuffer
  sharded : 0 < shardedColumnId ∧ importBuffers[shardedColumnId - 1]? = some shardBuffer
  shardable : shardBuffer.columnType.shardable = true
  /-- `add_value` refuses longer strings. -/
  strlen : ∀ b ∈ importBuffers, ∀ s ∈ b.getStringBuffer, s.length ≤ Dict.maxStrlen
  few : (keyStrings shardBuffer).toFinset.card ≤ Dict.maxStrcount

/-- The rows of a shard, in order. -/
def rowsOf (rowCount : Nat) (shardOfRow : Nat → Nat) (shard : Nat) : List Nat :=
  (List.range rowCount).filter fun i => shardOfRow i = shard

/-- The values of some rows of a column. -/
def TypedImportBuffer.select (b : TypedImportBuffer) (rows : List Nat) : TypedImportBuffer :=
  ⟨b.columnType, rows.filterMap (b.values[·]?), []⟩

/-- Every row is in one shard, with all its columns. -/
structure Distributed (q : ShardedImport) (shardCount : Nat) (shardOfRow : Nat → Nat)
    (shards : Shards) : Prop where
  lt : ∀ i < q.rowCount, shardOfRow i < shardCount
  buffers : shards.buffers = (List.range shardCount).map fun shard =>
    q.importBuffers.map fun b => b.select (rowsOf q.rowCount shardOfRow shard)
  rowCounts : shards.rowCounts = (List.range shardCount).map fun shard =>
    (rowsOf q.rowCount shardOfRow shard).length

namespace ShardedImport

variable (q : ShardedImport)

/-- The dictionary of the shard column, as calls on a new one led to it. -/
structure DictReached (pageSize : Nat) (calls : List Call) (d : StringDictionary) : Prop where
  run : ∃ answers, runCalls pageSize (Dict.initialDictionary pageSize .empty 256) calls
    = .ok (d, answers)
  lengths : ∀ s ∈ calls.flatMap Call.strings, 0 < s.length ∧ s.length ≤ Dict.maxStrlen

/-- Calls that the dictionary has room for. -/
def Few (calls : List Call) (strs : List Str) : Prop :=
  ((calls.flatMap Call.strings) ++ strs).toFinset.card ≤ Dict.maxStrcount

/-- The import and the join agree on `shardCount` shards. The dictionary
of the shard column may get further strings before a shard is stored. -/
def Agrees (shardCount : Nat) : Prop :=
  ∀ calls d, DictReached q.pageSize calls d → Few calls (keyStrings q.shardBuffer) →
    ∃ shards d' shardOfRow,
      distributeToShards q.pageSize d q.shardedColumnId q.importBuffers q.rowCount shardCount
        = some (shards, d')
      ∧ Distributed q shardCount shardOfRow shards
      ∧ ∀ later dLater, (∃ answers, runCalls q.pageSize d' later = .ok (dLater, answers)) →
          (∀ s ∈ later.flatMap Call.strings, 0 < s.length ∧ s.length ≤ Dict.maxStrlen) →
          Few (calls ++ later) (keyStrings q.shardBuffer) →
          ∀ shard < shardCount, ∃ bytes, storedChunk q.pageSize dLater
              (q.shardBuffer.select (rowsOf q.rowCount shardOfRow shard)) = some bytes
            ∧ ∀ info : JoinColumnTypeInfo, info.IsFor q.shardBuffer.columnType →
              ∀ s < shardCount, fillHashJoinBuffSharded info s shardCount bytes
                    (rowsOf q.rowCount shardOfRow shard).length
                  = if s = shard then
                      fillHashJoinBuff info bytes (rowsOf q.rowCount shardOfRow shard).length
                    else []

/-- A FIXED encoding has room for every key, and string ids have 4 bytes. -/
def KeysFit : Prop :=
  q.rowCount = 0
    ∨ (isString q.shardBuffer.columnType.type = true → q.shardBuffer.columnType.size = 4)
      ∧ (q.shardBuffer.columnType.compression = .kENCODING_FIXED →
          ∀ c ∈ q.shardBuffer.values, -2 ^ (q.shardBuffer.columnType.compParam - 1) ≤ c.toInt
              ∧ c.toInt < 2 ^ (q.shardBuffer.columnType.compParam - 1))

end ShardedImport

end Compass.Import
