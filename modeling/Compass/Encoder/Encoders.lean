/-
Chunks of fixed-width integers: `Encoder`, `FixedLengthEncoder` and the
decoder that reads a chunk back, `fixed_width_int_decode`.

An encoder appends to a buffer and keeps the statistics of its chunk. The
fixed-length one narrows the values of a column, of type `T`, to the type
`V` of the column's encoding. The smallest `V` stands for null.

Chunks of strings without a dictionary: `StringNoneEncoder`.

The bytes of all strings lie behind one another in one buffer; a second
one, the index, has a leading offset of zero and then the end of each
string, so that it holds one offset more than there are strings. Both are
written through a staging buffer `inbuf` of bounded size. What it holds
between two turns of a loop is modelled as the list of its first `size`
bytes.

A loop that goes round without getting on runs out of `fuel`. Reading an
element past the end of the source gives `none`, as does running out.
-/
import Compass.Lib.Bytes

namespace Compass.Encoder

-- ======== buffers and metadata

/-- What an encoder sees of its `AbstractBuffer`. -/
structure AbstractBuffer where
  data : List Nat
  isDirty : Bool
deriving DecidableEq, Repr

namespace AbstractBuffer

def new : AbstractBuffer := ⟨[], false⟩

def size (buffer : AbstractBuffer) : Nat := buffer.data.length

def append (buffer : AbstractBuffer) (src : List Nat) : AbstractBuffer :=
  ⟨buffer.data ++ src, true⟩

/-- `setDirty`, for a buffer that is not. -/
def setDirty (buffer : AbstractBuffer) : AbstractBuffer := { buffer with isDirty := true }

@[simp]
theorem data_append (buffer : AbstractBuffer) (src : List Nat) :
    (buffer.append src).data = buffer.data ++ src := rfl

@[simp]
theorem data_setDirty (buffer : AbstractBuffer) : buffer.setDirty.data = buffer.data := rfl

end AbstractBuffer

/-- `ChunkStats` of an integer column. -/
structure ChunkStats where
  min : Int
  max : Int
  hasNulls : Bool
deriving DecidableEq, Repr

-- ======== integer types

/-- The types an encoder is instantiated with. -/
inductive IntType where
  | int8
  | int16
  | int32
  | int64
deriving DecidableEq, Repr

namespace IntType

/-- `sizeof`. -/
def size : IntType → Nat
  | int8 => 1
  | int16 => 2
  | int32 => 4
  | int64 => 8

/-- `std::numeric_limits<V>::min()`. -/
def min (V : IntType) : Int := -(2 ^ (8 * V.size - 1))

/-- `std::numeric_limits<V>::max()`. -/
def max (V : IntType) : Int := 2 ^ (8 * V.size - 1) - 1

/-- A value of the type. -/
abbrev Value (T : IntType) := { v : Int // T.min ≤ v ∧ v ≤ T.max }

/-- `static_cast<V>`. -/
def cast (V : IntType) (v : Int) : Int := v.bmod (256 ^ V.size)

end IntType

-- ======== the fixed-length encoder

structure FixedLengthEncoder (T V : IntType) where
  /-- `buffer_`. -/
  buffer : AbstractBuffer
  numElems : Nat
  dataMin : Int
  dataMax : Int
  hasNulls : Bool
deriving DecidableEq, Repr

namespace FixedLengthEncoder

variable {T V : IntType}

def new : FixedLengthEncoder T V := ⟨.new, 0, T.max, T.min, false⟩

/-- One turn of the loop of `appendData`: a value that does not survive the
cast is logged, any other one is counted. -/
def count (e : FixedLengthEncoder T V) (data : Int) : FixedLengthEncoder T V :=
  if data ≠ V.cast data then e
  else if data = V.min then { e with hasNulls := true }
  else { e with dataMin := min e.dataMin data, dataMax := max e.dataMax data }

/-- `appendData`; the values are the next `numAppendElems` of the source,
which moves past them. -/
def appendData (e : FixedLengthEncoder T V) (srcData : List T.Value) :
    FixedLengthEncoder T V :=
  let unencodedData := srcData.map Subtype.val
  let encodedData := unencodedData.map V.cast
  let e := unencodedData.foldl count e
  { e with
    numElems := e.numElems + unencodedData.length
    buffer := e.buffer.append (LittleEndian.encodeAll V.size encodedData) }

/-- `reduceStats`. -/
def reduceStats (e that : FixedLengthEncoder T V) : FixedLengthEncoder T V :=
  { e with
    hasNulls := if that.hasNulls then true else e.hasNulls
    dataMin := min e.dataMin that.dataMin
    dataMax := max e.dataMax that.dataMax }

/-- The calls of `appendData` on a new encoder, one after the other. -/
def run (calls : List (List T.Value)) : FixedLengthEncoder T V :=
  calls.foldl appendData new

end FixedLengthEncoder

-- ======== decoding

/-- `fixed_width_int_decode`; `none` where it reads past the bytes. -/
def fixedWidthIntDecode (byteStream : List Nat) (byteWidth pos : Nat) : Option Int :=
  match byteWidth with
  | 1 | 2 | 4 | 8 =>
    (LittleEndian.elementAt byteWidth byteStream pos).map LittleEndian.signed
  | _ => some (-(2 ^ 63) + 1)


abbrev Bytes := List Nat

/-- `sizeof(StringOffsetT)`. -/
def offsetSize : Nat := 4

/-- A `StringOffsetT`. -/
def stringOffset (x : Int) : Int := x.bmod (256 ^ offsetSize)

/-- `MAX_INPUT_BUF_SIZE`. -/
def maxInputBufSize : Nat := 1048576

structure StringNoneEncoder where
  /-- `buffer_`. -/
  buffer : AbstractBuffer
  indexBuf : AbstractBuffer
  numElems : Nat
  lastOffset : Int
  hasNulls : Bool
deriving DecidableEq, Repr

namespace StringNoneEncoder

def new : StringNoneEncoder := ⟨.new, .new, 0, -1, false⟩

/-- The last offset of a chunk that was read back is in its index. -/
def readLastOffset (indexBuf : AbstractBuffer) : Int :=
  LittleEndian.signed (indexBuf.data.drop (indexBuf.size - offsetSize))

-- ======== the index

/-- The inner loop of the index with `left` strings to go, `room` offsets
before the staging buffer is full: the offsets, what is left and the last
offset. -/
def fillOffsets (srcData : List Bytes) (end_ : Nat) :
    Nat → Nat → Int → Option (List Int × Nat × Int)
  | 0, left, lastOffset => some ([], left, lastOffset)
  | _, 0, lastOffset => some ([], 0, lastOffset)
  | room + 1, left + 1, lastOffset => do
      let s ← srcData[end_ - (left + 1)]?
      let p := stringOffset (lastOffset + s.length)
      let (ps, left, lastOffset) ← fillOffsets srcData end_ room left p
      some (p :: ps, left, lastOffset)

/-- The loop that writes the index. -/
def appendOffsets (srcData : List Bytes) (end_ inbufSize : Nat) :
    Nat → Nat → Int → AbstractBuffer → Option (Int × AbstractBuffer)
  | _, 0, lastOffset, indexBuf => some (lastOffset, indexBuf)
  | 0, _ + 1, _, _ => none
  | fuel + 1, left, lastOffset, indexBuf => do
      let (p, left, lastOffset) ←
        fillOffsets srcData end_ (inbufSize / offsetSize) left lastOffset
      appendOffsets srcData end_ inbufSize fuel left lastOffset
        (indexBuf.append (LittleEndian.encodeAll offsetSize p))

-- ======== the data

/-- What the inner loop of the data leaves behind. -/
structure Staging where
  /-- The strings that are still to be appended. -/
  left : Nat
  /-- The first `size` bytes of `inbuf`. -/
  inbuf : Bytes
  buffer : AbstractBuffer
  hasNulls : Bool
deriving DecidableEq, Repr

/-- `append` of the staged bytes, if there are any. -/
def flush (buffer : AbstractBuffer) (inbuf : Bytes) : AbstractBuffer :=
  if 0 < inbuf.length then buffer.append inbuf else buffer

/-- The inner loop of the data, with `left` strings to go. -/
def stage (srcData : List Bytes) (end_ inbufSize : Nat) :
    Nat → Bytes → AbstractBuffer → Bool → Option Staging
  | 0, inbuf, buffer, hasNulls => some ⟨0, inbuf, buffer, hasNulls⟩
  | left + 1, inbuf, buffer, hasNulls =>
    if inbuf.length < inbufSize then do
      let s ← srcData[end_ - (left + 1)]?
      -- for large strings, append on its own
      if inbufSize < s.length then
        some ⟨left, [], (flush buffer inbuf).append s, hasNulls⟩
      else if inbufSize < inbuf.length + s.length then
        some ⟨left + 1, inbuf, buffer, hasNulls⟩
      else if 0 < s.length then
        stage srcData end_ inbufSize left (inbuf ++ s) buffer hasNulls
      else stage srcData end_ inbufSize left inbuf buffer true
    else some ⟨left + 1, inbuf, buffer, hasNulls⟩

/-- The loop that writes the data. -/
def appendStrings (srcData : List Bytes) (end_ inbufSize : Nat) :
    Nat → Nat → AbstractBuffer → Bool → Option (AbstractBuffer × Bool)
  | _, 0, buffer, hasNulls => some (buffer, hasNulls)
  | 0, _ + 1, _, _ => none
  | fuel + 1, left, buffer, hasNulls => do
      let st ← stage srcData end_ inbufSize left [] buffer hasNulls
      appendStrings srcData end_ inbufSize fuel st.left (flush st.buffer st.inbuf) st.hasNulls

-- ======== append

/-- The offset to go on from, and the index: the initial offset of 0 is
written where the chunk has no elements. -/
def openIndex (e : StringNoneEncoder) : Int × AbstractBuffer :=
  if e.numElems = 0 then (0, e.indexBuf.append (LittleEndian.encode offsetSize 0))
  else if e.lastOffset < 0 then (readLastOffset e.indexBuf, e.indexBuf)
  else (e.lastOffset, e.indexBuf)

/-- `index_size`. -/
def indexSize (e : StringNoneEncoder) (numAppendElems : Nat) : Nat :=
  numAppendElems * offsetSize + (if e.numElems = 0 then offsetSize else 0)

/-- `data_size`. -/
def dataSize (srcData : List Bytes) (startIdx numAppendElems : Nat) : Nat :=
  (((srcData.drop startIdx).take numAppendElems).map List.length).sum

/-- `appendData`; the metadata it returns are fields of what it makes. -/
def appendData (fuel : Nat) (e : StringNoneEncoder) (srcData : List Bytes)
    (startIdx numAppendElems : Nat) : Option StringNoneEncoder := do
  let end_ := startIdx + numAppendElems
  let inbufSize := min (max (e.indexSize numAppendElems)
    (dataSize srcData startIdx numAppendElems)) maxInputBufSize
  let (lastOffset, indexBuf) ← appendOffsets srcData end_ inbufSize fuel numAppendElems
    e.openIndex.1 e.openIndex.2
  let (buffer, hasNulls) ← appendStrings srcData end_ inbufSize fuel numAppendElems
    e.buffer e.hasNulls
  some ⟨buffer.setDirty, indexBuf, e.numElems + numAppendElems, lastOffset, hasNulls⟩

/-- The arguments of one call. -/
structure Call where
  srcData : List Bytes
  startIdx : Nat
  numAppendElems : Nat
deriving DecidableEq, Repr

/-- The calls of `appendData`, one after the other. -/
def run (fuel : Nat) (e : StringNoneEncoder) (calls : List Call) : Option StringNoneEncoder :=
  calls.foldlM (fun e c => e.appendData fuel c.srcData c.startIdx c.numAppendElems) e

-- ======== reading

/-- The `n`th string as `ChunkIter_get_nth` finds it: from its offset on, as
long as the next offset says. -/
def stringAt (e : StringNoneEncoder) (n : Nat) : Option Bytes := do
  let offset ← (LittleEndian.elementAt offsetSize e.indexBuf.data n).map LittleEndian.signed
  let next ← (LittleEndian.elementAt offsetSize e.indexBuf.data (n + 1)).map LittleEndian.signed
  some ((e.buffer.data.drop offset.toNat).take (next - offset).toNat)

end StringNoneEncoder

end Compass.Encoder
