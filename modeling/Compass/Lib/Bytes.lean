/-
Integers in memory: arrays of little-endian elements of a fixed width.

`encode w v` is the `w` bytes of `v` in two's complement, `unsigned` and
`signed` read bytes as a number, and `elementAt w bytes i` is the bytes of
element `i` of an array of elements of `w` bytes, where they lie in the
array. An array that is read with the width it was written with gives its
elements back (`elementAt_encodeAll`); read with a larger width it ends
too early (`elementAt_last`).

A file of bytes under positioned reads and writes.

A file is its length and the byte at every offset below it. A write past
the end makes the file longer, as `fwrite` after an `fseek` does; a read
that does not lie inside the file fails. The disk keeps two things of a
file: what the last sync left, and the writes issued since, oldest first.
What a reader sees is the first with all of the second applied.
-/
import Mathlib.Data.List.Basic
import Mathlib.Data.List.GetD
import Mathlib.Data.Nat.Digits.Defs

namespace LittleEndian

open List Int

-- ======== one number

/-- The `w` bytes of a number; higher ones are dropped. -/
def encode : Nat → Int → List Nat
  | 0, _ => []
  | w + 1, v => (v % 256).toNat :: encode w (v / 256)

/-- Bytes as an unsigned number. -/
def unsigned (bytes : List Nat) : Int := ((Nat.ofDigits 256 bytes : Nat) : Int)

/-- Bytes as a signed number. -/
def signed (bytes : List Nat) : Int := (unsigned bytes).bmod (256 ^ bytes.length)

@[simp]
theorem length_encode (w : Nat) (v : Int) : (encode w v).length = w := by
  induction w generalizing v with
  | zero => rfl
  | succ w ih => rw [encode, length_cons, ih]

theorem unsigned_encode (w : Nat) (v : Int) : unsigned (encode w v) = v % 256 ^ w := by
  induction w generalizing v with
  | zero => simp [encode, unsigned]
  | succ w ih =>
    have hcons : unsigned (encode (w + 1) v) = v % 256 + 256 * unsigned (encode w (v / 256)) := by
      have hpos : 0 ≤ v % 256 := emod_nonneg _ (by decide)
      rw [unsigned, encode, Nat.ofDigits_cons, Nat.cast_add, Nat.cast_mul, toNat_of_nonneg hpos]
      rfl
    rw [hcons, ih, pow_succ', emod_def (v / 256), emod_def v (256 * 256 ^ w),
      ← ediv_ediv_of_nonneg (by decide)]
    rw [mul_sub, ← mul_assoc]
    omega

theorem signed_encode (w : Nat) (v : Int) : signed (encode w v) = v.bmod (256 ^ w) := by
  have hmod := emod_bmod v (256 ^ w)
  push_cast at hmod
  rw [signed, unsigned_encode, length_encode, hmod]

-- ======== arrays

/-- An array of elements of `w` bytes. -/
def encodeAll (w : Nat) (vs : List Int) : List Nat := vs.flatMap (encode w)

/-- The bytes of element `i`, where the array has them all. -/
def elementAt (w : Nat) (bytes : List Nat) (i : Nat) : Option (List Nat) :=
  if (i + 1) * w ≤ bytes.length then some ((bytes.drop (i * w)).take w) else none

theorem length_encodeAll (w : Nat) (vs : List Int) : (encodeAll w vs).length = vs.length * w := by
  induction vs with
  | nil => simp [encodeAll]
  | cons v vs ih =>
    rw [encodeAll, flatMap_cons, length_append, length_encode, ← encodeAll, ih, length_cons]
    ring

theorem encodeAll_append (w : Nat) (vs us : List Int) :
    encodeAll w (vs ++ us) = encodeAll w vs ++ encodeAll w us :=
  flatMap_append

theorem elementAt_encodeAll (w : Nat) {vs : List Int} {i : Nat} {v : Int}
    (h : vs[i]? = some v) : elementAt w (encodeAll w vs) i = some (encode w v) := by
  obtain ⟨hlt, hv⟩ := List.getElem?_eq_some_iff.mp h
  rw [elementAt, if_pos (by rw [length_encodeAll]; exact Nat.mul_le_mul_right w hlt)]
  have hsplit : vs = vs.take i ++ v :: vs.drop (i + 1) := by
    rw [← hv, getElem_cons_drop hlt, take_append_drop]
  have hlen : (encodeAll w (vs.take i)).length = i * w := by
    rw [length_encodeAll, length_take, Nat.min_eq_left hlt.le]
  rw [hsplit, encodeAll_append, ← hlen, drop_left, encodeAll, flatMap_cons,
    take_append_of_le_length (by simp), take_of_length_le (by simp)]

/-- An array that is read with a larger width does not have its last
element. -/
theorem elementAt_last {w w' : Nat} (hw : w < w') {vs : List Int} (hvs : vs ≠ []) :
    elementAt w' (encodeAll w vs) (vs.length - 1) = none := by
  have hpos : 0 < vs.length := length_pos_iff.mpr hvs
  rw [elementAt, if_neg]
  rw [length_encodeAll, Nat.sub_add_cancel hpos, not_le]
  exact Nat.mul_lt_mul_of_pos_left hw hpos

end LittleEndian

/-- The contents of a file. -/
structure ByteFile where
  bytes : Nat → UInt8
  length : Nat

namespace ByteFile

def write (f : ByteFile) (offset : Nat) (buf : List UInt8) : ByteFile where
  bytes i := if offset ≤ i then buf.getD (i - offset) (f.bytes i) else f.bytes i
  length := max f.length (offset + buf.length)

def slice (f : ByteFile) (offset size : Nat) : List UInt8 :=
  (List.range size).map fun i => f.bytes (offset + i)

def read (f : ByteFile) (offset size : Nat) : Option (List UInt8) :=
  if offset + size ≤ f.length then some (f.slice offset size) else none

@[simp]
theorem write_length (f : ByteFile) (offset : Nat) (buf : List UInt8) :
    (f.write offset buf).length = max f.length (offset + buf.length) := rfl

@[simp]
theorem slice_length (f : ByteFile) (offset size : Nat) :
    (f.slice offset size).length = size := by
  simp [slice]

@[simp]
theorem getElem_slice (f : ByteFile) (offset size i : Nat) (h : i < (f.slice offset size).length) :
    (f.slice offset size)[i] = f.bytes (offset + i) := by
  simp [slice]

theorem read_eq_some {f : ByteFile} {offset size : Nat} (h : offset + size ≤ f.length) :
    f.read offset size = some (f.slice offset size) :=
  if_pos h

end ByteFile

/-- A file on disk: its contents at the last sync, and the writes since. -/
structure DiskFile where
  durable : ByteFile
  issued : List (Nat × List UInt8)

namespace DiskFile

/-- The contents as every later read sees them. -/
def contents (f : DiskFile) : ByteFile :=
  f.issued.foldl (fun b w => b.write w.1 w.2) f.durable

def write (f : DiskFile) (offset : Nat) (buf : List UInt8) : DiskFile :=
  { f with issued := f.issued ++ [(offset, buf)] }

@[simp]
theorem contents_write (f : DiskFile) (offset : Nat) (buf : List UInt8) :
    (f.write offset buf).contents = f.contents.write offset buf := by
  simp [contents, write]

end DiskFile
