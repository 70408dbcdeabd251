/-
Reading a delimited file (`Importer::importDelimited`, Import/Importer.cpp).

The file is read into a buffer, and a block is cut behind the last line
delimiter in it; what is behind the cut comes first in the next buffer. At the
end of the file the whole buffer is the block. The threads that the blocks are
given to answer with what they did; all that the loop does with an answer is to
stop, so a run has a flag for each iteration (`halts`). `find_end` counts with
an `int`; sizes are those that it can count.
-/
import Mathlib.Data.List.DropRight
import Mathlib.Data.List.Infix

namespace Compass.Import

abbrev Text := List UInt8

/-- `find_end`: the place behind the last line delimiter. -/
def findEnd (lineDelim : UInt8) (buffer : Text) : Nat :=
  (buffer.rdropWhile (· ≠ lineDelim)).length

structure Reader where
  /-- `sbuffer`, as far as it is filled. -/
  buffer : Text
  /-- What is not read yet. -/
  rest : Text
  eofReached : Bool

namespace Reader

/-- The reader when the loop begins. -/
def start (bufferSize : Nat) (file : Text) : Reader :=
  ⟨file.take bufferSize, file.drop bufferSize, false⟩

variable (bufferSize : Nat) (lineDelim : UInt8)

def endPos (s : Reader) : Nat :=
  if s.eofReached then s.buffer.length else findEnd lineDelim s.buffer

/-- The block that a thread is given. -/
def block (s : Reader) : Text :=
  s.buffer.take (s.endPos lineDelim)

/-- One iteration of the loop. -/
def next (s : Reader) : Reader :=
  let residual := s.buffer.drop (s.endPos lineDelim)
  let wanted := bufferSize - residual.length
  let buffer := residual ++ s.rest.take wanted
  -- `feof` says that less was there than was wanted
  ⟨buffer, s.rest.drop wanted,
    s.eofReached || (buffer.length < bufferSize && s.rest.length < wanted)⟩

/-- There is an iteration with this number. -/
def Iterates (halts : Nat → Bool) (s : Reader) (n : Nat) : Prop :=
  (∀ i < n, halts i = false) ∧ ∀ i ≤ n, ((next bufferSize lineDelim)^[i] s).buffer ≠ []

end Reader

/-- Each iteration hands out a byte or is the last one, and there is a last
one. -/
structure MakesProgress (bufferSize : Nat) (lineDelim : UInt8) (file : Text) : Prop where
  consumes : ∀ halts n, (Reader.start bufferSize file).Iterates bufferSize lineDelim halts n →
    0 < (((Reader.next bufferSize lineDelim)^[n] (.start bufferSize file)).endPos lineDelim)
      ∨ halts n = true
  terminates : ∀ halts, ∃ n, ¬ (Reader.start bufferSize file).Iterates bufferSize lineDelim halts n

/-- Every part of the file of the size of the buffer has a line delimiter. -/
def EveryWindow (bufferSize : Nat) (lineDelim : UInt8) (file : Text) : Prop :=
  ∀ window, window <:+: file → window.length = bufferSize → lineDelim ∈ window

end Compass.Import
