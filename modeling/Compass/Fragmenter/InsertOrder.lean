/-
The insert-order fragmenter (InsertOrderFragmenter.cpp): rows are appended
to the last fragment of a table, a new fragment is created when that is
full, and the oldest fragments are dropped when the table has too many
rows.

A fragment is full by its number of rows or by the bytes of one of its
variable-length columns; `varLenColInfo` counts these for the fragment that
is inserted into. While rows are inserted only the shadow count of a
fragment changes; the physical count, which queries see, is set at the end.

A row is of any type, with its bytes in each variable-length column. The
chunks of a fragment are its `rows` and, if row ids are materialized, its
`rowIds`; they stand for what `appendData` has written to the fragment's
buffers. A failed CHECK or assert is `none`.
-/
import Mathlib.Data.List.FinRange
import Mathlib.Algebra.BigOperators.Group.List.Basic
import Mathlib.Algebra.GroupWithZero.Nat

namespace Compass.Fragmenter

/-- A table: its limits, its variable-length columns, and how many rows
are left after dropping (97 percent, computed as a double). -/
structure Table (α : Type) where
  maxFragmentRows : ℕ
  maxChunkSize : ℕ
  maxRows : ℕ
  columns : ℕ
  size : α → Fin columns → ℕ
  hasMaterializedRowId : Bool
  targetRows : ℕ → ℕ

/-- `FragmentInfo`, and the fragment's chunks. -/
structure Fragment (α : Type) where
  fragmentId : Int
  shadowNumTuples : ℕ
  physicalNumTuples : ℕ
  rows : List α
  rowIds : List Int

variable {α : Type} (t : Table α)

structure State where
  fragments : List (Fragment α)
  varLenColInfo : Fin t.columns → ℕ
  numTuples : ℕ
  maxFragmentId : Int

def initial : State t := ⟨[], fun _ => 0, 0, -1⟩

-- ======== inserting

/-- `getNumElemsForBytesInsertData`, after so many bytes. -/
def getNumElemsForBytesInsertData (byteLimit : ℕ) : List ℕ → ℕ → ℕ
  | [], _ => 0
  | len :: lens, dataSize =>
    if dataSize + len > byteLimit then 0
    else getNumElemsForBytesInsertData byteLimit lens (dataSize + len) + 1

/-- The loop over `varLenColInfo_` that lowers the number of rows. -/
def limitRows (varLenColInfo : Fin t.columns → ℕ) (left : List α) :
    List (Fin t.columns) → ℕ → Option ℕ
  | [], numRows => some numRows
  | c :: cs, numRows =>
    if t.maxChunkSize < varLenColInfo c then none
    else
      let bytesLeft := t.maxChunkSize - varLenColInfo c
      limitRows varLenColInfo left cs (min numRows
        (getNumElemsForBytesInsertData bytesLeft ((left.take numRows).map (t.size · c)) 0))

/-- The rows to insert next, of those that the fragment has room for. -/
def numRowsToInsert (varLenColInfo : Fin t.columns → ℕ) (left : List α) (room : ℕ) :
    Option ℕ :=
  limitRows t varLenColInfo left (List.finRange t.columns) (min room left.length)

/-- What the loop of `insertDataImpl` works on: the vector of fragments
up to `currentFragment`. -/
structure Cursor where
  before : List (Fragment α)
  current : Fragment α
  varLenColInfo : Fin t.columns → ℕ
  maxFragmentId : Int
  startFragment : ℕ

/-- `createNewFragment`: its fragment, for the last id. -/
def newFragment (maxFragmentId : Int) : Fragment α :=
  ⟨maxFragmentId + 1, 0, 0, [], []⟩

/-- The fragment is full: a new one is created and the byte counters are
reset. -/
def Cursor.next (w : Cursor t) (numRowsInserted : ℕ) : Cursor t where
  before := w.before ++ [w.current]
  current := newFragment w.maxFragmentId
  varLenColInfo := fun _ => 0
  maxFragmentId := w.maxFragmentId + 1
  startFragment := if numRowsInserted = 0 then w.startFragment + 1 else w.startFragment

/-- The bytes of a column. -/
def bytes (rows : List α) (c : Fin t.columns) : ℕ :=
  (rows.map (t.size · c)).sum

/-- `appendData` for all columns, and the counters after it. -/
def Cursor.append (w : Cursor t) (rows : List α) : Cursor t where
  before := w.before
  current :=
    { w.current with
      rows := w.current.rows ++ rows
      rowIds :=
        if t.hasMaterializedRowId then
          w.current.rowIds ++ (List.range rows.length).map fun (i : ℕ) =>
            (t.maxFragmentRows : Int) * w.current.fragmentId + w.current.shadowNumTuples + i
        else w.current.rowIds
      shadowNumTuples := w.current.physicalNumTuples + rows.length }
  varLenColInfo := bytes t (w.current.rows ++ rows)
  maxFragmentId := w.maxFragmentId
  startFragment := w.startFragment

/-- The rows that the current fragment takes. -/
def Cursor.pick (w : Cursor t) (left : List α) : Option ℕ :=
  let rowsLeft := t.maxFragmentRows - w.current.shadowNumTuples
  if rowsLeft ≠ 0 then numRowsToInsert t w.varLenColInfo left rowsLeft else some 0

/-- One round of the loop: the cursor, and how many rows it took. -/
def Cursor.step (w : Cursor t) (numRowsInserted : ℕ) (left : List α) :
    Option (Cursor t × ℕ) :=
  if t.maxFragmentRows < w.current.shadowNumTuples then none
  else
    match w.pick t left with
    | none => none
    | some (n + 1) => some (w.append t (left.take (n + 1)), n + 1)
    | some 0 =>
      let w' := w.next t numRowsInserted
      match numRowsToInsert t w'.varLenColInfo left t.maxFragmentRows with
      | none => none
      | some 0 => none
      | some (n + 1) => some (w'.append t (left.take (n + 1)), n + 1)

/-- The loop of `insertDataImpl`, for so many rounds at most. -/
def Cursor.loop : ℕ → Cursor t → ℕ → List α → Option (Cursor t)
  | _, w, _, [] => some w
  | 0, _, _, _ :: _ => none
  | rounds + 1, w, numRowsInserted, r :: rest =>
    match w.step t numRowsInserted (r :: rest) with
    | none => none
    | some (w', n) => loop rounds w' (numRowsInserted + n) ((r :: rest).drop n)

/-- Where inserting begins: in the last fragment, or in a new one. -/
def State.cursor (s : State t) : Cursor t :=
  match s.fragments.getLast? with
  | none => ⟨[], newFragment s.maxFragmentId, s.varLenColInfo, s.maxFragmentId + 1, 0⟩
  | some f =>
    ⟨s.fragments.dropLast, f, s.varLenColInfo, s.maxFragmentId, s.fragments.length - 1⟩

def Fragment.publish (f : Fragment α) : Fragment α :=
  { f with physicalNumTuples := f.shadowNumTuples }

/-- The physical counts are set, from `startFragment` on. -/
def Cursor.publish (w : Cursor t) : List (Fragment α) :=
  (w.before ++ [w.current]).take w.startFragment
    ++ ((w.before ++ [w.current]).drop w.startFragment).map Fragment.publish

-- ======== dropping

/-- The loop of `dropFragmentsToSize`. -/
def dropLoop (targetRows : ℕ) : List (Fragment α) → ℕ → Option (List (Fragment α) × ℕ)
  | [], numTuples => if numTuples > targetRows then none else some ([], numTuples)
  | f :: fs, numTuples =>
    if numTuples > targetRows then
      if numTuples < f.physicalNumTuples then none
      else dropLoop targetRows fs (numTuples - f.physicalNumTuples)
    else some (f :: fs, numTuples)

def State.dropFragmentsToSize (s : State t) (maxRows : ℕ) : Option (State t) :=
  if s.numTuples > maxRows then
    (dropLoop (t.targetRows maxRows) s.fragments s.numTuples).map fun r =>
      { s with fragments := r.1, numTuples := r.2 }
  else some s

def State.insertData (s : State t) (rows : List α) : Option (State t) :=
  if rows = [] then some s
  else do
    let w ← (s.cursor t).loop t rows.length 0 rows
    State.dropFragmentsToSize t
      ⟨w.publish t, w.varLenColInfo, s.numTuples + rows.length, w.maxFragmentId⟩ t.maxRows

-- ======== the statement

/-- A state after a history of inserted rows. -/
structure Consistent (history : List α) (s : State t) : Prop where
  /-- The rows are the last ones that were inserted, in order. -/
  survivors : (s.fragments.flatMap Fragment.rows) <:+ history
  /-- Queries see the rows of a fragment. -/
  published : ∀ f ∈ s.fragments, f.physicalNumTuples = f.rows.length
  rows_le : ∀ f ∈ s.fragments, f.rows.length ≤ t.maxFragmentRows
  bytes_le : ∀ f ∈ s.fragments, ∀ c, bytes t f.rows c ≤ t.maxChunkSize
  ids : (s.fragments.map Fragment.fragmentId).Pairwise (· < ·)
  ids_le : ∀ f ∈ s.fragments, f.fragmentId ≤ s.maxFragmentId
  numTuples : s.numTuples = (s.fragments.map Fragment.physicalNumTuples).sum
  rowIds : (s.fragments.flatMap Fragment.rowIds).Nodup
  rowIds_length : t.hasMaterializedRowId = true →
    ∀ f ∈ s.fragments, f.rowIds.length = f.rows.length

/-- What a later state has of an earlier one: its fragments, with rows
appended, and fragments with new ids. -/
structure Extends (s s' : State t) : Prop where
  maxFragmentId : s.maxFragmentId ≤ s'.maxFragmentId
  fragments : ∀ f' ∈ s'.fragments, s.maxFragmentId < f'.fragmentId
    ∨ ∃ f ∈ s.fragments, f.fragmentId = f'.fragmentId ∧ f.rows <+: f'.rows

/-- Every value fits a chunk. -/
def Insertable (rows : List α) : Prop :=
  ∀ r ∈ rows, ∀ c, t.size r c ≤ t.maxChunkSize

/-- A fragment can hold a row, and byte counters that are left over when a
table has no fragment do not matter: they let nothing into the first
fragment, or as much as counters of zero. -/
def Harmless (s : State t) (rows : List α) : Prop :=
  0 < t.maxFragmentRows
    ∧ (s.fragments = [] →
        numRowsToInsert t s.varLenColInfo rows t.maxFragmentRows = some 0
          ∨ numRowsToInsert t s.varLenColInfo rows t.maxFragmentRows
            = numRowsToInsert t (fun _ => 0) rows t.maxFragmentRows)

/-- One call, on a state with its history. -/
inductive Step : State t × List α → State t × List α → Prop
  | insertData {s s' : State t} {history rows : List α} (hsize : Insertable t rows)
      (hcounters : Harmless t s rows) (h : s.insertData t rows = some s') :
      Step (s, history) (s', history ++ rows)
  | dropFragmentsToSize {s s' : State t} {history : List α} {maxRows : ℕ}
      (h : s.dropFragmentsToSize t maxRows = some s') : Step (s, history) (s', history)

end Compass.Fragmenter
