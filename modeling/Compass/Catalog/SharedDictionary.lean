/-
Columns that share a dictionary (Catalog/SharedDictionaryValidator.cpp).

A `SHARED DICTIONARY` of a CREATE TABLE gives a column the dictionary of
another one, of the same table or of a table that exists. Each definition
is validated against the columns and the definitions so far, and one within
the table has to refer to a column in front of its own.
`compress_reference_path` follows the references of the definitions that
were accepted.

The types of a column come with it, and whatever else the loop over the
elements checks of a column is left out.
-/
import Mathlib.Data.List.Count
import Mathlib.Logic.Relation
import Compass.Lib.Results

namespace Compass.Catalog

open List

-- ======== definitions

structure SharedDictionaryDef where
  column : String
  foreignTable : String
  foreignColumn : String
deriving DecidableEq

structure ColumnDescriptor where
  columnName : String
  isString : Bool
  dictEncoded : Bool
deriving DecidableEq

/-- An element of the table: a column, with whether it has an encoding of
its own, a shared dictionary, or a shard key. -/
inductive TableElement
  | columnDef (cd : ColumnDescriptor) (compression : Bool)
  | sharedDictionary (d : SharedDictionaryDef)
  | shardKey

/-- An exception with its text, or what ends the server. -/
inductive SharedDictFault
  | runtimeError (text : String)
  | check
  | unreachable
  | nullPointer
deriving DecidableEq

open SharedDictFault

-- ======== validation

def lookupColumn (name : String) (columns : List ColumnDescriptor) : Option ColumnDescriptor :=
  columns.find? (·.columnName = name)

def getCompressionForColumn (name : String) (elements : List TableElement) : Option Bool :=
  elements.findSome? fun e =>
    match e with
    | .columnDef cd compression => if cd.columnName = name then some compression else none
    | _ => none

/-- The column is there, and a dictionary encoded string. -/
def requireDictColumn (columns : List ColumnDescriptor) (name qualifiedName : String)
    (missing : SharedDictFault) : Except SharedDictFault Unit :=
  match lookupColumn name columns with
  | none => .error missing
  | some cd =>
    if !cd.isString || !cd.dictEncoded then
      .error (.runtimeError
        ("Column " ++ qualifiedName ++ " must be a dictionary encoded string"))
    else .ok ()

def doesntExist (qualifiedName : String) : SharedDictFault :=
  .runtimeError ("Column " ++ qualifiedName ++ " doesn't exist")

def validateSharedDictionaryOrder (table : String) (d : SharedDictionaryDef)
    (columns : List ColumnDescriptor) : Except SharedDictFault Unit :=
  let qualifiedName := d.foreignColumn ++ "." ++ d.foreignTable
  if d.column = d.foreignColumn then
    .error (.runtimeError
      ("Dictionary cannot be shared with itself. For dictionary : " ++ qualifiedName))
  else if d.foreignTable ≠ table then .error .check
  else
    match columns.reverse.dropWhile (·.columnName ≠ d.column) with
    | [] => .error .check
    | fromCol =>
      if fromCol.any (·.columnName = d.foreignColumn) then .ok ()
      else .error (.runtimeError ("Dictionary dependencies might create a cycle for "
        ++ d.column ++ "referencing " ++ qualifiedName))

/-- The column has no encoding of its own. -/
def requireNoEncoding (elements : List TableElement) (name qualifiedName : String) :
    Except SharedDictFault Unit :=
  match getCompressionForColumn name elements with
  | none => .error .unreachable
  | some true => .error (.runtimeError ("Column " ++ qualifiedName
      ++ " shouldn't specify an encoding, it borrows it from the referenced column"))
  | some false => .ok ()

section

variable (catalog : String → Option (List ColumnDescriptor)) (table : String)
  (elements : List TableElement)

/-- The column that is referred to; `catalog` has the columns of the tables
that exist. -/
def validateReference (d : SharedDictionaryDef) (columns : List ColumnDescriptor) :
    Except SharedDictFault Unit :=
  match catalog d.foreignTable with
  | none =>
    let qualifiedName := table ++ "." ++ d.foreignColumn
    if table ≠ d.foreignTable then
      .error (.runtimeError ("Table " ++ d.foreignTable ++ " doesn't exist"))
    else do
      requireDictColumn columns d.foreignColumn qualifiedName (doesntExist qualifiedName)
      validateSharedDictionaryOrder table d columns
  | some referenced =>
    -- the name of the column is read before it is known to be there
    requireDictColumn referenced d.foreignColumn (d.foreignColumn ++ "." ++ d.foreignColumn)
      .nullPointer

/-- The columns and the definitions seen so far. -/
abbrev SeenSoFar := List ColumnDescriptor × List SharedDictionaryDef

def validateSharedDictionary (d : SharedDictionaryDef) (seen : SeenSoFar) :
    Except SharedDictFault Unit := do
  let qualifiedName := table ++ "." ++ d.column
  requireDictColumn seen.1 d.column qualifiedName (doesntExist qualifiedName)
  requireNoEncoding elements d.column qualifiedName
  validateReference catalog table d seen.1
  if seen.2.any (·.column = d.column) then
    .error (.runtimeError ("Duplicate shared dictionary hint for column " ++ qualifiedName))
  else .ok ()

/-- A turn of the loop over the elements. -/
def seeElement (seen : SeenSoFar) : TableElement → Except SharedDictFault SeenSoFar
  | .sharedDictionary d => do
      validateSharedDictionary catalog table elements d seen
      return (seen.1, seen.2 ++ [d])
  | .shardKey => .ok seen
  | .columnDef cd _ =>
    if seen.1.any (·.columnName.toUpper = cd.columnName.toUpper) then
      .error (.runtimeError ("Column '" ++ cd.columnName ++ "' defined more than once"))
    else .ok (seen.1 ++ [cd], seen.2)

/-- `CreateTableStmt::execute`, as far as the shared dictionaries go. -/
def executeCreateTable : Except SharedDictFault SeenSoFar :=
  if (catalog table).isSome then
    .error (.runtimeError ("Table " ++ table ++ " already exists."))
  else elements.foldlM (seeElement catalog table elements) ([], [])

end

-- ======== compression of paths

/-- The hops, up to one to a definition outside of the table. -/
def followReferences (table : String) (defs : List SharedDictionaryDef) :
    Nat → SharedDictionaryDef → SharedDictionaryDef
  | 0, d => d
  | hops + 1, d =>
    let next := (defs.find? (·.column = d.foreignColumn)).getD d
    if next.foreignTable ≠ table then next else followReferences table defs hops next

/-- `none` is the failed CHECK. -/
def compressReferencePath (curNode : SharedDictionaryDef) (defs : List SharedDictionaryDef) :
    Option SharedDictionaryDef :=
  (defs.find? (· = curNode)).map (followReferences curNode.foreignTable defs defs.length)

-- ======== references

/-- The names of the columns, in order. -/
def namesOf (columns : List ColumnDescriptor) : List String :=
  columns.map ColumnDescriptor.columnName

/-- A definition refers to the column of another one, in the table. -/
def Refers (table : String) (defs : List SharedDictionaryDef) (d e : SharedDictionaryDef) : Prop :=
  d ∈ defs ∧ e ∈ defs ∧ d.foreignTable = table ∧ e.column = d.foreignColumn

/-- The dictionary is in another table, or in a column of this one that has
its own. -/
def IsRoot (table : String) (seen : SeenSoFar) (d : SharedDictionaryDef) : Prop :=
  d.foreignTable ≠ table
    ∨ d.foreignColumn ∈ namesOf seen.1 ∧ ∀ e ∈ seen.2, e.column ≠ d.foreignColumn

end Compass.Catalog
