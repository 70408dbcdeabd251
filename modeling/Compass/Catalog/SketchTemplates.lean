/-
The template files of `SessionInfo` (Catalog.h).

`saveSketchTemplate` appends a template for every join column to two text
files, one of seeds and one of counters; both repeat the line that names
the tables and columns. `uploadSketchTemplates` reads them into a map whose
key is a text made of the four ids, the file of seeds first.

The sketches come in the order of the `unordered_map`, whatever it is. The
third component of a join connection, the other node, is not saved. A
variable that is read without success keeps what it had; the map is then
`none`, and so it is where the counters have a key that has no seeds.
-/
import Compass.Lib.TextStream
import Compass.Sketch.Host

namespace Compass.Catalog

open Compass.Sketch
open TextStream

def catSketchBuckets : Nat := 1021
def catSketchRows : Nat := 11

-- ======== save

/-- The ids of a join column and of the column it is joined with. -/
structure JoinConnection where
  lhsTableId : UInt64
  lhsColumnId : UInt64
  rhsTableId : UInt64
  rhsColumnId : UInt64
deriving DecidableEq

/-- What a `FAGMS_Sketch` has for one join column: the seeds of the rows,
and the counters. -/
structure ColumnSketch where
  xiBucket : Nat → UInt32 × UInt32
  xiPm1 : Nat → UInt32 × UInt32
  separateSketchElem : Nat → Int

structure TemplateFiles where
  sketchTemplateData : List Char
  sketchTemplateDataSeed : List Char

/-- `sketch_info`, without the end of the line. -/
def sketchInfo (j : JoinConnection) : List Char :=
  Nat.toDigits 10 j.lhsTableId.toNat ++ ' ' :: (Nat.toDigits 10 j.lhsColumnId.toNat
    ++ ' ' :: (Nat.toDigits 10 j.rhsTableId.toNat ++ ' ' :: (Nat.toDigits 10 j.rhsColumnId.toNat
    ++ ' ' :: (Nat.toDigits 10 catSketchBuckets ++ ' ' :: Nat.toDigits 10 catSketchRows))))

def seedLine (seeds : Nat → UInt32 × UInt32) : List Char :=
  spaced (Nat.toDigits 10) ((List.range catSketchRows).flatMap fun rw =>
    [(seeds rw).1.toNat, (seeds rw).2.toNat])

def counterLine (counters : Nat → Int) : List Char :=
  spaced insertDouble ((List.range (catSketchBuckets * catSketchRows)).map counters)

/-- One join column. -/
def saveColumn (files : TemplateFiles) (j : JoinConnection) (c : ColumnSketch) : TemplateFiles where
  sketchTemplateData := files.sketchTemplateData ++ (sketchInfo j ++ ['\n'])
    ++ (counterLine c.separateSketchElem ++ ['\n'])
  sketchTemplateDataSeed := files.sketchTemplateDataSeed ++ (sketchInfo j ++ ['\n'])
    ++ (seedLine c.xiBucket ++ ['\n']) ++ (seedLine c.xiPm1 ++ ['\n'])

/-- `saveSketchTemplate`. The columns of a sketch are in the order of the
join connections of its node. -/
def saveSketchTemplate (joinConnections : Nat → List JoinConnection)
    (sketches : List (Nat × (Nat → ColumnSketch))) (files : TemplateFiles) : TemplateFiles :=
  sketches.foldl (fun files it =>
    (joinConnections it.1).zipIdx.foldl (fun files (j, columnIndex) =>
      saveColumn files j (it.2 columnIndex)) files) files

-- ======== upload

/-- A `FAGMS_Sketch` with one key. -/
structure SketchTemplate where
  bucketsNo : UInt32
  rowsNo : UInt32
  xiBucket : List XiCW2B
  xiPm1 : List XiEH3
  sketchElem : List Int

/-- `table_sketch_templates`. -/
abbrev TemplateMap := List Char → Option SketchTemplate

def sizeMax : Nat := 18446744073709551615
def unsignedMax : Nat := 4294967295

def keyValue (tableId1 columnId1 tableId2 columnId2 : Nat) : List Char :=
  Nat.toDigits 10 tableId1 ++ '-' :: '-' :: (Nat.toDigits 10 columnId1
    ++ '-' :: '-' :: (Nat.toDigits 10 tableId2 ++ '-' :: '-' :: Nat.toDigits 10 columnId2))

structure Header where
  key : List Char
  bucketsNo : UInt32
  rowsNo : UInt32

/-- The line that both files have. The sizes go into `unsigned int`. -/
def readHeader (line : List Char) : Option Header := do
  let (t₁, s) ← extractUnsigned sizeMax line
  let (c₁, s) ← extractUnsigned sizeMax s
  let (t₂, s) ← extractUnsigned sizeMax s
  let (c₂, s) ← extractUnsigned sizeMax s
  let (buckets, s) ← extractUnsigned sizeMax s
  let (rows, _) ← extractUnsigned sizeMax s
  some ⟨keyValue t₁ c₁ t₂ c₂, UInt32.ofNat buckets, UInt32.ofNat rows⟩

/-- Two seeds. -/
def extractSeeds (s : List Char) : Option ((UInt32 × UInt32) × List Char) := do
  let (seed₁, s) ← extractUnsigned unsignedMax s
  let (seed₂, s) ← extractUnsigned unsignedMax s
  some ((UInt32.ofNat seed₁, UInt32.ofNat seed₂), s)

def uploadSeeds : List (List Char) → TemplateMap → Option TemplateMap
  | [], templates => some templates
  | header :: line₁ :: line₂ :: lines, templates => do
      let h ← readHeader header
      let (seeds₁, _) ← extractMany extractSeeds catSketchRows line₁
      let (seeds₂, _) ← extractMany extractSeeds catSketchRows line₂
      uploadSeeds lines (Function.update templates h.key (some {
        bucketsNo := h.bucketsNo
        rowsNo := h.rowsNo
        xiBucket := seeds₁.map fun seeds => ⟨seeds, UInt32.ofNat catSketchBuckets⟩
        xiPm1 := seeds₂.map fun seeds => ⟨seeds⟩
        sketchElem := List.replicate (h.bucketsNo * h.rowsNo).toNat 0 }))
  | _, _ => none

def uploadCounters : List (List Char) → TemplateMap → Option TemplateMap
  | [], templates => some templates
  | header :: line :: lines, templates => do
      let h ← readHeader header
      let (elements, _) ← extractMany extractDouble (catSketchBuckets * catSketchRows) line
      let t ← templates h.key
      uploadCounters lines
        (Function.update templates h.key (some { t with sketchElem := elements }))
  | _, _ => none

/-- `uploadSketchTemplates`. -/
def uploadSketchTemplates (files : TemplateFiles) (templates : TemplateMap) :
    Option TemplateMap := do
  let templates ← uploadSeeds (lines files.sketchTemplateDataSeed) templates
  uploadCounters (lines files.sketchTemplateData) templates

-- ======== round trip

/-- A template: a join connection and what the sketch has for it. -/
abbrev Template := JoinConnection × ColumnSketch

/-- The templates that are saved. -/
def templates (joinConnections : Nat → List JoinConnection)
    (sketches : List (Nat × (Nat → ColumnSketch))) : List Template :=
  sketches.flatMap fun it => (joinConnections it.1).zipIdx.map fun (j, columnIndex) =>
    (j, it.2 columnIndex)

def Template.key (t : Template) : List Char :=
  keyValue t.1.lhsTableId.toNat t.1.lhsColumnId.toNat t.1.rhsTableId.toNat t.1.rhsColumnId.toNat

/-- The sketch that a template is a text of. -/
def Template.sketch (t : Template) : SketchTemplate where
  bucketsNo := UInt32.ofNat catSketchBuckets
  rowsNo := UInt32.ofNat catSketchRows
  xiBucket := (List.range catSketchRows).map fun rw =>
    ⟨t.2.xiBucket rw, UInt32.ofNat catSketchBuckets⟩
  xiPm1 := (List.range catSketchRows).map fun rw => ⟨t.2.xiPm1 rw⟩
  sketchElem := (List.range (catSketchBuckets * catSketchRows)).map t.2.separateSketchElem

/-- The map has the templates, under the names of their tables and
columns, and nothing else. -/
def Restores (m : TemplateMap) (ts : List Template) : Prop :=
  (∀ t ∈ ts, m t.key = some t.sketch) ∧ ∀ key, m key ≠ none → ∃ t ∈ ts, t.key = key

/-- The counters of a template that are used. -/
def Template.counters (t : Template) : List Int :=
  (List.range (catSketchBuckets * catSketchRows)).map t.2.separateSketchElem

/-- Two templates have the same seeds and counters. -/
def Template.SameData (t t' : Template) : Prop :=
  (∀ rw < catSketchRows, t.2.xiBucket rw = t'.2.xiBucket rw ∧ t.2.xiPm1 rw = t'.2.xiPm1 rw)
    ∧ t.counters = t'.counters

end Compass.Catalog
