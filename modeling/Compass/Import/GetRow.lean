/-
One row of a delimited file (`get_row`, `trim_space`, Import/Importer.cpp).

The scanner goes over the bytes once. An escape character in front of a quote
takes the quote with it, a quote turns quoting on and off, and a delimiter or a
line end outside of quotes and arrays ends a field. What the field means is
found in a second pass over its bytes. A row ends behind all the line ends that
follow each other; the caller gives the end of the block for both ends of the
buffer.
-/
import Compass.Import.Delimited

namespace Compass.Import

structure CopyParams where
  delimiter : UInt8
  quote : UInt8
  escape : UInt8
  lineDelim : UInt8
  arrayBegin : UInt8
  arrayEnd : UInt8
  quoted : Bool
  threads : Nat

/-- The variables of the loop; `skip` is set for a byte that was taken with
the escape character before it. -/
structure RowScan where
  field : Text
  inQuote : Bool
  inArray : Bool
  hasEscape : Bool
  stripQuotes : Bool
  skip : Bool
  row : List Text

def RowScan.start : RowScan :=
  ⟨[], false, false, false, false, false, []⟩

def isSpace (c : UInt8) : Bool :=
  c = 32 || c = 13

def trimSpace (s : Text) : Text :=
  (s.dropWhile isSpace).rdropWhile isSpace

namespace CopyParams

variable (params : CopyParams) (isArray : Nat → Bool)

def isEol (c : UInt8) : Bool :=
  c = params.lineDelim || c = 13 || c = 10

/-- The copy into `field_buf`; `last` is the byte behind the field. -/
def unescape (last : UInt8) : Text → Text
  | [] => []
  | [c] => if c = params.escape ∧ last = params.quote then [params.quote] else [c]
  | c :: d :: cs =>
    if c = params.escape ∧ d = params.quote then params.quote :: unescape last cs
    else c :: unescape last (d :: cs)

/-- What a field means. -/
def fieldValue (s : RowScan) (last : UInt8) : Text :=
  if !s.hasEscape && !s.stripQuotes then trimSpace s.field
  else
    let t := trimSpace (if s.hasEscape then params.unescape last s.field else s.field)
    let t := if params.quoted && t.head? = some params.quote then t.tail else t
    if params.quoted && t.getLast? = some params.quote then t.dropLast else t

/-- One byte, with the byte behind it, and whether the row ends. -/
def step (s : RowScan) (c : UInt8) (next : Option UInt8) : RowScan × Bool :=
  let taken := { s with field := s.field ++ [c] }
  if s.skip then ({ taken with skip := false }, false)
  else if c = params.escape ∧ next = some params.quote then
    ({ taken with hasEscape := true, skip := true }, false)
  else if params.quoted ∧ c = params.quote then
    ({ taken with inQuote := !s.inQuote, stripQuotes := s.stripQuotes || !s.inQuote }, false)
  else if !s.inQuote ∧ c = params.arrayBegin ∧ isArray s.row.length then
    ({ taken with inArray := true }, false)
  else if !s.inQuote ∧ c = params.arrayEnd ∧ isArray s.row.length then
    ({ taken with inArray := false }, false)
  else if c = params.delimiter ∨ params.isEol c then
    if !s.inQuote ∧ !s.inArray then
      ({ RowScan.start with row := s.row ++ [params.fieldValue s c] }, params.isEol c)
    else (taken, params.isEol c && params.threads ≠ 1)
  else (taken, false)

def scan (s : RowScan) : Text → RowScan × Text
  | [] => (s, [])
  | c :: cs =>
    match params.step isArray s c cs.head? with
    | (s, true) => (s, cs.dropWhile params.isEol)
    | (s, false) => scan s cs

/-- `get_row`: the fields, and the text from the next row on. -/
def getRow (text : Text) : List Text × Text :=
  ((params.scan isArray .start text).1.row, (params.scan isArray .start text).2)

/-- The rows of `import_thread`. -/
inductive Reads : Text → List (List Text) → Prop where
  | nil : Reads [] []
  | cons {text rest : Text} {row : List Text} {rows : List (List Text)} : text ≠ [] →
      params.getRow isArray text = (row, rest) → Reads rest rows → Reads text (row :: rows)

-- ======== what is written

/-- A field in quotes, with the quotes in it doubled. -/
def doubled (f : Text) : Text :=
  f.flatMap fun c => if c = params.quote then [c, c] else [c]

def encodeField (f : Text) : Text :=
  params.quote :: (params.doubled f ++ [params.quote])

def encodeRow : List Text → Text
  | [] => []
  | [f] => params.encodeField f ++ [params.lineDelim]
  | f :: fs => params.encodeField f ++ params.delimiter :: encodeRow fs

def encode (rows : List (List Text)) : Text :=
  rows.flatMap params.encodeRow

/-- A format in which quotes can be told from delimiters. -/
structure Csv : Prop where
  quoted : params.quoted = true
  threads : params.threads = 1
  escape : params.escape = params.quote
  delimiter_ne : params.delimiter ≠ params.quote
  delimiter_eol : params.isEol params.delimiter = false
  quote_eol : params.isEol params.quote = false
  quote_space : params.quote ≠ 32
  arrays : ∀ i, isArray i = true → ∀ c ∈ [params.arrayBegin, params.arrayEnd],
    c ≠ params.delimiter ∧ c ≠ params.lineDelim

/-- Each row is read from its first byte to its last one, and so are all. -/
structure RoundTrips (rows : List (List Text)) : Prop where
  each : ∀ before row after, rows = before ++ row :: after →
    params.getRow isArray (params.encode (row :: after)) = (row, params.encode after)
  all : params.Reads isArray (params.encode rows) rows

-- ======== the lines of a file

/-- None of the special characters is a line end. -/
def SeparatesLines : Prop :=
  ∀ c ∈ [params.quote, params.escape, params.arrayBegin, params.arrayEnd], params.isEol c = false

/-- What is in front of the line end, and the bytes of the line end in front
of the line delimiter. -/
structure Line where
  core : Text
  ends : Text

def lineText (l : Line) : Text :=
  l.core ++ (l.ends ++ [params.lineDelim])

/-- The fields of a line. -/
def lineRow (l : Line) : List Text :=
  (params.getRow isArray (l.core ++ [params.lineDelim])).1

/-- A line that is not blank and ends outside of quotes and arrays. -/
structure IsLine (l : Line) : Prop where
  nonempty : l.core ≠ []
  core : ∀ c ∈ l.core, params.isEol c = false
  ends : ∀ c ∈ l.ends, params.isEol c = true ∧ c ≠ params.lineDelim
  inQuote : (params.scan isArray .start l.core).1.inQuote = false
  inArray : (params.scan isArray .start l.core).1.inArray = false

/-- The lines of a file; the last one may have no line delimiter. -/
def fileText (lines : List Line) (last : Option Line) : Text :=
  lines.flatMap params.lineText ++ last.elim [] fun l => l.core ++ l.ends

/-- The rows that the blocks of a reader are read into, when nothing stops the
loop. -/
inductive Imports (bufferSize : Nat) : Reader → List (List Text) → Prop where
  | done {s : Reader} : s.buffer = [] → Imports bufferSize s []
  | more {s : Reader} {rows next : List (List Text)} : s.buffer ≠ [] →
      params.Reads isArray (s.block params.lineDelim) rows →
      Imports bufferSize (s.next bufferSize params.lineDelim) next →
      Imports bufferSize s (rows ++ next)

end CopyParams

end Compass.Import
