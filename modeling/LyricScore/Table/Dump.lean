/-
Tables as text. The first line names the columns, every other line is a row, and a tab stands
between two cells. An empty cell is written as a backslash and a capital N; in other cells the
backslash, the tab and the line feed are escaped. Reading takes the columns in any order, fills
missing ones with their defaults, and reports the first fault from the top.
-/
import LyricScore.Table.Column
import LyricScore.Table.Group

namespace LyricScore

open Text

-- =========================================================== writing

/-- The text of an empty cell. -/
def emptyCell : List Char := [backslash, 'N']

/-- A character inside a cell. -/
def escapeCellChar (c : Char) : List Char :=
  if c = backslash then [backslash, backslash]
  else if c = '\t' then [backslash, 't']
  else if c = '\n' then [backslash, 'n']
  else [c]

/-- A cell as text. -/
def Cell.write : Cell → List Char
  | .empty => emptyCell
  | .source value => value.name.toList
  | .kind value => value.name.toList
  | .accidental value => value.name.toList
  | .integer value => (decimal value).toList
  | .fraction value => (ratText value).toList
  | .text value => value.toList.flatMap escapeCellChar

/-- The line that names the columns. -/
def headLine : List Char :=
  joinWith ['\t'] (Column.all.map fun c => c.name.toList)

/-- A record as a line. -/
def Record.line (r : Record) : List Char :=
  joinWith ['\t'] (Column.all.map fun c => (r c).write)

/-- Records as text, every line closed by a line feed. -/
def dumpText (records : List Record) : String :=
  String.ofList ((headLine :: records.map Record.line).flatMap fun line => line ++ ['\n'])

/-- Whether every number of a record is short enough to be written. -/
def Record.canWrite (r : Record) : Bool :=
  Column.all.all fun c => (r c).canWrite

/-- Records as text, unless a number is too long to be written. -/
def dumpRecords (records : List Record) : Except Error String :=
  if records.all Record.canWrite then .ok (dumpText records) else .error .integerTooLong

/-- A table as text. -/
def Table.dump (t : Table) : Except Error String :=
  dumpRecords (t.map Row.record)

-- =========================================================== reading

/-- The text in a cell. A backslash gives a tab before `t`, a line feed before `n`, and else
itself vanishes. -/
def unescapeCell : List Char → List Char
  | [] => []
  | c :: rest =>
    if c = backslash then
      match rest with
      | [] => []
      | 't' :: more => '\t' :: unescapeCell more
      | 'n' :: more => '\n' :: unescapeCell more
      | other :: more => other :: unescapeCell more
    else c :: unescapeCell rest

/-- A name that must belong to a vocabulary. -/
def namedCell {α : Type} (find : String → Option α) (cell : α → Cell) (text : String) :
    Except Error Cell :=
  match find text with
  | some value => .ok (cell value)
  | none => .error (.unknownName text)

/-- Read a cell that is not empty. -/
def Column.readFilled (column : Column) (text : List Char) : Except Error Cell :=
  let s := String.ofList text
  match column with
  | .source => namedCell (fun n => Source.all.find? (·.name == n)) .source s
  | .kind => namedCell (fun n => Kind.all.find? (·.name == n)) .kind s
  | .accidental => namedCell Accidental.ofName? .accidental s
  | .block | .measure | .beat | .subdivision | .shift | .octave | .pickup =>
    (readInteger s).map .integer
  | .duration | .unit | .declared => (readFraction s).map .fraction
  | .raw | .letter | .meter | .directive | .key | .noteText | .draftText | .finalText =>
    .ok (.text (String.ofList (unescapeCell text)))

/-- Read a cell. -/
def Column.read (column : Column) (text : List Char) : Except Error Cell :=
  if text = emptyCell then .ok .empty else column.readFilled text

/-- The cell of a column that a table does not have. -/
def Column.missing : Column → Cell
  | .raw | .directive => .text ""
  | .shift => .integer 0
  | _ => .empty

/-- The record of the named cells of a line. Of two cells for one column the last counts. -/
def recordOf (cells : List (Column × Cell)) : Record := fun column =>
  match (cells.filter fun c => decide (c.1 = column)).getLast? with
  | some c => c.2
  | none => column.missing

/-- Whether a table has the columns that every row needs. -/
def hasRequired (columns : List Column) : Bool :=
  columns.contains .source && columns.contains .block && columns.contains .kind

/-- Read one line of a table with the given columns. -/
def readLine (columns : List Column) (line : List Char) : Except Error Record := do
  let texts := splitWhere (· == '\t') line
  if texts.length ≠ columns.length then
    throw (.cellCount columns.length texts.length (String.ofList line))
  let cells ← (columns.zip texts).mapM fun c => (c.1.read c.2).map fun cell => (c.1, cell)
  if hasRequired columns then return recordOf cells
  else throw .missingColumn

/-- Texts in the order of their characters. -/
def sortTexts (texts : List String) : List String :=
  texts.mergeSort fun a b => decide (a ≤ b)

/-- The columns that a head line names. -/
def readHead (line : List Char) : Except Error (List Column) :=
  let names := (splitWhere (· == '\t') line).map String.ofList
  let strange := names.filter fun n => (Column.ofName? n).isNone
  if strange.isEmpty then .ok (names.filterMap Column.ofName?)
  else .error (.unknownColumns (sortTexts (distinct strange)))

/-- Read the records of a table. A text without any line is a table without rows. -/
def readRecords (text : String) : Except Error (List Record) :=
  match lines text.toList with
  | [] => .ok []
  | head :: rest => do
    let columns ← readHead head
    rest.mapM (readLine columns)

/-- The row of a record. -/
def Record.toRow (r : Record) : Except Error Row :=
  match r.row? with
  | some row => .ok row
  | none => .error .emptyCell

/-- Read a table. -/
def Table.read (text : String) : Except Error Table := do
  let records ← readRecords text
  records.mapM Record.toRow

end LyricScore
