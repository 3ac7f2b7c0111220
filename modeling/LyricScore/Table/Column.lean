/-
Columns and cells. Every field of a row is a column with a name, and a column's cells all hold
the same sort of value or are empty. A record gives a cell for each column; a row is a record
whose required cells are filled.
-/
import LyricScore.Table.Row

namespace LyricScore

open Text

-- =========================================================== columns

/-- A column of a table. -/
inductive Column where
  | source
  | block
  | kind
  | raw
  | measure
  | beat
  | subdivision
  | duration
  | letter
  | accidental
  | shift
  | octave
  | pickup
  | unit
  | declared
  | meter
  | directive
  | key
  | noteText
  | draftText
  | finalText
  deriving DecidableEq

namespace Column

/-- The columns in the order in which tables are written. -/
def all : List Column :=
  [.source, .block, .kind, .raw, .measure, .beat, .subdivision, .duration, .letter, .accidental,
   .shift, .octave, .pickup, .unit, .declared, .meter, .directive, .key, .noteText, .draftText,
   .finalText]

/-- The name of a column. -/
def name : Column → String
  | .source => "source"
  | .block => "block"
  | .kind => "kind"
  | .raw => "raw_value"
  | .measure => "measure"
  | .beat => "beat"
  | .subdivision => "subdivision"
  | .duration => "beat_duration"
  | .letter => "pitch_letter"
  | .accidental => "accidental"
  | .shift => "octave_shift"
  | .octave => "absolute_octave"
  | .pickup => "pickup_counter"
  | .unit => "unit_length"
  | .declared => "declared_unit"
  | .meter => "meter"
  | .directive => "directive"
  | .key => "key_name"
  | .noteText => "note_text"
  | .draftText => "draft_text"
  | .finalText => "final_text"

/-- The column of a name. -/
def ofName? (name : String) : Option Column :=
  all.find? (·.name == name)

end Column

-- ============================================================= cells

/-- What a cell holds. -/
inductive Cell where
  | empty
  | source (value : Source)
  | kind (value : Kind)
  | accidental (value : Accidental)
  | integer (value : Int)
  | fraction (value : Rat)
  | text (value : String)
  deriving DecidableEq

namespace Cell

/-- An integer that may be missing. -/
def ofInteger? : Option Int → Cell
  | some n => .integer n
  | none => .empty

/-- A fraction that may be missing. -/
def ofFraction? : Option Rat → Cell
  | some q => .fraction q
  | none => .empty

/-- A text that may be missing. -/
def ofText? : Option String → Cell
  | some s => .text s
  | none => .empty

/-- An accidental that may be missing. -/
def ofAccidental? : Option Accidental → Cell
  | some a => .accidental a
  | none => .empty

/-- The source in a cell. -/
def source? : Cell → Option Source
  | .source value => some value
  | _ => none

/-- The kind in a cell. -/
def kind? : Cell → Option Kind
  | .kind value => some value
  | _ => none

/-- The accidental in a cell. -/
def accidental? : Cell → Option Accidental
  | .accidental value => some value
  | _ => none

/-- The integer in a cell. -/
def integer? : Cell → Option Int
  | .integer value => some value
  | _ => none

/-- The fraction in a cell. -/
def fraction? : Cell → Option Rat
  | .fraction value => some value
  | _ => none

/-- The text in a cell. -/
def text? : Cell → Option String
  | .text value => some value
  | _ => none

/-- A named value with its word or symbol. -/
def describeName (type name word : String) : String :=
  "<" ++ type ++ "." ++ name ++ ": " ++ quote word ++ ">"

/-- A cell in messages. -/
def describe : Cell → String
  | .empty => "None"
  | .source value => describeName "Source" value.name value.word
  | .kind value => describeName "Kind" value.name value.word
  | .accidental value => describeName "Accidental" value.name value.symbol
  | .integer value => decimal value
  | .fraction value => "Fraction(" ++ decimal value.num ++ ", " ++ decimal value.den ++ ")"
  | .text value => quote value

/-- Whether the numbers in a cell are short enough to be written. -/
def canWrite : Cell → Bool
  | .integer value => fits value
  | .fraction value => ratFits value
  | _ => true

end Cell

-- =========================================================== records

/-- A cell for every column. -/
abbrev Record := Column → Cell

/-- The record of a row. -/
def Row.record (r : Row) : Record
  | .source => .source r.source
  | .block => .integer r.block
  | .kind => .kind r.kind
  | .raw => .text r.raw
  | .measure => .ofInteger? r.measure
  | .beat => .ofInteger? r.beat
  | .subdivision => .ofInteger? r.subdivision
  | .duration => .ofFraction? r.duration
  | .letter => .ofText? r.letter
  | .accidental => .ofAccidental? r.accidental
  | .shift => .integer r.shift
  | .octave => .ofInteger? r.octave
  | .pickup => .ofInteger? r.pickup
  | .unit => .ofFraction? r.unit
  | .declared => .ofFraction? r.declared
  | .meter => .ofText? r.meter
  | .directive => .text r.directive
  | .key => .ofText? r.key
  | .noteText => .ofText? r.noteText
  | .draftText => .ofText? r.draftText
  | .finalText => .ofText? r.finalText

namespace Record

/-- The row of a record whose required cells are filled. -/
def row? (r : Record) : Option Row := do
  let source ← (r .source).source?
  let block ← (r .block).integer?
  let kind ← (r .kind).kind?
  let raw ← (r .raw).text?
  let shift ← (r .shift).integer?
  let directive ← (r .directive).text?
  return {
    source := source
    block := block
    kind := kind
    raw := raw
    measure := (r .measure).integer?
    beat := (r .beat).integer?
    subdivision := (r .subdivision).integer?
    duration := (r .duration).fraction?
    letter := (r .letter).text?
    accidental := (r .accidental).accidental?
    shift := shift
    octave := (r .octave).integer?
    pickup := (r .pickup).integer?
    unit := (r .unit).fraction?
    declared := (r .declared).fraction?
    meter := (r .meter).text?
    directive := directive
    key := (r .key).text?
    noteText := (r .noteText).text?
    draftText := (r .draftText).text?
    finalText := (r .finalText).text? }

/-- A record of a lyric row whose kind belongs to a class. -/
def isLyric (p : Kind → Bool) (r : Record) : Bool :=
  r .source == .source .lyric && ((r .kind).kind?.map p).getD false

/-- A record that starts a note. -/
def isAttack (r : Record) : Bool := isLyric Kind.isAttack r

/-- A record that holds a note. -/
def isHold (r : Record) : Bool := isLyric Kind.isHold r

/-- A record that takes time. -/
def isRhythm (r : Record) : Bool := isLyric Kind.isRhythm r

/-- A record that knows its pitch. -/
def hasPitch (r : Record) : Bool :=
  r .letter != .empty && r .octave != .empty

/-- What the record writes into the tune so far. -/
def text (r : Record) : String :=
  match (r .finalText).text? with
  | some text => text
  | none => (r .draftText).text?.getD ""

end Record

end LyricScore
