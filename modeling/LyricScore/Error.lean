/-
Everything that can go wrong, as causes. A cause carries what its message shows and nothing
else; the wording is in `Error.message` alone. `Error.family` sorts the causes the way a caller
reacts to them.
-/
import LyricScore.Text.Quoted

namespace LyricScore

open Text

-- ======================================================= line faults

/-- What is wrong with a line of a score. -/
inductive Fault where
  | malformedUnit
  | emptyBeat
  | shortBeat
  | unknownPitch
  | malformedKey
  | missingPitchLine
  | extraLine
  | missingCounter
  deriving DecidableEq

/-- The wording of a fault, without its place. -/
def Fault.message : Fault → String
  | .malformedUnit => "malformed beat-duration directive"
  | .emptyBeat => "beat group has no syllables or markers"
  | .shortBeat => "beat duration must be at least 1"
  | .unknownPitch => "unrecognised pitch"
  | .malformedKey => "malformed key signature"
  | .missingPitchLine => "block has a lyric line but no pitch line"
  | .extraLine => "unexpected line in block"
  | .missingCounter => "expected 'counter: N'"

/-- A message with the line it is about in front and the text it is about behind. An unknown
line number and an empty text are left out. -/
def located (message : String) (line : Option Int) (text : String) : String :=
  let place := match line with
    | some n => "line " ++ toString n ++ ": "
    | none => ""
  let detail := if text = "" then "" else " (" ++ quote text ++ ")"
  place ++ message ++ detail

-- ============================================================ causes

/-- The cause of a failure. -/
inductive Error where
  /-- A line of a score that cannot be read. -/
  | line (fault : Fault) (number : Option Int) (text : String)
  /-- A value of the named type where a score text or a score is needed. -/
  | notASource (typeName : String)
  /-- A value of the named type where a score is needed. -/
  | notAScore (typeName : String)
  /-- A value of the named type where a block is needed. -/
  | notABlock (typeName : String)
  /-- Something else than a beat, a barline or a unit mark in a lyric line. -/
  | strayLyric (shown : String) (block : Nat)
  /-- Something else than a syllable or a marker in a beat. -/
  | straySegment (shown : String) (block : Nat)
  /-- Something else than a pitch, a barline or a key signature in a pitch line. -/
  | strayPitch (shown : String) (block : Nat)
  /-- A value of the named type, where a part of a score is needed that it does not have. -/
  | strayPart (typeName : String)
  /-- A stage name that no stage has. -/
  | unknownStage (name : String) (known : List String)
  /-- A text that writes no integer. -/
  | notAnInteger (text : String)
  /-- A text that writes no fraction. -/
  | notAFraction (text : String)
  /-- A numeral too long to be read. -/
  | numeralTooLong (digits : Nat)
  /-- An integer too long to be written. -/
  | integerTooLong
  /-- A fraction with denominator zero. -/
  | zeroDenominator
  /-- An accidental that is not spelled like one. -/
  | unknownAccidental (symbol : String)
  /-- A letter that names no pitch. -/
  | unknownLetter (letter : String)
  /-- A name that the column's vocabulary does not hold. -/
  | unknownName (name : String)
  /-- A beat without subdivisions. -/
  | emptyGroup
  /-- Column names that no column has. -/
  | unknownColumns (names : List String)
  /-- A line of a table with too many or too few cells. -/
  | cellCount (expected actual : Nat) (text : String)
  /-- A table without one of the columns that every row needs. -/
  | missingColumn
  /-- An empty cell in a column that every row needs. -/
  | emptyCell
  /-- A place that is not in the table. -/
  | noSuchRow (index : Int)
  /-- A tune with nothing to engrave. -/
  | emptyTune
  /-- A tune that the engraver refused. -/
  | refusedTune
  /-- An output format that is not supported. -/
  | unknownFormat (format : String)
  /-- A tempo of zero. -/
  | zeroTempo
  /-- Characters from place `first` to place `last` that a Latin-1 text cannot hold. -/
  | notLatin1 (char : Char) (first last : Nat)
  /-- A number that does not fit its bytes. -/
  | byteRange
  /-- A time too large for the clock. -/
  | timeTooLarge
  /-- A file that cannot be reached. -/
  | noSuchFile (path : String)
  /-- A folder where a file is needed. -/
  | isFolder (path : String)
  /-- A path that leads through a file. -/
  | notAFolder (path : String)
  /-- A path with a name that is too long. -/
  | nameTooLong (path : String)
  /-- A path that holds a null character. -/
  | nullInPath
  /-- A file that is not UTF-8 text. -/
  | notUtf8
  deriving DecidableEq

/-- The part of a quoted text that a message shows when texts may be very long. -/
def quoteShort (text : String) : String :=
  String.ofList ((quote text).toList.take 200)

/-- The wording of a cause. -/
def Error.message : Error → String
  | .line fault number text => located fault.message number text
  | .notASource typeName => "Expected FQS text or a Score, got " ++ typeName
  | .notAScore typeName => "Expected a Score, got " ++ typeName
  | .notABlock typeName => "Expected a Block, got " ++ typeName
  | .strayLyric shown block => "Unknown lyric node " ++ shown ++ " in block " ++ toString block
  | .straySegment shown block =>
    "Unknown lyric segment " ++ shown ++ " in block " ++ toString block
  | .strayPitch shown block => "Unknown pitch node " ++ shown ++ " in block " ++ toString block
  | .strayPart typeName => "Unexpected " ++ typeName
  | .unknownStage name known =>
    "Unknown stage '" ++ name ++ "'. Use one of: " ++ ", ".intercalate known ++ "."
  | .notAnInteger text => "invalid literal for int() with base 10: " ++ quoteShort text
  | .notAFraction text => "Invalid literal for Fraction: " ++ quote text
  | .numeralTooLong digits =>
    "Exceeds the limit (4300 digits) for integer string conversion: value has "
      ++ toString digits
      ++ " digits; use sys.set_int_max_str_digits() to increase the limit"
  | .integerTooLong =>
    "Exceeds the limit (4300 digits) for integer string conversion; "
      ++ "use sys.set_int_max_str_digits() to increase the limit"
  | .zeroDenominator => "zero denominator"
  | .unknownAccidental symbol => quote symbol ++ " is not a valid Accidental"
  | .unknownLetter letter => quote letter
  | .unknownName name => quote name
  | .emptyGroup => "negative shift count"
  | .unknownColumns names => "Unknown row columns: " ++ ", ".intercalate names
  | .cellCount expected actual text =>
    "Expected " ++ toString expected ++ " columns, got " ++ toString actual ++ ": " ++ quote text
  | .missingColumn => "missing column"
  | .emptyCell => "empty cell"
  | .noSuchRow index => "no row " ++ toString index
  | .emptyTune => "abc_text is empty; nothing to render."
  | .refusedTune => "verovio could not load the ABC data."
  | .unknownFormat format =>
    "Unsupported output format '" ++ format ++ "'. Use one of: abc, html, midi."
  | .zeroTempo => "division by zero"
  | .notLatin1 char first last =>
    if first = last then
      "'latin-1' codec can't encode character '" ++ String.ofList (numberEscape char)
        ++ "' in position " ++ toString first ++ ": ordinal not in range(256)"
    else
      "'latin-1' codec can't encode characters in position " ++ toString first ++ "-"
        ++ toString last ++ ": ordinal not in range(256)"
  | .byteRange => "number does not fit its bytes"
  | .timeTooLarge => "time too large"
  | .noSuchFile path => "[Errno 2] No such file or directory: " ++ quote path
  | .isFolder path => "[Errno 21] Is a directory: " ++ quote path
  | .notAFolder path => "[Errno 20] Not a directory: " ++ quote path
  | .nameTooLong path => "[Errno 36] File name too long: " ++ quote path
  | .nullInPath => "embedded null byte"
  | .notUtf8 => "not UTF-8 text"

-- ========================================================== families

/-- How a caller reacts to a cause: the score text is bad, the score or the run is, a value in it
is, a file is out of reach, or the failure is nobody's fault and goes up unhandled. -/
inductive Family where
  | text
  | shape
  | value
  | file
  | internal
  deriving DecidableEq

/-- The family of a cause. -/
def Error.family : Error → Family
  | .line .. => .text
  | .notASource _ | .notAScore _ | .notABlock _ | .strayLyric .. | .straySegment ..
  | .strayPitch .. | .unknownStage .. => .shape
  | .notAnInteger _ | .notAFraction _ | .numeralTooLong _ | .integerTooLong
  | .unknownAccidental _ | .emptyGroup | .unknownColumns _ | .cellCount .. | .emptyTune
  | .refusedTune | .unknownFormat _ | .notLatin1 .. | .nullInPath | .notUtf8 => .value
  | .noSuchFile _ | .isFolder _ | .notAFolder _ | .nameTooLong _ => .file
  | .strayPart _ | .zeroDenominator | .unknownLetter _ | .unknownName _ | .missingColumn
  | .emptyCell | .noSuchRow _ | .zeroTempo | .byteRange | .timeTooLarge => .internal

end LyricScore
