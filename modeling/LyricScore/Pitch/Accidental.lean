/-
Accidentals. An accidental has a symbol in scores, a mark in tunes, a name in tables and a size
in semitones. A note without an accidental has the `plain` one, whose symbol is empty.
-/
import LyricScore.Error

namespace LyricScore

/-- An accidental. -/
inductive Accidental where
  | plain
  | sharp
  | doubleSharp
  | flat
  | doubleFlat
  | natural
  deriving DecidableEq

namespace Accidental

/-- Every accidental. -/
def all : List Accidental := [.plain, .sharp, .doubleSharp, .flat, .doubleFlat, .natural]

/-- An accidental as scores write it. -/
def symbol : Accidental → String
  | .plain => ""
  | .sharp => "#"
  | .doubleSharp => "##"
  | .flat => "&"
  | .doubleFlat => "&&"
  | .natural => "%"

/-- An accidental as tunes write it. -/
def mark : Accidental → String
  | .plain => ""
  | .sharp => "^"
  | .doubleSharp => "^^"
  | .flat => "_"
  | .doubleFlat => "__"
  | .natural => "="

/-- An accidental as tables name it. -/
def name : Accidental → String
  | .plain => "NONE"
  | .sharp => "SHARP"
  | .doubleSharp => "DOUBLE_SHARP"
  | .flat => "FLAT"
  | .doubleFlat => "DOUBLE_FLAT"
  | .natural => "NATURAL"

/-- How far an accidental moves a note, in semitones. -/
def semitones : Accidental → Int
  | .plain => 0
  | .sharp => 1
  | .doubleSharp => 2
  | .flat => -1
  | .doubleFlat => -2
  | .natural => 0

/-- The accidental that a symbol writes. -/
def ofSymbol? (symbol : String) : Option Accidental :=
  all.find? (·.symbol == symbol)

/-- The accidental that a symbol writes, or the complaint that it writes none. -/
def ofSymbol (symbol : String) : Except Error Accidental :=
  match ofSymbol? symbol with
  | some accidental => .ok accidental
  | none => .error (.unknownAccidental symbol)

/-- The accidental of a name. -/
def ofName? (name : String) : Option Accidental :=
  all.find? (·.name == name)

end Accidental

end LyricScore
