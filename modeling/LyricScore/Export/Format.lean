/-
The formats a score can be exported to.
-/
import LyricScore.Error
import LyricScore.Text.Blank

namespace LyricScore

open Text

/-- An output format: the tune as text, a sheet page, or a MIDI file. -/
inductive Format where
  | abc
  | html
  | midi
  deriving DecidableEq

namespace Format

/-- Every format. -/
def all : List Format := [.abc, .html, .midi]

/-- The name of a format. -/
def name : Format → String
  | .abc => "abc"
  | .html => "html"
  | .midi => "midi"

/-- The suffix of a format's files. -/
def suffix : Format → String
  | .abc => ".abc"
  | .html => ".html"
  | .midi => ".mid"

/-- The format that a text names, in any case and with blanks around it. The names are ASCII, and
no other letter becomes one of theirs in lower case. -/
def ofText (text : String) : Except Error Format :=
  let name := String.ofList ((trim text.toList).map Char.toLower)
  match all.find? (·.name == name) with
  | some format => .ok format
  | none => .error (.unknownFormat text)

end Format

end LyricScore
