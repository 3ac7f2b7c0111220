/-
The seven pitch letters, in the order of the scale from C upward. A letter has a degree (its
place among the seven) and a height in semitones (its place among the twelve).
-/
import LyricScore.Error

namespace LyricScore

/-- A pitch letter. -/
inductive Letter where
  | c
  | d
  | e
  | f
  | g
  | a
  | b
  deriving DecidableEq

namespace Letter

/-- The letters from C upward. -/
def all : List Letter := [.c, .d, .e, .f, .g, .a, .b]

/-- A letter as scores write it. -/
def name : Letter → String
  | .c => "c"
  | .d => "d"
  | .e => "e"
  | .f => "f"
  | .g => "g"
  | .a => "a"
  | .b => "b"

/-- The place of a letter in the scale. -/
def degree : Letter → Int
  | .c => 0
  | .d => 1
  | .e => 2
  | .f => 3
  | .g => 4
  | .a => 5
  | .b => 6

/-- The height of a letter above C, in semitones. -/
def semitones : Letter → Int
  | .c => 0
  | .d => 2
  | .e => 4
  | .f => 5
  | .g => 7
  | .a => 9
  | .b => 11

/-- The letter that a text writes. -/
def ofName? (text : String) : Option Letter :=
  all.find? (·.name == text)

/-- The letter that a text writes, or the complaint that it writes none. -/
def ofName (text : String) : Except Error Letter :=
  match ofName? text with
  | some letter => .ok letter
  | none => .error (.unknownLetter text)

end Letter

end LyricScore
