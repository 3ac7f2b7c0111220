/-
Scores. A score is a title and a list of blocks; a block pairs a lyric line with a pitch line and
may start in the middle of a measure. The lyric line holds beats, and a beat holds segments that
share it evenly: sung syllables and rhythm markers. The pitch line holds the pitches that the
attacks of the lyric line sing, with barlines and key signatures between them.
-/
import LyricScore.Pitch.Accidental
import LyricScore.Text.Numeral

namespace LyricScore

open Text

-- ======================================================== lyric line

/-- A rhythm marker. -/
inductive Marker where
  /-- A new note on no syllable. -/
  | attack
  /-- The note before, held on. -/
  | tie
  /-- The note before, held on for long. -/
  | hold
  /-- Silence. -/
  | rest
  deriving DecidableEq

/-- Every marker. -/
def Marker.all : List Marker := [.attack, .tie, .hold, .rest]

/-- A marker as lyric lines write it. -/
def Marker.char : Marker → Char
  | .attack => '*'
  | .tie => '-'
  | .hold => '='
  | .rest => ';'

/-- The marker that a character writes. -/
def Marker.ofChar? (c : Char) : Option Marker :=
  Marker.all.find? (·.char == c)

/-- A marker as text. -/
def Marker.text (m : Marker) : String :=
  String.ofList [m.char]

/-- One part of a beat. -/
inductive Segment where
  | syllable (text : String)
  | marker (m : Marker)
  deriving DecidableEq

/-- A segment as lyric lines write it. -/
def Segment.text : Segment → String
  | .syllable text => text
  | .marker m => m.text

/-- A beat of the lyric line: its segments share `duration` beats evenly. -/
structure LyricBeat where
  segments : List Segment
  duration : Int
  deriving DecidableEq

/-- A unit mark, such as `[4]` or `[4.]`. -/
structure UnitMark where
  number : Int
  dotted : Bool
  deriving DecidableEq

/-- A unit mark as lyric lines write it. -/
def UnitMark.text (m : UnitMark) : String :=
  "[" ++ decimal m.number ++ (if m.dotted then "." else "") ++ "]"

/-- An item of the lyric line. -/
inductive LyricItem where
  | beat (b : LyricBeat)
  | barline
  | unit (m : UnitMark)
  deriving DecidableEq

-- ======================================================== pitch line

/-- A key signature: a sharp or flat sign and how many of them; no sign for the key without. -/
structure KeySignature where
  sign : String
  count : Int
  deriving DecidableEq

/-- A key signature as pitch lines write it. -/
def KeySignature.text (k : KeySignature) : String :=
  "K" ++ k.sign ++ decimal k.count

/-- A pitch relative to the one before it. -/
structure Pitch where
  letter : String
  accidental : Accidental
  shifts : String
  deriving DecidableEq

/-- A pitch as pitch lines write it. -/
def Pitch.text (p : Pitch) : String :=
  p.shifts ++ p.accidental.symbol ++ p.letter

/-- The octaves that explicit shifts add: `^` goes up and `/` goes down. -/
def Pitch.shift (p : Pitch) : Int :=
  (p.shifts.toList.count '^' : Int) - (p.shifts.toList.count '/' : Int)

/-- An item of the pitch line. -/
inductive PitchItem where
  | pitch (p : Pitch)
  | barline
  | key (k : KeySignature)
  deriving DecidableEq

/-- What stands in front of a pitch line: a key signature, or another word, which counts as one
and is kept as it is written. -/
inductive Opening where
  | key (k : KeySignature)
  | word (text : String)
  deriving DecidableEq

/-- An opening as pitch lines write it. -/
def Opening.text : Opening → String
  | .key k => k.text
  | .word text => text

/-- A pitch line, with the key signature that it may open with. -/
structure PitchLine where
  opening : Option Opening
  items : List PitchItem
  deriving DecidableEq

-- ============================================================ scores

/-- A block. With a counter its first measure is a pickup, and the counter is the beat on which
it starts. -/
structure Block where
  lyrics : List LyricItem
  pitches : PitchLine
  counter : Option Int
  deriving DecidableEq

/-- A score. -/
structure Score where
  blocks : List Block
  title : String
  deriving DecidableEq

end LyricScore
