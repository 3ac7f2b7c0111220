/-
Printing scores, and the scores that can be printed.

# The printer

A score is printed as chunks of lines with one blank line between each two: the title, if there
is one, and then the blocks. A block is its lyric line, its pitch line and its counter line, and
a line is words with one space between. A beat is printed with its duration and a point in front
and with points between its segments, so that a syllable may start with a digit or a bracket.

# Well-formed scores

`Score.WellFormed` says what the format can express. Segments have no blank and none of the
characters that lyric lines use as marks; a key signature counts its signs from one to seven; a
line is never empty, since a blank line ends the block; and a pitch line that opens with a key
signature has it as its opening and not as its first item.
-/
import LyricScore.Score.Basic

namespace LyricScore

open Text

-- ========================================================== printing

/-- A beat as printed. -/
def LyricBeat.printed (b : LyricBeat) : List Char :=
  (decimal b.duration).toList ++ '.' :: joinWith ['.'] (b.segments.map (·.text.toList))

/-- A word of a lyric line as printed. -/
def LyricItem.printed : LyricItem → List Char
  | .beat b => b.printed
  | .barline => ['|']
  | .unit m => m.text.toList

/-- A word of a pitch line as printed. -/
def PitchItem.printed : PitchItem → List Char
  | .pitch p => p.text.toList
  | .barline => ['|']
  | .key k => k.text.toList

/-- The words of a pitch line, its opening first. -/
def PitchLine.words (l : PitchLine) : List (List Char) :=
  (l.opening.map (·.text.toList)).toList ++ l.items.map PitchItem.printed

/-- A counter line as printed. -/
def printedCounter (n : Int) : List Char :=
  "counter: ".toList ++ (decimal n).toList

/-- The lines of a block. -/
def Block.printed (b : Block) : List (List Char) :=
  joinWith [' '] (b.lyrics.map LyricItem.printed) :: joinWith [' '] b.pitches.words
    :: (b.counter.map printedCounter).toList

/-- The chunks of a score: its title, unless it is empty, and its blocks. -/
def Score.chunks (s : Score) : List (List (List Char)) :=
  (if s.title = "" then [] else [[s.title.toList]]) ++ s.blocks.map Block.printed

/-- A score as printed. -/
def Score.print (s : Score) : String :=
  String.ofList (joinWith ['\n', '\n'] (s.chunks.map (joinWith ['\n'])))

-- ======================================================= well-formed

/-- The characters with a meaning of their own in lyric lines. -/
def lyricMarks : List Char := ['*', '-', '=', ';', '.', '|']

/-- A syllable is not empty and has neither blanks nor marks. -/
def Segment.WellFormed : Segment → Prop
  | .syllable text => text ≠ "" ∧ ∀ c ∈ text.toList, isBlank c = false ∧ c ∉ lyricMarks
  | .marker _ => True

/-- A beat has segments and lasts at least one beat. -/
def LyricBeat.WellFormed (b : LyricBeat) : Prop :=
  b.segments ≠ [] ∧ (∀ s ∈ b.segments, s.WellFormed) ∧ 1 ≤ b.duration ∧ fits b.duration

/-- Unit marks have no sign. -/
def UnitMark.WellFormed (m : UnitMark) : Prop :=
  0 ≤ m.number ∧ fits m.number

/-- The well-formed items of a lyric line. -/
def LyricItem.WellFormed : LyricItem → Prop
  | .beat b => b.WellFormed
  | .barline => True
  | .unit m => m.WellFormed

/-- One to seven sharps or flats, or none at all. -/
def KeySignature.WellFormed (k : KeySignature) : Prop :=
  (k.sign = "" ∧ k.count = 0) ∨ ((k.sign = "#" ∨ k.sign = "&") ∧ 1 ≤ k.count ∧ k.count ≤ 7)

/-- A pitch has one of the seven letters, and its shifts go up or down. -/
def Pitch.WellFormed (p : Pitch) : Prop :=
  p.letter ∈ ["a", "b", "c", "d", "e", "f", "g"] ∧ ∀ c ∈ p.shifts.toList, c = '^' ∨ c = '/'

/-- The well-formed items of a pitch line. -/
def PitchItem.WellFormed : PitchItem → Prop
  | .pitch p => p.WellFormed
  | .barline => True
  | .key k => k.WellFormed

/-- Whether an item is a key signature. -/
def PitchItem.isKey : PitchItem → Bool
  | .key _ => true
  | _ => false

/-- A pitch line opens with a key signature, or with some other item. -/
def PitchLine.WellFormed (l : PitchLine) : Prop :=
  (∀ item ∈ l.items, item.WellFormed)
    ∧ match l.opening with
      | some (.key k) => k.WellFormed
      | some (.word _) => False
      | none => ∃ item ∈ l.items.head?, item.isKey = false

/-- The lyric line of a block is not empty, and its counter has no sign. -/
def Block.WellFormed (b : Block) : Prop :=
  b.lyrics ≠ [] ∧ (∀ item ∈ b.lyrics, item.WellFormed) ∧ b.pitches.WellFormed
    ∧ ∀ n ∈ b.counter, 0 ≤ n ∧ fits n

/-- A title is one line, and no blanks are around it. -/
def IsTitle (title : String) : Prop :=
  title ≠ "" ∧ trim title.toList = title.toList ∧ ∀ c ∈ title.toList, isLineEnd c = false

/-- The scores that the format can express. -/
def Score.WellFormed (s : Score) : Prop :=
  (s.title = "" ∨ IsTitle s.title) ∧ ∀ b ∈ s.blocks, b.WellFormed

end LyricScore
