/-
Tunes: the text of a finished table. The heading gives one line per field, and each block gives
one music line of what its lyric rows announce and write. Pitch rows write nothing.
-/
import LyricScore.Table.Group
import LyricScore.Tune.Line

namespace LyricScore

open Text

namespace Table

/-- The lines of the heading. A field for an empty title is left out. -/
def headingLines (t : Table) : List String :=
  (t.filter fun r => decide (r.source = .header ∧ ¬ (r.raw = "T" ∧ r.text = ""))).map fun r =>
    r.raw ++ ":" ++ r.text

/-- What a row puts into the music: its announcement and its text. -/
def musicPieces (r : Row) : List String :=
  [r.directive, r.text].filter (· != "")

/-- The music of a block before it is tidied. -/
def blockMusic (t : Table) (block : Int) : List Char :=
  joinWith [' ']
    ((t.filter fun r => decide (r.source = .lyric ∧ r.block = block)).flatMap musicPieces
      |>.map String.toList)

/-- The blocks that have lyrics. -/
def lyricBlocks (t : Table) : List Int :=
  distinct ((t.filter fun r => decide (r.source = .lyric)).map (·.block))

/-- The music lines, without the empty ones. -/
def musicLines (t : Table) : List String :=
  let tidied := t.lyricBlocks.map fun block => Line.tidy (t.blockMusic block)
  (Line.carryTies (tidied.filter fun line => !line.isEmpty)).map String.ofList

/-- The tune of a table. -/
def tune (t : Table) : String :=
  "\n".intercalate (t.headingLines ++ t.musicLines)

end Table

end LyricScore
