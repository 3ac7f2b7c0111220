/-
Pitches in tunes. The octave of middle C is written in capitals, the one above it in small
letters; commas go further down and apostrophes further up.
-/
import LyricScore.Text.LetterCase

namespace LyricScore

open Text

/-- The commas or apostrophes of an octave. -/
def octaveMarks (octave : Int) : String :=
  if 5 ≤ octave then String.ofList (List.replicate (octave - 5).toNat (Char.ofNat 0x27))
  else String.ofList (List.replicate (4 - octave).toNat ',')

/-- A letter and an octave as tunes write them. -/
def tunePitch (letter : String) (octave : Int) : String :=
  (if 5 ≤ octave then lower letter else upper letter) ++ octaveMarks octave

end LyricScore
