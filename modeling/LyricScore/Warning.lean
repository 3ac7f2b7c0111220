/-
Warnings: what a run could not honour and went on without. Each cause carries what its message
shows.
-/
import LyricScore.Text.Numeral

namespace LyricScore

open Text

/-- The cause of a warning. -/
inductive Warning where
  /-- An attack for which its block has no pitch left. -/
  | noPitchLeft (block : Int) (measure : Option Int) (text : String)
  /-- Pitches of a block that no attack sings. -/
  | unusedPitches (block : Int) (count : Nat)
  /-- A unit mark that is not known. -/
  | unknownUnit (block : Int) (text : String)
  /-- A unit mark in a measure without notes. -/
  | unitWithoutNotes (block : Int) (text : String)
  /-- A key signature that is not known. -/
  | unknownKey (block : Int) (text : String)
  /-- A key for a block without notes. -/
  | keyWithoutNotes (block : Int) (key : String)
  /-- A key change at a barline that the lyric line does not have. -/
  | keyWithoutBarline (block : Int) (text : String)
  deriving DecidableEq

/-- The wording of a warning. -/
def Warning.message : Warning → String
  | .noPitchLeft block measure text =>
    "block " ++ decimal block ++ ", measure " ++ (measure.map decimal).getD "None"
      ++ ": attack " ++ quote text ++ " has no pitch left"
  | .unusedPitches block count =>
    "block " ++ decimal block ++ ": " ++ decimal count ++ " pitch(es) not used by any attack"
  | .unknownUnit block text =>
    "block " ++ decimal block ++ ": unknown beat duration " ++ quote text ++ ", using 1/4"
  | .unitWithoutNotes block text =>
    "block " ++ decimal block ++ ": beat duration " ++ quote text ++ " has no notes to apply to"
  | .unknownKey block text =>
    "block " ++ decimal block ++ ": unknown key signature " ++ quote text ++ ", using C major"
  | .keyWithoutNotes block key =>
    "block " ++ decimal block ++ ": key " ++ key ++ " has no notes to apply to"
  | .keyWithoutBarline block text =>
    "block " ++ decimal block ++ ": key change " ++ quote text
      ++ " has no matching barline, dropped"

end LyricScore
