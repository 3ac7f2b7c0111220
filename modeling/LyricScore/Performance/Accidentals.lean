/-
Accidentals in performance. A mark on a note holds for its letter and octave until the next
barline; a note without a mark follows the last one in its measure, or else the key. A new key
forgets the marks.
-/
import LyricScore.Key
import LyricScore.Pitch.Accidental

namespace LyricScore

/-- The alterations in force: those of the key by letter, and those of the measure by letter and
octave, the latest first. -/
structure Alterations where
  key : List (String × Int)
  marks : List ((String × Int) × Int)

namespace Alterations

/-- The alterations at the start of a key. -/
def ofKey (name : String) : Alterations :=
  ⟨keyAlterations name, []⟩

/-- The alterations behind a barline. -/
def barline (a : Alterations) : Alterations :=
  { a with marks := [] }

/-- The alterations behind a note that may have a mark. -/
def mark (a : Alterations) (letter : String) (octave : Int) : Option Accidental → Alterations
  | none | some .plain => a
  | some accidental =>
    { a with
      marks := ((letter, octave), accidental.semitones)
        :: a.marks.filter fun m => decide (m.1 ≠ (letter, octave)) }

/-- How far a letter in an octave is altered. -/
def get (a : Alterations) (letter : String) (octave : Int) : Int :=
  match a.marks.lookup (letter, octave) with
  | some semitones => semitones
  | none => (a.key.lookup letter).getD 0

end Alterations

end LyricScore
