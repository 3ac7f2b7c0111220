/-
Octaves. A pitch is written relative to the one before it: it takes the octave in which it lies
nearest, counted in letters, and explicit shifts come on top. Octave 4 starts at middle C.
-/
import LyricScore.Pitch.Letter

namespace LyricScore

/-- The octave of `letter` that is at most three letters away from the previous pitch, moved by
`shift` octaves. -/
def nearestOctave (previous : Letter) (octave : Int) (letter : Letter) (shift : Int) : Int :=
  let distance := letter.degree - previous.degree
  if distance > 3 then octave - 1 + shift
  else if distance < -3 then octave + 1 + shift
  else octave + shift

/-- The nearest octave for letters given as texts. The new letter is judged first. -/
def nearestOctaveOf (previous : String) (octave : Int) (letter : String) (shift : Int) :
    Except Error Int := do
  let new ← Letter.ofName letter
  let old ← Letter.ofName previous
  return nearestOctave old octave new shift

/-- The number of a key on the keyboard: 60 is middle C, and each semitone counts one. -/
def keyNumber (letter : Letter) (octave alteration : Int) : Int :=
  (octave + 1) * 12 + letter.semitones + alteration

/-- The key number for a letter given as text. -/
def keyNumberOf (letter : String) (octave alteration : Int) : Except Error Int := do
  let known ← Letter.ofName letter
  return keyNumber known octave alteration

end LyricScore
