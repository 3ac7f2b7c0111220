/-
Layout: from a score to the table of its tokens. Each block gives its lyric rows and then its
pitch rows. Measures are counted in both lines on their own, from 1, or from 0 when the block
starts with a pickup; beats are counted within the measure, and a beat of duration d moves the
count by d.
-/
import LyricScore.Score.Basic
import LyricScore.Table.Row

namespace LyricScore

/-- The kind of row that a segment gives. -/
def Segment.kind : Segment → Kind
  | .syllable _ => .syllable
  | .marker .attack => .attack
  | .marker .tie => .tie
  | .marker .hold => .hold
  | .marker .rest => .rest

/-- The measure in which a block starts. -/
def Block.firstMeasure (b : Block) : Int :=
  if b.counter.isSome then 0 else 1

/-- The rows of one beat, one per segment. -/
def LyricBeat.rows (block : Int) (counter : Option Int) (measure beat : Int) (b : LyricBeat) :
    List Row :=
  (b.segments.zipIdx 1).map fun s =>
    { source := .lyric
      block := block
      kind := s.1.kind
      raw := s.1.text
      measure := some measure
      beat := some beat
      subdivision := some s.2
      duration := some b.duration
      pickup := counter }

/-- The rows of a lyric line, from a measure and a beat on. -/
def lyricRows (block : Int) (counter : Option Int) (measure beat : Int) :
    List LyricItem → List Row
  | [] => []
  | .barline :: rest =>
    { source := .lyric
      block := block
      kind := .barline
      raw := "|"
      measure := some measure
      pickup := counter } :: lyricRows block counter (measure + 1) 1 rest
  | .unit m :: rest =>
    { source := .lyric
      block := block
      kind := .unit
      raw := m.text
      measure := some measure
      pickup := counter } :: lyricRows block counter measure beat rest
  | .beat b :: rest =>
    b.rows block counter measure beat ++ lyricRows block counter measure (beat + b.duration) rest

/-- The row of a key signature, from its text. -/
def keyRow (block measure : Int) (text : String) : Row :=
  { source := .pitch, block := block, kind := .key, raw := text, measure := some measure }

/-- The row of a pitch. -/
def Pitch.row (block measure : Int) (p : Pitch) : Row :=
  { source := .pitch
    block := block
    kind := .pitch
    raw := p.text
    measure := some measure
    letter := some p.letter
    accidental := some p.accidental
    shift := p.shift }

/-- The rows of a pitch line, from a measure on. -/
def pitchRows (block measure : Int) : List PitchItem → List Row
  | [] => []
  | .barline :: rest =>
    { source := .pitch, block := block, kind := .barline, raw := "|", measure := some measure }
      :: pitchRows block (measure + 1) rest
  | .key k :: rest => keyRow block measure k.text :: pitchRows block measure rest
  | .pitch p :: rest => p.row block measure :: pitchRows block measure rest

/-- The rows of a block. -/
def Block.rows (number : Int) (b : Block) : List Row :=
  lyricRows number b.counter b.firstMeasure 1 b.lyrics
    ++ (b.pitches.opening.map fun o => keyRow number b.firstMeasure o.text).toList
    ++ pitchRows number b.firstMeasure b.pitches.items

/-- The table of a score. Blocks are numbered from one. -/
def Score.layout (s : Score) : Table :=
  (s.blocks.zipIdx 1).flatMap fun b => b.1.rows b.2

end LyricScore
