/-
Rows. A score laid out as a table has one row per token: header fields, the segments, barlines
and unit marks of lyric lines, and the pitches, barlines and key signatures of pitch lines. A
row is filled in step by step; an empty field has not been filled yet.
-/
import LyricScore.Pitch.Accidental
import LyricScore.Rhythm.Meter
import LyricScore.Rhythm.Unit

namespace LyricScore

-- ======================================================= source, kind

/-- Where a row comes from. -/
inductive Source where
  | lyric
  | pitch
  | header
  deriving DecidableEq

/-- Every source. -/
def Source.all : List Source := [.lyric, .pitch, .header]

/-- A source as tables name it. -/
def Source.name : Source → String
  | .lyric => "LYRIC"
  | .pitch => "PITCH"
  | .header => "HEADER"

/-- A source as messages word it. -/
def Source.word : Source → String
  | .lyric => "lyric"
  | .pitch => "pitch"
  | .header => "header"

/-- What a row is. -/
inductive Kind where
  | syllable
  | attack
  | tie
  | hold
  | rest
  | pitch
  | key
  | barline
  | unit
  | heading
  | unknown
  deriving DecidableEq

namespace Kind

/-- Every kind. -/
def all : List Kind :=
  [.syllable, .attack, .tie, .hold, .rest, .pitch, .key, .barline, .unit, .heading, .unknown]

/-- A kind as tables name it. -/
def name : Kind → String
  | .syllable => "SYLLABLE"
  | .attack => "ATTACK"
  | .tie => "TIE"
  | .hold => "DOUBLE_HOLD"
  | .rest => "REST"
  | .pitch => "PITCH"
  | .key => "KEY_SIG"
  | .barline => "BARLINE"
  | .unit => "BEAT_DURATION_DIRECTIVE"
  | .heading => "HEADER_FIELD"
  | .unknown => "UNKNOWN"

/-- A kind as messages word it. -/
def word : Kind → String
  | .syllable => "syllable"
  | .attack => "attack"
  | .tie => "tie"
  | .hold => "double_hold"
  | .rest => "rest"
  | .pitch => "pitch"
  | .key => "key_sig"
  | .barline => "barline"
  | .unit => "beat_duration_directive"
  | .heading => "header_field"
  | .unknown => "unknown"

/-- Kinds that start a note. -/
def isAttack : Kind → Bool
  | .syllable | .attack => true
  | _ => false

/-- Kinds that hold the note before. -/
def isHold : Kind → Bool
  | .tie | .hold => true
  | _ => false

/-- Kinds that take time. -/
def isRhythm : Kind → Bool
  | .syllable | .attack | .tie | .hold | .rest => true
  | _ => false

end Kind

-- ============================================================== rows

/-- One row. The first fields come from the layout; the octave from voicing; pitches on lyric
rows from the underlay; the heading, units, meters and keys each from their step; `noteText` and
`draftText` from the note encoder and `finalText` from the folding of ties. -/
structure Row where
  source : Source
  block : Int
  kind : Kind
  raw : String := ""
  measure : Option Int := none
  beat : Option Int := none
  subdivision : Option Int := none
  duration : Option Rat := none
  letter : Option String := none
  accidental : Option Accidental := none
  shift : Int := 0
  octave : Option Int := none
  pickup : Option Int := none
  unit : Option Rat := none
  declared : Option Rat := none
  meter : Option String := none
  directive : String := ""
  key : Option String := none
  noteText : Option String := none
  draftText : Option String := none
  finalText : Option String := none
  deriving DecidableEq

/-- A table of rows, in document order. -/
abbrev Table := List Row

namespace Row

/-- A lyric row that starts a note. -/
def isAttack (r : Row) : Bool :=
  r.source == .lyric && r.kind.isAttack

/-- A lyric row that holds a note. -/
def isHold (r : Row) : Bool :=
  r.source == .lyric && r.kind.isHold

/-- A lyric row that takes time. -/
def isRhythm (r : Row) : Bool :=
  r.source == .lyric && r.kind.isRhythm

/-- A row that knows its pitch. -/
def hasPitch (r : Row) : Bool :=
  r.letter.isSome && r.octave.isSome

/-- What the row writes into the tune so far: its final text, or else its draft. -/
def text (r : Row) : String :=
  match r.finalText with
  | some text => text
  | none => r.draftText.getD ""

/-- The unit that holds for the row; a missing or zero unit is the default one. -/
def effectiveUnit (r : Row) : Rat :=
  match r.unit with
  | some unit => if unit = 0 then defaultUnit else unit
  | none => defaultUnit

/-- How long the row's beat lasts; a missing or zero duration is one beat. -/
def effectiveDuration (r : Row) : Rat :=
  match r.duration with
  | some duration => if duration = 0 then 1 else duration
  | none => 1

/-- The meter that holds for the row; a missing or empty one is the default. -/
def effectiveMeter (r : Row) : String :=
  match r.meter with
  | some meter => if meter = "" then defaultMeter else meter
  | none => defaultMeter

end Row

end LyricScore
