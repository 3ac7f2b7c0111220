/-
Notes: the text of each beat. A row is written as a note with accidental, pitch and length, or
as a rest; a hold is tied to the note before it; an odd split opens a tuplet. The rows of a beat
keep their own text, and the first of them carries the whole beat.
-/
import LyricScore.Pitch.Spelling
import LyricScore.Rhythm.Subdivision
import LyricScore.Table.Group

namespace LyricScore

open Text

-- ============================================================== rows

/-- A row that is written as a rest: a rest, or a row without a pitch. -/
def Row.isSilent (r : Row) : Bool :=
  r.kind == .rest || !r.hasPitch

/-- The pitch of a row as tunes write it. -/
def Row.pitchText (r : Row) : String :=
  tunePitch (r.letter.getD "") (r.octave.getD 0)

/-- The text of a row of the given length; `opening` opens a tuplet. -/
def Row.encode (r : Row) (length : Rat) (opening : String) : String :=
  if r.isSilent then opening ++ "z" ++ lengthText length
  else if r.isHold then "-" ++ opening ++ r.pitchText ++ lengthText length
  else opening ++ (r.accidental.getD .plain).mark ++ r.pitchText ++ lengthText length

-- ============================================================= beats

namespace BeatGroup

/-- The unit of a beat is that of its first row. -/
def unit (g : BeatGroup) : Rat := g.first.1.effectiveUnit

/-- The duration of a beat is that of its first row. -/
def duration (g : BeatGroup) : Rat := g.first.1.effectiveDuration

/-- Whether a beat is in the compound unit. -/
def compound (g : BeatGroup) : Bool := g.unit == compoundUnit

/-- The written length of each row of a beat, in units. -/
def length (g : BeatGroup) : Rat := splitLength g.count g.duration g.unit

/-- Whether a beat is bracketed as a tuplet. -/
def bracketed (g : BeatGroup) : Bool := needsTuplet g.count g.compound

/-- How much of its measure a beat fills, in units. -/
def span (g : BeatGroup) : Rat :=
  if g.compound then g.count * g.length else g.duration

/-- The opening of a beat's first row. -/
def opening (g : BeatGroup) : String :=
  if g.bracketed then tupletOpening g.count (splitDenominator g.count g.compound) else ""

/-- The text of a row of the beat. -/
def token (g : BeatGroup) (p : PlacedRow) : String :=
  p.1.encode g.length (if p.2 = g.first.2 then g.opening else "")

/-- The text of the whole beat. -/
def fragment (g : BeatGroup) : String :=
  String.join (g.members.map g.token)

/-- A row of the beat with its own text, and the whole beat's text on the first row. -/
def encodeRow (g : BeatGroup) (p : PlacedRow) : Row :=
  { p.1 with
    noteText := some (g.token p)
    draftText := some (if p.2 = g.first.2 then g.fragment else "") }

end BeatGroup

-- ============================================================ tables

/-- The counts that the note encoder reports. -/
structure NoteCounts where
  beats : Nat
  tuplets : Nat
  rests : Nat
  ties : Nat
  deriving DecidableEq

namespace Table

/-- The beat of a row, among the beats of its table. -/
def beatOf? (groups : List BeatGroup) (r : Row) : Option BeatGroup :=
  r.beatKey?.bind fun key => groups.find? fun g => decide (g.key = key)

/-- A table with the text of its beats. -/
def withNotesText (t : Table) : Table :=
  let groups := t.beats
  t.zipIdx.map fun p =>
    match beatOf? groups p.1 with
    | none => p.1
    | some g => g.encodeRow p

/-- A table with the text of its beats, unless a number is too long to be written. -/
def withNotes (t : Table) : Except Error Table :=
  if t.beats.all fun g => lengthFits g.length then .ok t.withNotesText
  else .error .integerTooLong

/-- What the note encoder counts. -/
def noteCounts (t : Table) : NoteCounts :=
  let groups := t.beats
  let rows := groups.flatMap (·.members)
  ⟨groups.length, (groups.filter (·.bracketed)).length,
    (rows.filter fun p => p.1.isSilent).length,
    (rows.filter fun p => !p.1.isSilent && p.1.isHold).length⟩

end Table

end LyricScore
