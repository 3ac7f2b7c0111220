/-
Performing a table. The rows of a beat share its time evenly; an attack starts a note, a hold
lengthens the one that sounds, and every other row that takes time ends it. Times are in quarter
notes from the start.
-/
import LyricScore.Performance.Accidentals
import LyricScore.Pitch.Octave
import LyricScore.Table.Heading
import LyricScore.Table.Notes

namespace LyricScore

/-- A sounding note. -/
structure NoteEvent where
  pitch : Int
  start : Rat
  duration : Rat
  deriving DecidableEq

/-- The time of each row of a beat, in quarter notes. -/
def BeatGroup.step (g : BeatGroup) : Rat :=
  g.span / g.count * g.unit * 4

namespace Performance

/-- What is known between two rows. -/
structure State where
  alterations : Alterations
  sounding : Option NoteEvent := none
  time : Rat := 0

/-- The state at a lyric row that may bring a new key. -/
def State.enter (s : State) (r : Row) : State :=
  match r.key with
  | some name => { s with alterations := .ofKey name }
  | none => s

/-- The state behind silence. -/
def State.silence (s : State) (step : Rat) : State :=
  { s with sounding := none, time := s.time + step }

/-- The state behind a hold of the sounding note. -/
def State.hold (s : State) (note : NoteEvent) (step : Rat) : State :=
  { s with
    sounding := some { note with duration := note.duration + step }
    time := s.time + step }

/-- The state behind an attack. -/
def State.attack (s : State) (letter : Letter) (r : Row) (octave : Int) (step : Rat) : State :=
  let alterations := s.alterations.mark letter.name octave r.accidental
  let pitch := keyNumber letter octave (alterations.get letter.name octave)
  ⟨alterations, some ⟨pitch, s.time, step⟩, s.time + step⟩

/-- The notes from a state on. A note is given out when it ends. -/
def play (groups : List BeatGroup) (s : State) : List Row → Except Error (List NoteEvent)
  | [] => .ok s.sounding.toList
  | r :: rest =>
    if r.source ≠ .lyric then play groups s rest
    else
      let s := s.enter r
      if r.kind = .barline then
        play groups { s with alterations := s.alterations.barline } rest
      else
        match Table.beatOf? groups r with
        | none => play groups s rest
        | some g =>
          match r.isAttack, r.isHold, r.letter, r.octave, s.sounding with
          | true, _, some name, some octave, _ =>
            match Letter.ofName name with
            | .error e => .error e
            | .ok letter =>
              (play groups (s.attack letter r octave g.step) rest).map (s.sounding.toList ++ ·)
          | false, true, some _, some _, some note => play groups (s.hold note g.step) rest
          | _, _, _, _, _ => (play groups (s.silence g.step) rest).map (s.sounding.toList ++ ·)

end Performance

/-- The key that a table starts in. -/
def Table.openingKey (t : Table) : String :=
  match t.field? "K" with
  | some name => if name = "" then defaultKey else name
  | none => defaultKey

/-- The notes of a table, in the order in which they start. -/
def Table.events (t : Table) : Except Error (List NoteEvent) :=
  Performance.play t.beats { alterations := .ofKey t.openingKey } t

end LyricScore
