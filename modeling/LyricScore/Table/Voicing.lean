/-
Voicing: absolute octaves for the pitches. Each pitch lies nearest to the one before it. A block
starts from middle C, unless it goes on with a held note; then it starts from where the voice
was.
-/
import LyricScore.Pitch.Octave
import LyricScore.Table.Group

namespace LyricScore

/-- Where the voice is. -/
structure Voice where
  letter : Letter
  octave : Int
  deriving DecidableEq

/-- Where a new block starts. -/
def Voice.middleC : Voice := ⟨.c, 4⟩

/-- The next pitch of a voice. -/
def Voice.move (v : Voice) (letter : Letter) (shift : Int) : Voice :=
  ⟨letter, nearestOctave v.letter v.octave letter shift⟩

namespace Voicing

/-- Whether a row is the first one of another block. -/
def enters (block : Option Int) (r : Row) : Bool :=
  r.source != .header && block != some r.block

/-- The voice at a row that may be the first one of its block. -/
def start (continues : Int → Bool) (block : Option Int) (v : Voice) (r : Row) : Voice :=
  if enters block r && !continues r.block then .middleC else v

/-- The letter that a row sings, for pitch rows that name one. -/
def sungLetter? (r : Row) : Option String :=
  if r.source = .pitch then r.letter else none

/-- Give octaves to the pitches of a list of rows, from a block and a voice on. `continues`
tells the blocks that go on with a held note. -/
def resolve (continues : Int → Bool) (block : Option Int) (v : Voice) :
    List Row → Except Error (List Row)
  | [] => .ok []
  | r :: rest =>
    let here := start continues block v r
    let block := if enters block r then some r.block else block
    match sungLetter? r with
    | none =>
      match resolve continues block here rest with
      | .error e => .error e
      | .ok rows => .ok (r :: rows)
    | some name =>
      match Letter.ofName name with
      | .error e => .error e
      | .ok letter =>
        let next := here.move letter r.shift
        match resolve continues block next rest with
        | .error e => .error e
        | .ok rows => .ok ({ r with octave := some next.octave } :: rows)

end Voicing

/-- Give every pitch of a table its octave. -/
def Table.voiced (t : Table) : Except Error Table :=
  Voicing.resolve t.opensWithHold none .middleC t

end LyricScore
