/-
Keys for the rows. The first key signature that opens a pitch line before any note is the key of
the heading; without one the score starts in C major. A later signature that opens a block is
announced at the block's first note, and one behind the i-th barline of a pitch line goes with
the i-th barline of the lyric line. A signature of the key in force says nothing. Every lyric
barline gets its stroke here.
-/
import LyricScore.Table.Group
import LyricScore.Table.Heading
import LyricScore.Warning

namespace LyricScore

/-- What became of a key signature. -/
inductive KeyEffect where
  /-- It is the key of the heading. -/
  | heading
  /-- It repeats the key in force. -/
  | repeated
  /-- It is announced at the row of this place. -/
  | atNote (target : Nat)
  /-- It is announced at the barline of this place. -/
  | atBarline (target : Nat)
  /-- Its block has no notes. -/
  | noNotes
  /-- The lyric line has no such barline. -/
  | noBarline
  deriving DecidableEq

/-- Whether the key in force is another one behind a signature. -/
def KeyEffect.changesKey : KeyEffect → Bool
  | .heading | .atNote _ | .atBarline _ => true
  | _ => false

/-- A key signature that was read. -/
structure KeyMark where
  index : Nat
  block : Int
  raw : String
  key : String
  known : Bool
  effect : KeyEffect
  deriving DecidableEq

namespace Keys

/-- The stroke of a barline. -/
def bar : String := "|"

/-- An inline field for a key. -/
def inlineKey (key : String) : String := "[K:" ++ key ++ "]"

/-- Whether a row is a barline of a lyric line. -/
def isLyricBarline (r : Row) : Bool :=
  r.source == .lyric && r.kind == .barline

/-- The places of the lyric barlines of a block. -/
def barlines (t : Table) (block : Int) : List Nat :=
  (t.zipIdx.filter fun p => isLyricBarline p.1 && p.1.block == block).map (·.2)

/-- The place of the first row of a block that takes time. -/
def firstNote? (t : Table) (block : Int) : Option Nat :=
  (t.zipIdx.find? fun p => p.1.isRhythm && p.1.block == block).map (·.2)

/-- What is known between two pitch rows: the key in force, once known, the block, the barlines
passed in it, and whether nothing but its opening was passed. -/
structure State where
  active : Option String := none
  block : Option Int := none
  bars : Nat := 0
  opening : Bool := true

/-- The state at a pitch row that may be the first one of its block. Anything but an opening
signature settles the key of a score that has none yet. -/
def State.enter (s : State) (r : Row) : State :=
  let s := if s.block = some r.block then s
    else { s with block := some r.block, bars := 0, opening := true }
  if s.active.isNone && !(r.kind == .key && s.opening) then { s with active := some defaultKey }
  else s

/-- What a signature for `key` does in a state. -/
def effect (t : Table) (s : State) (r : Row) (key : String) : KeyEffect :=
  match s.active with
  | none => .heading
  | some active =>
    if key = active then .repeated
    else if s.opening then
      match firstNote? t r.block with
      | some target => .atNote target
      | none => .noNotes
    else if s.bars = 0 then .noBarline
    else
      match (barlines t r.block)[s.bars - 1]? with
      | some target => .atBarline target
      | none => .noBarline

/-- The key signatures of placed rows, in order. -/
def marks (t : Table) (s : State) : List PlacedRow → List KeyMark
  | [] => []
  | (r, index) :: rest =>
    if r.source ≠ .pitch then marks t s rest
    else
      let s := s.enter r
      if r.kind = .barline then marks t { s with bars := s.bars + 1, opening := false } rest
      else if r.kind = .key then
        let known := keyName? r.raw
        let key := known.getD defaultKey
        let e := effect t s r key
        let active := if e.changesKey then some key else s.active
        ⟨index, r.block, r.raw, key, known.isSome, e⟩
          :: marks t { s with active := active, opening := false } rest
      else marks t { s with opening := false } rest

/-- What a signature writes on the row of a place. -/
def write (index : Nat) (r : Row) (m : KeyMark) : Row :=
  let r := if m.index = index then { r with key := some m.key } else r
  match m.effect with
  | .atNote target =>
    if target = index then
      { r with
        directive := " ".intercalate ([inlineKey m.key, r.directive].filter (· != ""))
        key := some m.key }
    else r
  | .atBarline target =>
    if target = index then
      { r with draftText := some (bar ++ " " ++ inlineKey m.key), key := some m.key }
    else r
  | _ => r

/-- A row with the stroke of its barline and all that the signatures write on it. -/
def annotate (ms : List KeyMark) (r : Row) (index : Nat) : Row :=
  ms.foldl (write index) (if isLyricBarline r then { r with draftText := some bar } else r)

/-- The key for the heading. -/
def headingKey (ms : List KeyMark) : String :=
  ((ms.find? fun m => m.effect == .heading).map (·.key)).getD defaultKey

/-- The warnings of a signature. -/
def warnings (m : KeyMark) : List Warning :=
  (if m.known then [] else [.unknownKey m.block m.raw])
    ++ match m.effect with
      | .noNotes => [.keyWithoutNotes m.block m.key]
      | .noBarline => [.keyWithoutBarline m.block m.raw]
      | _ => []

end Keys

namespace Table

/-- The key signatures of a table. -/
def keyMarks (t : Table) : List KeyMark :=
  Keys.marks t {} t.zipIdx

/-- A table with its keys and barlines. -/
def withKeys (t : Table) : Table :=
  let ms := t.keyMarks
  Table.setField "K" (Keys.headingKey ms) (t.zipIdx.map fun p => Keys.annotate ms p.1 p.2)

end Table

end LyricScore
