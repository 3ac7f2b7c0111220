/-
Score trees from outside. A caller may hand over a score as a tree of nodes, and nothing says
that each node stands where it belongs. `Node.score` checks a tree in the order in which a
score is read and either gives the score or the first fault.
-/
import LyricScore.Score.Tree

namespace LyricScore

/-- A node of an unchecked tree, or a bare value where a node should be. -/
inductive Node where
  | score (blocks : List Node) (title : String)
  | block (lyrics : List Node) (pitches : Node) (counter : Option Int)
  | pitchLine (key : Node) (elements : List Node)
  | beat (content : List Node) (duration : Int)
  | barline
  | unit (number : Int) (dotted : Bool)
  | keySignature (sign : Option String) (count : Int)
  | pitch (letter : String) (accidental : Option String) (shifts : String)
  | syllable (value : String)
  | special (value : String)
  | list (items : List Node)
  | text (value : String)
  | number (value : Int)
  | flag (value : Bool)
  | nothing

namespace Node

-- =========================================================== showing

/-- The type that a message names for a node. -/
def typeName : Node → String
  | .score .. => "Score"
  | .block .. => "Block"
  | .pitchLine .. => "PitchLine"
  | .beat .. => "BeatTuple"
  | .barline => "Barline"
  | .unit .. => "BeatDuration"
  | .keySignature .. => "KeySignature"
  | .pitch .. => "Pitch"
  | .syllable _ => "Syllable"
  | .special _ => "Special"
  | .list _ => "tuple"
  | .text _ => "str"
  | .number _ => "int"
  | .flag _ => "bool"
  | .nothing => "NoneType"

mutual

/-- A node as a plain tree. -/
def toTree : Node → Tree
  | .score blocks title => .node "Score" [("blocks", .list (toTrees blocks)), ("title", .text title)]
  | .block lyrics pitches counter =>
    .node "Block"
      [("lyrics", .list (toTrees lyrics)), ("pitches", toTree pitches),
       ("counter", Tree.optional Tree.number counter)]
  | .pitchLine key elements =>
    .node "PitchLine" [("key_signature", toTree key), ("elements", .list (toTrees elements))]
  | .beat content duration =>
    .node "BeatTuple" [("content", .list (toTrees content)), ("duration", .number duration)]
  | .barline => .node "Barline" []
  | .unit n dotted => .node "BeatDuration" [("duration", .number n), ("dotted", .flag dotted)]
  | .keySignature sign count =>
    .node "KeySignature" [("accidental", Tree.optional Tree.text sign), ("count", .number count)]
  | .pitch letter accidental shifts =>
    .node "Pitch"
      [("note", .text letter), ("accidental", Tree.optional Tree.text accidental),
       ("octave_shifts", .text shifts)]
  | .syllable value => .node "Syllable" [("value", .text value)]
  | .special value => .node "Special" [("value", .text value)]
  | .list items => .list (toTrees items)
  | .text value => .text value
  | .number value => .number value
  | .flag value => .flag value
  | .nothing => .nothing

/-- Nodes as plain trees. -/
def toTrees : List Node → List Tree
  | [] => []
  | n :: rest => toTree n :: toTrees rest

end

/-- A node on one line. -/
def describe (n : Node) : String :=
  n.toTree.describe

/-- The text that a score writes for a node, for nodes that are one word. -/
def wordText? : Node → Option String
  | .unit n dotted => some (UnitMark.text ⟨n, dotted⟩)
  | .keySignature sign count => some (KeySignature.text ⟨sign.getD "", count⟩)
  | .pitch letter accidental shifts => some (shifts ++ accidental.getD "" ++ letter)
  | _ => none

-- ========================================================== checking

/-- A segment of a beat in the numbered block. -/
def segment (block : Nat) : Node → Except Error Segment
  | .syllable value => .ok (.syllable value)
  | .special value =>
    match Marker.all.find? (·.text == value) with
    | some m => .ok (.marker m)
    | none => .error (.straySegment (Node.special value).describe block)
  | n => .error (.straySegment n.describe block)

/-- An item of a lyric line. -/
def lyricItem (block : Nat) : Node → Except Error LyricItem
  | .barline => .ok .barline
  | .unit n dotted => .ok (.unit ⟨n, dotted⟩)
  | .beat content duration => do
    let segments ← content.mapM (segment block)
    return .beat ⟨segments, duration⟩
  | n => .error (.strayLyric n.describe block)

/-- An item of a pitch line. -/
def pitchItem (block : Nat) : Node → Except Error PitchItem
  | .barline => .ok .barline
  | .keySignature sign count => .ok (.key ⟨sign.getD "", count⟩)
  | .pitch letter symbol shifts => do
    let accidental ← Accidental.ofSymbol (symbol.getD "")
    return .pitch ⟨letter, accidental, shifts⟩
  | n => .error (.strayPitch n.describe block)

/-- The opening of a pitch line: nothing, a key signature, or any other node that is one word. -/
def opening : Node → Except Error (Option Opening)
  | .nothing => .ok none
  | .keySignature sign count => .ok (some (.key ⟨sign.getD "", count⟩))
  | n =>
    match n.wordText? with
    | some w => .ok (some (.word w))
    | none => .error (.strayPart n.typeName)

/-- A pitch line. -/
def pitchLineOf (block : Nat) : Node → Except Error PitchLine
  | .pitchLine key elements => do
    let first ← opening key
    let items ← elements.mapM (pitchItem block)
    return ⟨first, items⟩
  | n => .error (.strayPart n.typeName)

/-- The block with the given number. -/
def blockOf (number : Nat) : Node → Except Error Block
  | .block lyrics pitches counter => do
    let items ← lyrics.mapM (lyricItem number)
    let line ← pitchLineOf number pitches
    return ⟨items, line, counter⟩
  | n => .error (.notABlock n.typeName)

/-- The score that a list of block nodes holds. -/
def scoreOf (blocks : List Node) (title : String) : Except Error Score := do
  let checked ← (blocks.zipIdx 1).mapM fun b => blockOf b.2 b.1
  return ⟨checked, title⟩

end Node

/-- The score that a tree holds. -/
def Node.toScore : Node → Except Error Score
  | .score blocks title => scoreOf blocks title
  | n => .error (.notAScore n.typeName)

end LyricScore
