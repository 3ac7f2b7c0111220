/-
Scores as plain trees, for showing them. A tree is made of named nodes with named fields, lists
and leaves. It is shown on one line in messages and laid out as JSON for other programs.
-/
import LyricScore.Score.Basic

namespace LyricScore

open Text

/-- A plain tree. -/
inductive Tree where
  | node (name : String) (fields : List (String × Tree))
  | list (items : List Tree)
  | text (value : String)
  | number (value : Int)
  | flag (value : Bool)
  | nothing

namespace Tree

-- ======================================================= on one line

/-- Items on one line between round brackets; a single one keeps its comma. -/
def bracketed : List String → String
  | [item] => "(" ++ item ++ ",)"
  | items => "(" ++ ", ".intercalate items ++ ")"

mutual

/-- A tree on one line. -/
def describe : Tree → String
  | .node name fields => name ++ "(" ++ ", ".intercalate (describeFields fields) ++ ")"
  | .list items => bracketed (describeItems items)
  | .text value => quote value
  | .number value => decimal value
  | .flag value => if value then "True" else "False"
  | .nothing => "None"

/-- The items of a list, each on one line. -/
def describeItems : List Tree → List String
  | [] => []
  | t :: rest => describe t :: describeItems rest

/-- The fields of a node, each on one line. -/
def describeFields : List (String × Tree) → List String
  | [] => []
  | (name, t) :: rest => (name ++ "=" ++ describe t) :: describeFields rest

end

-- =========================================================== as JSON

/-- One unit of a JSON escape. -/
def unitEscape (n : Nat) : List Char :=
  backslash :: 'u' :: hex 4 n

/-- A character in a JSON string. All but printable ASCII is escaped, and characters beyond
the first plane as two surrogates. -/
def jsonChar (c : Char) : List Char :=
  let n := c.toNat
  if c = doubleMark ∨ c = backslash then [backslash, c]
  else if c = '\n' then [backslash, 'n']
  else if c = '\r' then [backslash, 'r']
  else if c = '\t' then [backslash, 't']
  else if n = 8 then [backslash, 'b']
  else if n = 12 then [backslash, 'f']
  else if 32 ≤ n ∧ n < 127 then [c]
  else if n < 0x10000 then unitEscape n
  else unitEscape (0xD800 + (n - 0x10000) / 0x400) ++ unitEscape (0xDC00 + (n - 0x10000) % 0x400)

/-- A JSON string. -/
def jsonText (s : String) : String :=
  String.ofList (doubleMark :: s.toList.flatMap jsonChar ++ [doubleMark])

/-- The start of a line that lies `depth` levels deep. -/
def newLine (depth : Nat) : String :=
  String.ofList ('\n' :: List.replicate (2 * depth) ' ')

/-- Entries on lines of their own between two brackets, or the brackets alone. -/
def jsonBlock (opening closing : String) (depth : Nat) (entries : List String) : String :=
  if entries.isEmpty then opening ++ closing
  else
    opening ++ newLine (depth + 1) ++ ("," ++ newLine (depth + 1)).intercalate entries
      ++ newLine depth ++ closing

/-- A member of a JSON object. -/
def jsonMember (name value : String) : String :=
  jsonText name ++ ": " ++ value

mutual

/-- A tree as JSON, `depth` levels deep. A node is an object that tells its type first. -/
def jsonAt (depth : Nat) : Tree → String
  | .node name fields =>
    jsonBlock "\x7b" "\x7d" depth
      (jsonMember "type" (jsonText name) :: jsonFields (depth + 1) fields)
  | .list items => jsonBlock "[" "]" depth (jsonItems (depth + 1) items)
  | .text value => jsonText value
  | .number value => decimal value
  | .flag value => if value then "true" else "false"
  | .nothing => "null"

/-- The items of a list as JSON. -/
def jsonItems (depth : Nat) : List Tree → List String
  | [] => []
  | t :: rest => jsonAt depth t :: jsonItems depth rest

/-- The fields of a node as JSON. -/
def jsonFields (depth : Nat) : List (String × Tree) → List String
  | [] => []
  | (name, t) :: rest => jsonMember name (jsonAt depth t) :: jsonFields depth rest

end

/-- A tree as JSON. -/
def json (t : Tree) : String :=
  jsonAt 0 t

/-- A leaf that may be missing. -/
def optional {α : Type} (leaf : α → Tree) : Option α → Tree
  | some a => leaf a
  | none => .nothing

/-- A text leaf that is missing when the text is empty. -/
def textOrNothing (s : String) : Tree :=
  if s = "" then .nothing else .text s

end Tree

-- ============================================================ scores

/-- A segment as a tree. -/
def Segment.toTree : Segment → Tree
  | .syllable text => .node "Syllable" [("value", .text text)]
  | .marker m => .node "Special" [("value", .text m.text)]

/-- A lyric item as a tree. -/
def LyricItem.toTree : LyricItem → Tree
  | .beat b =>
    .node "BeatTuple"
      [("content", .list (b.segments.map Segment.toTree)), ("duration", .number b.duration)]
  | .barline => .node "Barline" []
  | .unit m => .node "BeatDuration" [("duration", .number m.number), ("dotted", .flag m.dotted)]

/-- A key signature as a tree. -/
def KeySignature.toTree (k : KeySignature) : Tree :=
  .node "KeySignature" [("accidental", Tree.textOrNothing k.sign), ("count", .number k.count)]

/-- An opening as a tree. -/
def Opening.toTree : Opening → Tree
  | .key k => k.toTree
  | .word text => .text text

/-- A pitch item as a tree. -/
def PitchItem.toTree : PitchItem → Tree
  | .pitch p =>
    .node "Pitch"
      [("note", .text p.letter), ("accidental", Tree.textOrNothing p.accidental.symbol),
       ("octave_shifts", .text p.shifts)]
  | .barline => .node "Barline" []
  | .key k => k.toTree

/-- A pitch line as a tree. -/
def PitchLine.toTree (l : PitchLine) : Tree :=
  .node "PitchLine"
    [("key_signature", Tree.optional Opening.toTree l.opening),
     ("elements", .list (l.items.map PitchItem.toTree))]

/-- A block as a tree. -/
def Block.toTree (b : Block) : Tree :=
  .node "Block"
    [("lyrics", .list (b.lyrics.map LyricItem.toTree)), ("pitches", b.pitches.toTree),
     ("counter", Tree.optional Tree.number b.counter)]

/-- A score as a tree. -/
def Score.toTree (s : Score) : Tree :=
  .node "Score" [("blocks", .list (s.blocks.map Block.toTree)), ("title", .text s.title)]

end LyricScore
