/-
Groups of rows. Rows that share a beat, a measure or a block form groups. Groups come in the
order of their first row, and a group's rows in document order, each with its place in the
table.
-/
import LyricScore.Table.Row

namespace LyricScore

-- =========================================================== classes

/-- A list without repetitions: each element at its first place. -/
def distinct {α : Type} [DecidableEq α] : List α → List α
  | [] => []
  | a :: rest => a :: (distinct rest).filter (fun b => decide (b ≠ a))

/-- The elements of a list that have a key, with their keys. -/
def keyed {α κ : Type} (key : α → Option κ) (l : List α) : List (κ × α) :=
  l.filterMap fun a => (key a).map fun k => (k, a)

/-- The elements of a list by their key, for those that have one. Keys come in the order of
their first element. -/
def classes {α κ : Type} [DecidableEq κ] (key : α → Option κ) (l : List α) :
    List (κ × List α) :=
  let pairs := keyed key l
  (distinct (pairs.map (·.1))).map fun k =>
    (k, (pairs.filter fun p => decide (p.1 = k)).map (·.2))

-- ============================================================= beats

/-- What the rows of one beat share. -/
structure BeatKey where
  block : Int
  measure : Int
  beat : Int
  deriving DecidableEq

/-- What the rows of one measure share. -/
structure MeasureKey where
  block : Int
  measure : Int
  deriving DecidableEq

/-- The beat of a row, for rows that take time and have a place. -/
def Row.beatKey? (r : Row) : Option BeatKey :=
  if r.isRhythm then
    match r.measure, r.beat with
    | some measure, some beat => some ⟨r.block, measure, beat⟩
    | _, _ => none
  else none

/-- The measure of a row, for rows that take time and have one. -/
def Row.measureKey? (r : Row) : Option MeasureKey :=
  if r.isRhythm then r.measure.map fun measure => ⟨r.block, measure⟩ else none

/-- The measure in which a beat lies. -/
def BeatKey.inMeasure (k : BeatKey) : MeasureKey :=
  ⟨k.block, k.measure⟩

/-- A row and its place in the table. -/
abbrev PlacedRow := Row × Nat

/-- The rows that share a beat; there is at least one. -/
structure BeatGroup where
  key : BeatKey
  first : PlacedRow
  others : List PlacedRow
  deriving DecidableEq

namespace BeatGroup

/-- The rows of a beat. -/
def members (g : BeatGroup) : List PlacedRow :=
  g.first :: g.others

/-- The places of a beat's rows. -/
def indices (g : BeatGroup) : List Nat :=
  g.members.map (·.2)

/-- How many rows share the beat. -/
def count (g : BeatGroup) : Nat :=
  g.others.length + 1

/-- The group of a key and its rows, if there are any. -/
def ofMembers? (key : BeatKey) : List PlacedRow → Option BeatGroup
  | [] => none
  | first :: others => some ⟨key, first, others⟩

end BeatGroup

namespace Table

/-- The beats of a table, in document order. -/
def beats (t : Table) : List BeatGroup :=
  (classes (fun r : PlacedRow => r.1.beatKey?) t.zipIdx).filterMap fun c =>
    BeatGroup.ofMembers? c.1 c.2

-- ============================================================ blocks

/-- The first row of a block that takes time. -/
def firstRhythm? (t : Table) (block : Int) : Option Row :=
  t.find? fun r => r.isRhythm && r.block == block

/-- Whether a block goes on with the note of the block before it: its first row that takes time
is a hold. -/
def opensWithHold (t : Table) (block : Int) : Bool :=
  match t.firstRhythm? block with
  | some r => r.kind.isHold
  | none => false

/-- The kind of the first row that takes time, block by block. -/
def firstRhythmKinds (t : Table) : List (Int × Kind) :=
  (distinct ((t.filter (·.isRhythm)).map (·.block))).filterMap fun block =>
    (t.firstRhythm? block).map fun r => (block, r.kind)

/-- The blocks of a table. -/
def blockNumbers (t : Table) : List Int :=
  distinct ((t.filter fun r => r.source != .header).map (·.block))

end Table

end LyricScore
