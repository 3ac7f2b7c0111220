/-
Units for the rows. A unit mark holds from the start of the measure in which it stands: it is
declared at the first row of that measure that takes time, and from there it holds until the
next one. Of two marks in a measure the last counts. The heading gets the first unit in force.
-/
import LyricScore.Rhythm.Unit
import LyricScore.Table.Group
import LyricScore.Table.Heading
import LyricScore.Warning

namespace LyricScore

/-- A unit mark that was read: where it takes effect, if anywhere, its unit, and whether the mark
is a known one. -/
structure Declaration where
  block : Int
  raw : String
  target : Option Nat
  unit : Rat
  known : Bool
  deriving DecidableEq

namespace Units

/-- The place of the first row that takes time, among rows of a block that start at place
`index`; none if the measure or the block ends before. -/
def firstRhythm? (block : Int) (index : Nat) : List Row → Option Nat
  | [] => none
  | r :: rest =>
    if r.block ≠ block then none
    else if r.source ≠ .lyric then firstRhythm? block (index + 1) rest
    else if r.kind = .barline then none
    else if r.isRhythm then some index
    else firstRhythm? block (index + 1) rest

/-- The unit marks of placed rows, in order. The measure at hand started at place `start`, in
`block`. -/
def declarations (t : Table) (block : Option Int) (start : Nat) :
    List PlacedRow → Except Error (List Declaration)
  | [] => .ok []
  | (r, index) :: rest =>
    if r.source ≠ .lyric then declarations t block start rest
    else
      let start := if block = some r.block then start else index
      if r.kind = .barline then declarations t (some r.block) (index + 1) rest
      else if r.kind = .unit then
        match declaredUnit? r.raw with
        | .error e => .error e
        | .ok unit =>
          match declarations t (some r.block) start rest with
          | .error e => .error e
          | .ok more =>
            .ok (⟨r.block, r.raw, firstRhythm? r.block start (t.drop start),
              unit.getD defaultUnit, unit.isSome⟩ :: more)
      else declarations t (some r.block) start rest

/-- The unit declared at a place. -/
def declaredAt? (ds : List Declaration) (index : Nat) : Option Rat :=
  ((ds.filter fun d => decide (d.target = some index)).getLast?).map (·.unit)

/-- Rows with their units, from a unit in force on. -/
def spread (ds : List Declaration) (unit : Rat) : List PlacedRow → List Row
  | [] => []
  | (r, index) :: rest =>
    let declared := declaredAt? ds index
    let unit := declared.getD unit
    let r := { r with declared := declared.or r.declared }
    let r := if r.isRhythm then { r with unit := some unit } else r
    r :: spread ds unit rest

/-- The unit for the heading: that of the first row that takes time, or else the last one
declared. -/
def headingUnit (ds : List Declaration) (rows : List Row) : Rat :=
  match rows.find? (·.isRhythm) with
  | some r => r.unit.getD defaultUnit
  | none => (ds.getLast?.map (·.unit)).getD defaultUnit

/-- The warnings of a mark. -/
def warnings (d : Declaration) : List Warning :=
  (if d.known then [] else [.unknownUnit d.block d.raw])
    ++ (if d.target.isSome then [] else [.unitWithoutNotes d.block d.raw])

end Units

namespace Table

/-- The unit marks of a table. -/
def declarations (t : Table) : Except Error (List Declaration) :=
  Units.declarations t none 0 t.zipIdx

/-- A table with the units that its marks declare. -/
def withUnitsOf (t : Table) (ds : List Declaration) : Table :=
  let rows := Units.spread ds defaultUnit t.zipIdx
  Table.setField "L" (unitText (Units.headingUnit ds rows)) rows

/-- A table with its units. -/
def withUnits (t : Table) : Except Error Table :=
  t.declarations.map t.withUnitsOf

end Table

end LyricScore
