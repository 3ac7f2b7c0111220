/-
Meters for the rows. Every measure of a block is counted, and its meter is written on its rows
that take time. Where the unit or the meter changes from one measure to the next, the first row
of the measure announces it; the first meter of all goes into the heading.
-/
import LyricScore.Table.Group
import LyricScore.Table.Heading

namespace LyricScore

open Text

/-- A measure with its account: the beats counted and the beats after the pickup's counter. -/
structure Measure where
  key : MeasureKey
  first : PlacedRow
  others : List PlacedRow
  unit : Rat
  counted : Int
  beats : Int
  meter : String
  deriving DecidableEq

namespace Measure

/-- The rows of a measure. -/
def members (m : Measure) : List PlacedRow :=
  m.first :: m.others

/-- The places of a measure's rows. -/
def indices (m : Measure) : List Nat :=
  m.members.map (·.2)

/-- The beats of some rows: every row in the compound unit, and else the durations of the rows
that open a beat, without a fraction. -/
def countBeats (unit : Rat) (rows : List Row) : Int :=
  if unit = compoundUnit then rows.length
  else
    let total :=
      sumTimes (rows.filterMap fun r => if r.subdivision = some 1 then r.duration else none)
    total.num.tdiv total.den

/-- The measure of a key and its rows, if there are any. -/
def ofMembers? (key : MeasureKey) : List PlacedRow → Option Measure
  | [] => none
  | first :: others =>
    let unit := first.1.effectiveUnit
    let counted := countBeats unit ((first :: others).map (·.1))
    let beats := if key.measure = 0 then pickupBeats counted first.1.pickup else counted
    some ⟨key, first, others, unit, counted, beats, meterText beats unit.den⟩

/-- What the first row of a measure announces after another measure. -/
def changes (previous m : Measure) : List String :=
  (if m.unit = previous.unit then [] else ["[L:" ++ unitText m.unit ++ "]"])
    ++ (if m.meter = previous.meter then [] else ["[M:" ++ m.meter ++ "]"])

/-- Measures with what each announces; the first one announces nothing. -/
def withChanges : Option Measure → List Measure → List (Measure × List String)
  | _, [] => []
  | none, m :: rest => (m, []) :: withChanges (some m) rest
  | some previous, m :: rest => (m, changes previous m) :: withChanges (some m) rest

/-- Whether the numbers that measures and their announcements write are short enough. -/
def canWrite : Option Measure → List Measure → Bool
  | _, [] => true
  | none, m :: rest => fits m.beats && canWrite (some m) rest
  | some previous, m :: rest =>
    fits m.beats && (m.unit == previous.unit || ratFits m.unit) && canWrite (some m) rest

/-- A row of a measure with its meter, and the announcement on the first row. -/
def mark (m : Measure × List String) (r : Row) (index : Nat) : Row :=
  let r := { r with meter := some m.1.meter }
  if index = m.1.first.2 ∧ m.2 ≠ [] then
    { r with directive := " ".intercalate ((r.directive :: m.2).filter (· != "")) }
  else r

end Measure

namespace Table

/-- The row at a place; places below zero count from the end. -/
def rowAt (t : Table) (index : Int) : Except Error Row :=
  let place := if index < 0 then index + t.length else index
  match if place < 0 then none else t[place.toNat]? with
  | some r => .ok r
  | none => .error (.noSuchRow index)

/-- The beats of the rows at some places. In the compound unit the rows are not looked at. -/
def countBeatsAt (t : Table) (unit : Rat) (indices : List Int) : Except Error Int :=
  if unit = compoundUnit then .ok indices.length
  else (indices.mapM t.rowAt).map (Measure.countBeats unit)

/-- The measures of a table, in document order. -/
def measures (t : Table) : List Measure :=
  (classes (fun r : PlacedRow => r.1.measureKey?) t.zipIdx).filterMap fun c =>
    Measure.ofMembers? c.1 c.2

/-- The measures of a table, unless a number is too long to be written. -/
def measureTable (t : Table) : Except Error (List Measure) :=
  if t.measures.all fun m => fits m.beats then .ok t.measures else .error .integerTooLong

/-- The measures with what each announces. -/
def announced (t : Table) : List (Measure × List String) :=
  Measure.withChanges none t.measures

/-- The meter for the heading. -/
def headingMeter (t : Table) : String :=
  match t.measures with
  | [] => defaultMeter
  | m :: _ => m.meter

/-- A table with its meters. -/
def withMetersText (t : Table) : Table :=
  let ms := t.announced
  Table.setField "M" t.headingMeter <| t.zipIdx.map fun p =>
    match p.1.measureKey?.bind fun key => ms.find? fun m => decide (m.1.key = key) with
    | none => p.1
    | some m => Measure.mark m p.1 p.2

/-- A table with its meters, unless a number is too long to be written. -/
def withMeters (t : Table) : Except Error Table :=
  if Measure.canWrite none t.measures then .ok t.withMetersText else .error .integerTooLong

end Table

end LyricScore
