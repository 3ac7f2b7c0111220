/-
Meters. A measure's meter names its number of beats over 8 when its unit is an eighth, and over
4 in every other unit. A pickup measure counts as if it started on beat 1 and its first note
stood on the beat that its counter gives.
-/
import LyricScore.Text.Numeral

namespace LyricScore

open Text

/-- The meter of a score without measures, and of a beat that has none. -/
def defaultMeter : String := "4/4"

/-- The meter of a number of beats in a unit with the given denominator. -/
def meterText (beats : Int) (unitDenominator : Int) : String :=
  decimal beats ++ (if unitDenominator = 8 then "/8" else "/4")

/-- The beats of a pickup measure whose first beat is counted as `counter`. -/
def pickupBeats (beats : Int) : Option Int → Int
  | none => beats
  | some counter => counter + (beats - 1)

/-- The text of a meter after its first stroke. -/
def meterDenominator (meter : String) : String :=
  String.ofList ((meter.toList.dropWhile (· != '/')).drop 1)

/-- The number under the stroke of a meter; a meter without one counts quarters. -/
def meterValue (meter : String) : Except Error Int :=
  if meterDenominator meter = "" then .ok 4 else readInteger (meterDenominator meter)

/-- Whether a note from `start` lasting `duration` sounds across a beat line. Times are in the
meter's note value from the start of the measure. Meters over 8 have a line every three of
them, others at every one, and 4/4 also has one in its middle. -/
def crossesBeatLine (start duration : Rat) (meter : String) : Bool :=
  let step : Rat := if meterDenominator meter = "8" then 3 else 1
  let stop := start + duration
  let nextLine := (((start / step).floor : Rat) + 1) * step
  decide (nextLine < stop) || (meter == defaultMeter && decide (start < 2) && decide (2 < stop))

end LyricScore
