/-
The heading of a tune: five fields in front of the music. They are rows of the table like all
others, and later steps fill in key, meter and unit.
-/
import LyricScore.Key
import LyricScore.Table.Row

namespace LyricScore

/-- The fields of a heading with the values they start with. -/
def headingFields (title : String) : List (String × String) :=
  [("X", "1"), ("T", title), ("K", defaultKey), ("M", ""), ("L", "1/4")]

/-- The rows of a heading. -/
def headingRows (title : String) : List Row :=
  (headingFields title).map fun field =>
    { source := .header, block := 0, kind := .heading, raw := field.1, draftText := some field.2 }

namespace Table

/-- A table with a heading in front. -/
def withHeading (title : String) (t : Table) : Table :=
  headingRows title ++ t

/-- A table with a field of its heading set. -/
def setField (name value : String) (t : Table) : Table :=
  t.map fun r =>
    if r.source = .header ∧ r.raw = name then { r with draftText := some value } else r

/-- The value of a field of the heading. -/
def field? (t : Table) (name : String) : Option String :=
  (t.find? fun r => decide (r.source = .header ∧ r.raw = name)).map (·.text)

end Table

end LyricScore
