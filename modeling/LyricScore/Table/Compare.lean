/-
Comparing two tables, cell by cell.
-/
import LyricScore.Table.Column

namespace LyricScore

open Text

/-- A cell in which two tables differ. -/
structure Difference where
  index : Nat
  column : Column
  left : Cell
  right : Cell

/-- A difference in words. -/
def Difference.message (d : Difference) : String :=
  "row " ++ decimal d.index ++ ": " ++ d.column.name ++ " " ++ d.left.describe ++ " != "
    ++ d.right.describe

/-- The differences of two records in the given columns. -/
def recordDifferences (columns : List Column) (index : Nat) (left right : Record) :
    List Difference :=
  (columns.filter fun c => decide (left c ≠ right c)).map fun c => ⟨index, c, left c, right c⟩

/-- Every cell in which the rows of two tables differ, except in the ignored columns. Rows are
compared in pairs, as far as both tables go. -/
def cellDifferences (ignored : List String) (left right : List Record) : List Difference :=
  let columns := Column.all.filter fun c => !ignored.contains c.name
  (left.zip right).zipIdx.flatMap fun p => recordDifferences columns p.2 p.1.1 p.1.2

/-- Every difference of two tables in words; a different number of rows comes first. -/
def tableDifferences (ignored : List String) (left right : List Record) :
    Except Error (List String) :=
  let cells := cellDifferences ignored left right
  let lengths :=
    if left.length = right.length then []
    else ["row count " ++ decimal left.length ++ " != " ++ decimal right.length]
  if cells.all fun d => d.left.canWrite && d.right.canWrite then
    .ok (lengths ++ cells.map Difference.message)
  else .error .integerTooLong

end LyricScore
