/-
Paths of output files. Without a path of its own an output stands beside its source, under the
same name with another suffix.
-/
import LyricScore.Text.Blank

namespace LyricScore.Path

open Text

/-- Whether a text cannot be a path, because a null character would cut it off. -/
def hasNull (path : String) : Bool :=
  path.toList.contains (Char.ofNat 0)

/-- The steps of a path. Strokes in a row count as one. -/
def steps (path : List Char) : List (List Char) :=
  partsBetween (· == '/') path

/-- A name without its last suffix. A point at either end of a name starts no suffix. -/
def stem (name : List Char) : List Char :=
  let suffix := (name.reverse.takeWhile (· != '.')).length
  if name.contains '.' ∧ suffix ≠ 0 ∧ suffix + 1 < name.length then
    name.take (name.length - suffix - 1)
  else name

/-- A path with another suffix. Steps that stay in place are left out. -/
def withSuffix (path suffix : String) : String :=
  let parts := (steps path.toList).filter (· != ['.'])
  let name := stem (parts.getLast?.getD []) ++ suffix.toList
  let opening := if path.toList.head? = some '/' then ['/'] else []
  String.ofList (opening ++ joinWith ['/'] (parts.dropLast ++ [name]))

end LyricScore.Path
