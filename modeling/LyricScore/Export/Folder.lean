/-
A folder of files as plain data, for work that is done in memory. Files are named by their path
from the folder; a path that is part of a file's name is a folder in it.

A path is walked step by step. Every step but the last must lead into a folder, also the ones
that stay in place or go up again; the last one names the file. Nothing is known of the folders
above but that they are there and can take files.
-/
import LyricScore.Export.Path
import LyricScore.Export.Work

namespace LyricScore

open Text

/-- The files of a folder, by name. -/
abbrev Folder := List (String × List UInt8)

/-- Where a walk stands: in the folder or one within it, or above it. -/
inductive Spot where
  | inside (steps : List (List Char))
  | above
  deriving DecidableEq

/-- What stands in the way of a path. -/
inductive Obstacle where
  /-- A step into a folder that is not there. -/
  | missing
  /-- A step into a file. -/
  | file
  /-- A name, or the whole path, that is too long. -/
  | length
  deriving DecidableEq

/-- What a path leads to. -/
inductive Place where
  | file (name : String) (bytes : List UInt8)
  | folder
  /-- No file, but a folder that can take one of this name. -/
  | free (name : String)
  /-- A file outside of the folder. -/
  | outside
  deriving DecidableEq

namespace Folder

-- ============================================================= names

/-- The most bytes that a name may have. -/
def longestName : Nat := 255

/-- The most bytes that a path may have. -/
def longestPath : Nat := 4095

/-- Whether a name is too long. -/
def isTooLong (name : List Char) : Bool :=
  longestName < (String.ofList name).utf8ByteSize

/-- The name that steps give. -/
def nameOf (steps : List (List Char)) : String :=
  String.ofList (joinWith ['/'] steps)

/-- The file of a name. -/
def file? (f : Folder) (name : String) : Option (List UInt8) :=
  f.lookup name

/-- Whether steps lead to a folder: some file's name goes on behind them. -/
def isFolder (f : Folder) (steps : List (List Char)) : Bool :=
  f.any fun file => ((nameOf steps).toList ++ ['/']).isPrefixOf file.1.toList

-- ============================================================= walks

/-- Whether a step stays in place or goes up, and names nothing. -/
def isDots (step : List Char) : Bool :=
  step == ['.'] || step == ['.', '.']

/-- The spot behind dots. -/
def moveBy (spot : Spot) (dots : List Char) : Spot :=
  if dots = ['.'] then spot
  else
    match spot with
    | .inside (step :: steps) => .inside (step :: steps).dropLast
    | _ => .above

/-- The spot behind a step that must lead into a folder. -/
def enter (f : Folder) (spot : Spot) (step : List Char) : Except Obstacle Spot :=
  if isDots step then .ok (moveBy spot step)
  else if isTooLong step then .error .length
  else
    match spot with
    | .above => .error .missing
    | .inside steps =>
      let steps := steps ++ [step]
      if f.isFolder steps then .ok (.inside steps)
      else if (f.file? (nameOf steps)).isSome then .error .file
      else .error .missing

/-- The spot behind steps that must all lead into folders. -/
def walk (f : Folder) (spot : Spot) : List (List Char) → Except Obstacle Spot
  | [] => .ok spot
  | step :: rest =>
    match f.enter spot step with
    | .error e => .error e
    | .ok next => f.walk next rest

/-- What the last step of a path leads to. -/
def arrive (f : Folder) (spot : Spot) (step : List Char) : Except Obstacle Place :=
  if isDots step then .ok .folder
  else if isTooLong step then .error .length
  else
    match spot with
    | .above => .ok .outside
    | .inside steps =>
      let steps := steps ++ [step]
      if f.isFolder steps then .ok .folder
      else
        match f.file? (nameOf steps) with
        | some bytes => .ok (.file (nameOf steps) bytes)
        | none => .ok (.free (nameOf steps))

/-- What a path leads to. A stroke at its end asks for a folder, whatever is there. -/
def place (f : Folder) (path : String) : Except Obstacle Place :=
  let cs := path.toList
  let steps := Path.steps cs
  if longestPath < path.utf8ByteSize then .error .length
  else
    match steps.getLast? with
    | none => if cs.isEmpty then .error .missing else .ok .folder
    | some last =>
      match f.walk (if cs.head? = some '/' then .above else .inside []) steps.dropLast with
      | .error e => .error e
      | .ok spot => if cs.getLast? = some '/' then .ok .folder else f.arrive spot last

-- ============================================================= files

/-- The bytes of a file. -/
def read? (f : Folder) (path : String) : Option (List UInt8) :=
  match f.place path with
  | .ok (.file _ bytes) => some bytes
  | _ => none

/-- Why a file cannot be opened for writing, if it cannot. -/
def refusal? (f : Folder) (path : String) : Option Error :=
  if Path.hasNull path then some .nullInPath
  else
    match f.place path with
    | .ok .folder => some (.isFolder path)
    | .ok _ => none
    | .error .missing => some (.noSuchFile path)
    | .error .file => some (.notAFolder path)
    | .error .length => some (.nameTooLong path)

/-- The file that writing leaves, under its name, if it is new or changed. -/
def changed? (f : Folder) (path : String) (bytes : List UInt8) : Option (String × List UInt8) :=
  match f.place path with
  | .ok (.file name old) => if old = bytes then none else some (name, bytes)
  | .ok (.free name) => some (name, bytes)
  | _ => none

/-- The result of work in a folder, and the file that it changes. -/
def settle {α : Type} (f : Folder) (w : Work α) : α × Option (String × List UInt8) :=
  let (result, written) := w.settle f.refusal?
  (result, written.bind fun file => f.changed? file.1 file.2)

end Folder

end LyricScore
