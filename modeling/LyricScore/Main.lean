/-
The command line. It reads the file a command asks for, performs the command, writes the file
that the command leaves, and prints.
-/
import LyricScore.Command.Perform

namespace LyricScore.Main

/-- The engraver of a program that has none: it takes no tune. -/
def noEngraver : Engraver :=
  { loads := false, pages := 0, manner := .named, draw := fun _ => "" }

/-- All bytes of a stream, behind those already read. -/
partial def readAll (stream : IO.FS.Stream) (before : ByteArray) : IO ByteArray := do
  let chunk ← stream.read 65536
  if chunk.isEmpty then return before else readAll stream (before ++ chunk)

/-- The bytes of the file that a command reads, or none if it cannot be read. -/
def readSource (c : Command) : IO (Option (List UInt8)) := do
  if c.readsInput then
    let stdin ← IO.getStdin
    let bytes ← readAll stdin .empty
    return some bytes.toList
  else
    match c.file? with
    | none => return some []
    | some path =>
      try
        let bytes ← IO.FS.readBinFile path
        return some bytes.toList
      catch _ => return none

/-- The complaint about a file that cannot be opened, by the code that the system gives. -/
def complaint (path : String) : IO.Error → Error
  | .inappropriateType _ code _ => if code = 20 then .notAFolder path else .isFolder path
  | .invalidArgument _ code _ => if code = 36 then .nameTooLong path else .noSuchFile path
  | _ => .noSuchFile path

/-- Write a file; the complaint tells that it cannot be opened. -/
def writeFile (path : String) (bytes : List UInt8) : IO (Option Error) := do
  if Path.hasNull path then return some .nullInPath
  try
    IO.FS.writeBinFile path (ByteArray.mk bytes.toArray)
    return none
  catch e => return some (complaint path e)

/-- Do the work of a command. -/
def settle : Work Ending → IO Ending
  | .done e => return e
  | .write path bytes after => return after (← writeFile path bytes)

/-- Perform a command line. -/
def runCommand (args : List String) : IO UInt32 := do
  match Command.parse args with
  | .error .usage =>
    IO.eprintln ("\n".intercalate Command.usage)
    return 2
  | .error (.broken fault) =>
    IO.eprintln fault.message
    return 1
  | .ok c =>
    match ← readSource c with
    | none =>
      IO.eprintln ("\n".intercalate Command.usage)
      return 2
    | some bytes =>
      let e ← settle (c.perform noEngraver bytes)
      IO.print e.output
      e.log.forM fun l => IO.eprintln l.text
      IO.eprint e.errors
      match e.unhandled with
      | some fault => IO.eprintln fault.message
      | none => pure ()
      return e.exit.toUInt32

end LyricScore.Main

/-- The program. -/
def main (args : List String) : IO UInt32 :=
  LyricScore.Main.runCommand args
