/-
Performing commands. A command gets the bytes of the file it reads and gives what it prints, how
it ends, its log, and the file it writes.
-/
import LyricScore.Command.Basic
import LyricScore.Command.Terminal
import LyricScore.Export.Exporter

namespace LyricScore

open Text

/-- How a command ends: its exit code, what it printed, its log, and a failure that nothing in
it handles. -/
structure Ending where
  exit : Nat := 0
  output : String := ""
  errors : String := ""
  log : List LogLine := []
  unhandled : Option Error := none

namespace Command

/-- The version of the program. -/
def versionText : String := "0.3.0"

/-- The exit code for faults of the input. -/
def inputFault : Nat := 1

/-- The exit code for faults of the run. -/
def runFault : Nat := 3

/-- An ending with a message about a failure. -/
def failing (e : Ending) (message : String) (code : Nat) : Ending :=
  { e with exit := code, errors := e.errors ++ Terminal.plain ("  ERROR: " ++ message) ++ "\n" }

/-- An ending with a failure that nothing handles. -/
def breaking (e : Ending) (fault : Error) : Ending :=
  { e with exit := 1, unhandled := some fault }

/-- An ending with more output. -/
def printing (e : Ending) (line : String) : Ending :=
  { e with output := e.output ++ Terminal.plain line ++ "\n" }

-- =========================================================== reading

/-- A text in which every line ends with a line feed. -/
def plainLines : List Char → List Char
  | [] => []
  | '\r' :: '\n' :: rest => '\n' :: plainLines rest
  | c :: rest => (if c = '\r' then '\n' else c) :: plainLines rest

/-- The text of a source file. -/
def sourceText (bytes : List UInt8) : Except Error String :=
  match String.fromUTF8? (ByteArray.mk bytes.toArray) with
  | some text => .ok (String.ofList (plainLines text.toList))
  | none => .error .notUtf8

/-- The ending of a failed run. -/
def runFailed (e : Ending) (fault : Error) : Ending :=
  match fault.family with
  | .text => failing e ("Could not read score — " ++ fault.message) inputFault
  | .shape => failing e ("Pipeline failed — " ++ fault.message) runFault
  | _ => breaking e fault

-- ============================================================ convert

/-- What `convert` gives: the tree of the score, a table, or the tune. -/
def converted (r : Result) : Except Error String :=
  if r.stoppedAt = readingName then
    r.piece.score.map fun score => score.toTree.json
  else if r.stoppedAt = Stage.assembly.name then .ok (r.tune ++ "\n")
  else r.table.dump

/-- The ending of `convert` when its file could not be written. -/
def convertFailed (e : Ending) (path : String) (fault : Error) : Ending :=
  match fault.family with
  | .file => failing e ("Could not write '" ++ path ++ "' — " ++ fault.message) inputFault
  | _ => breaking e fault

/-- Perform `convert` on a source text. -/
def performConvert (output : Option String) (options : Options) (verbose : Bool)
    (text : String) : Work Ending :=
  let t := trace (.text text) options
  let e : Ending := { log := shownLog verbose t.log }
  match t.result with
  | .error fault => .done (runFailed e fault)
  | .ok r =>
    match converted r with
    | .error fault => .done (breaking e fault)
    | .ok content =>
      match output with
      | none => .done { e with output := Terminal.plain content }
      | some path =>
        .write path (Exporter.textBytes content) fun
          | some fault => convertFailed e path fault
          | none => { e with errors := Terminal.plain ("Wrote '" ++ path ++ "'.") ++ "\n" }

-- ======================================================= sheet, midi

/-- The ending of a file that could not be written. -/
def writeFailed (e : Ending) (fault : Error) : Ending :=
  match fault.family with
  | .file => failing e ("Could not write output file — " ++ fault.message) inputFault
  | .text | .value => failing e ("Could not render score — " ++ fault.message) inputFault
  | _ => breaking e fault

/-- Export a source text, behind what `e` printed. Once the text is converted `between` is
printed, and `closing` at the end. -/
def performExport (exporter : Exporter) (engraver : Engraver) (e : Ending)
    (between closing : List String) (path text : String) : Work Ending :=
  let t := exporter.trace text
  let e := { e with log := shownLog false t.log }
  match t.result with
  | .error fault => .done (runFailed e fault)
  | .ok r =>
    let e := between.foldl printing e
    (exporter.write engraver r path).map fun
      | .error fault => writeFailed e fault
      | .ok line => closing.foldl printing { e with log := e.log ++ [line] }

/-- Perform `sheet` on a source text. -/
def performSheet (engraver : Engraver) (e : Ending) (title : Option String)
    (path text : String) : Work Ending :=
  performExport { format := .html, title := title } engraver e
    ["[2/2] Rendering notation to SVG with verovio..."]
    ["", "Done!  Open '" ++ path ++ "' in any browser. Use Print → Save as PDF."] path text

/-- Perform `midi` on a source text. -/
def performMidi (engraver : Engraver) (e : Ending) (tempo : Int) (path text : String) :
    Work Ending :=
  performExport { format := .midi, tempo := tempo } engraver e []
    ["Done!  Open '" ++ path ++ "' in GarageBand, MuseScore, or any MIDI player."] path text

-- ========================================================== commands

/-- The program's name and version, and a line about the score. -/
def greeting (line : String) : Ending :=
  printing (printing {} ("minifqs v" ++ versionText)) line

/-- What a command prints before it reads its source. -/
def beforeReading : Command → Ending
  | .sheet file .. =>
    printing (greeting ("  Score  : " ++ file)) "[1/2] Converting to ABC..."
  | .midi file _ tempo =>
    greeting ("  Score  : " ++ file ++ "  |  Tempo: " ++ decimal tempo ++ " BPM")
  | _ => {}

/-- A name and a description in two columns. -/
def stageLine (stage : String × String) : String :=
  stage.1 ++ String.ofList (List.replicate (10 - stage.1.length) ' ') ++ " " ++ stage.2

/-- How to call the program. -/
def usage : List String :=
  ["Usage: minifqs convert [SOURCE] [-o PATH] [--stop STAGE] [--title TEXT] [--no-optimize] [-v]",
   "       minifqs stages",
   "       minifqs sheet FILE [-o PATH] [--title TEXT]",
   "       minifqs midi FILE [-o PATH] [--tempo N]"]

/-- Perform a command on the text of the file that it reads. -/
def performOn (engraver : Engraver) (c : Command) (text : String) : Work Ending :=
  match c with
  | .version => .done (printing {} ("minifqs, version " ++ versionText))
  | .help => .done (usage.foldl printing {})
  | .stages => .done ((stepDescriptions.map stageLine).foldl printing {})
  | .convert _ output options verbose => performConvert output options verbose text
  | .sheet file output title =>
    performSheet engraver c.beforeReading title
      (output.getD (Path.withSuffix file Format.html.suffix)) text
  | .midi file output tempo =>
    performMidi engraver c.beforeReading tempo
      (output.getD (Path.withSuffix file Format.midi.suffix)) text

/-- Perform a command on the bytes of the file that it reads; a command that reads none gets
none. -/
def perform (engraver : Engraver) (c : Command) (bytes : List UInt8) : Work Ending :=
  match sourceText bytes with
  | .error fault => .done (breaking c.beforeReading fault)
  | .ok text => performOn engraver c text

end Command

end LyricScore
