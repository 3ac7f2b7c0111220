/-
Exporting a score: a run for its tune and table, and a file in one of the formats.
-/
import LyricScore.Export.Format
import LyricScore.Export.Log
import LyricScore.Export.Work
import LyricScore.Midi.File
import LyricScore.Sheet.Engraver

namespace LyricScore

/-- How a score is exported. -/
structure Exporter where
  format : Format
  title : Option String := none
  tempo : Int := 100
  fold : Bool := true

/-- The contents of a file, and the fault that breaks off the writing, if there is one. -/
structure Rendering where
  bytes : List UInt8
  fault : Option Error := none

namespace Exporter

/-- The velocity of all notes. -/
def velocity : Int := 80

/-- The contents of a text file. -/
def textBytes (text : String) : List UInt8 :=
  text.toUTF8.toList

/-- The title of the exported score. -/
def titleOf (e : Exporter) (r : Result) : String :=
  e.title.getD r.piece.title

/-- The file for the result of a run. A MIDI file whose notes do not fit is broken off behind its
head. -/
def render (e : Exporter) (engraver : Engraver) (r : Result) : Except Error Rendering :=
  match e.format with
  | .abc => .ok { bytes := textBytes (Sheet.tuneFile r.tune) }
  | .html => (engraver.render (e.titleOf r) r.tune).2.map fun page => { bytes := textBytes page }
  | .midi => do
    let plan ← Midi.plan r.table e.tempo velocity (e.titleOf r)
    match plan.bytes with
    | .ok bytes => return { bytes := bytes }
    | .error fault => return { bytes := Midi.head, fault := some fault }

/-- The run of an exporter. -/
def trace (e : Exporter) (text : String) : Trace :=
  LyricScore.trace (.text text) { title := e.title, fold := e.fold }

/-- Write the result of a run to a file. The outcome is the log line of the written file. -/
def write (e : Exporter) (engraver : Engraver) (r : Result) (path : String) :
    Work (Except Error LogLine) :=
  match e.render engraver r with
  | .error fault => .done (.error fault)
  | .ok rendering =>
    .write path rendering.bytes fun refusal =>
      match refusal.or rendering.fault with
      | some fault => .error fault
      | none => .ok (.wrote path e.format.name)

/-- Export a score text to a file: the outcome, and the log. -/
def deliver (e : Exporter) (engraver : Engraver) (text path : String) :
    Work (Except Error Result × List LogLine) :=
  let t := e.trace text
  match t.result with
  | .error fault => .done (.error fault, t.log)
  | .ok r =>
    (e.write engraver r path).map fun
      | .error fault => (.error fault, t.log)
      | .ok line => (.ok r, t.log ++ [line])

end Exporter

end LyricScore
