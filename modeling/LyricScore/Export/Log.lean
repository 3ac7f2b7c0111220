/-
The log of a run: which stage runs, what it warned about, and the figures it kept.
-/
import LyricScore.Pipeline.Run

namespace LyricScore

/-- How much a log line matters. -/
inductive Level where
  | debug
  | info
  | warning
  deriving DecidableEq

/-- A level as logs write it. -/
def Level.name : Level → String
  | .debug => "DEBUG"
  | .info => "INFO"
  | .warning => "WARNING"

/-- A line of the log, with the part of the program that wrote it. -/
structure LogLine where
  level : Level
  writer : String
  message : String
  deriving DecidableEq

namespace LogLine

/-- A line as logs write it. -/
def text (l : LogLine) : String :=
  l.level.name ++ " minifqs." ++ l.writer ++ ": " ++ l.message

/-- The announcement of a stage. -/
def running (name : String) : LogLine :=
  ⟨.debug, "pipeline", "running stage " ++ name⟩

/-- A warning. -/
def ofWarning (w : Warning) : LogLine :=
  ⟨.warning, "stage", w.message⟩

/-- The figures of a stage. -/
def ofFigures (name : String) (figures : Figures) : LogLine :=
  ⟨.debug, "stage", name ++ ": " ++ describeFigures figures⟩

/-- The report of a written file. -/
def wrote (path format : String) : LogLine :=
  ⟨.info, "exporter", "wrote " ++ path ++ " (" ++ format ++ ")"⟩

end LogLine

/-- The log of a step. Reading the input is not logged. -/
def Step.log (s : Step) : List LogLine :=
  if s.name = readingName then []
  else
    .running s.name :: s.warnings.map .ofWarning ++ [.ofFigures s.name s.figures]

/-- The log of a run. -/
def Trace.log (t : Trace) : List LogLine :=
  t.steps.flatMap Step.log
    ++ ((t.failure.bind (·.stage)).map fun s => LogLine.running s.name).toList

/-- The lines that are shown; the details only on demand. -/
def shownLog (verbose : Bool) (log : List LogLine) : List LogLine :=
  log.filter fun l => verbose || l.level != .debug

end LyricScore
