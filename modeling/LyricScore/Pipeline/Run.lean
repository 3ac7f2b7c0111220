/-
Runs: reading an input and putting it through the stages, up to the last one or the one asked
for. A run that fails keeps what it did before; its trace tells the steps and the failure.
-/
import LyricScore.Pipeline.Stage

namespace LyricScore

/-- What a run starts from: the text of a score, or a tree from outside. -/
inductive Input where
  | text (value : String)
  | tree (value : Node)

/-- The piece of a tree. Whether the tree is a score shows when the piece is laid out. -/
def Piece.ofNode : Node → Piece
  | .score blocks title =>
    { title := title, size := blocks.length, score := Node.scoreOf blocks title }
  | .nothing => .absent
  | other =>
    { title := "", size := 0, score := other.toScore, untitled := some (.strayPart other.typeName) }

/-- The piece that an input holds. A tree is checked later, when it is laid out. -/
def Input.load : Input → Except Error Piece
  | .text value | .tree (.text value) => (Score.parse value).map Piece.ofScore
  | .tree (.score blocks title) => .ok (.ofNode (.score blocks title))
  | .tree other => .error (.notASource other.typeName)

-- ============================================================= names

/-- The name of the first step, which reads the input. -/
def readingName : String := "parse"

/-- What the first step does, in a few words. -/
def readingDescription : String := "Read FQS text into a score"

/-- The names of all steps. -/
def stepNames : List String :=
  readingName :: Stage.all.map (·.name)

/-- The names of all steps with what they do. -/
def stepDescriptions : List (String × String) :=
  (readingName, readingDescription) :: Stage.all.map fun s => (s.name, s.description)

/-- Stages up to the named one. -/
def upTo (stop : String) : List Stage → List Stage
  | [] => []
  | s :: rest => if s.name = stop then [s] else s :: upTo stop rest

/-- The stages of a run. -/
def Options.stages (o : Options) : List Stage :=
  match o.stopAt with
  | none => Stage.all
  | some stop => if stop = readingName then [] else upTo stop Stage.all

/-- The complaint about the name of a stage to stop at, if there is one. -/
def Options.complaint? (o : Options) : Option Error :=
  o.stopAt.bind fun stop =>
    if stepNames.contains stop then none else some (.unknownStage stop stepNames)

-- ============================================================ traces

/-- One step of a run: the table behind it, its figures and the warnings that it added. -/
structure Step where
  name : String
  table : Table
  figures : Figures
  warnings : List Warning

/-- A failure, and the stage in which it happened, if the run had come that far. -/
structure Failure where
  stage : Option Stage
  error : Error

/-- What a run did. -/
structure Trace where
  steps : List Step
  context : Context
  failure : Option Failure

/-- The figures of a step. -/
def Context.figuresOf (c : Context) (name : String) : Figures :=
  (c.figures.lookup name).getD []

/-- Run stages one behind the other. -/
def runStages (c : Context) (t : Table) : List Stage → Trace
  | [] => ⟨[], c, none⟩
  | s :: rest =>
    match s.run c t with
    | .error e => ⟨[], c, some ⟨some s, e⟩⟩
    | .ok (next, table) =>
      let more := runStages next table rest
      let step : Step :=
        ⟨s.name, table, next.figuresOf s.name, next.warnings.drop c.warnings.length⟩
      { more with steps := step :: more.steps }

/-- The figures of the first step. -/
def Piece.figures (p : Piece) : Figures :=
  [("blocks", .count p.size), ("title", .text p.title)]

/-- The context behind the first step. -/
def Context.start (o : Options) (p : Piece) : Context :=
  { options := o, piece := p, figures := [(readingName, p.figures)] }

/-- A trace that failed before its first step. -/
def Trace.failed (o : Options) (e : Error) : Trace :=
  ⟨[], { options := o, piece := .absent }, some ⟨none, e⟩⟩

/-- Run an input. -/
def trace (input : Input) (o : Options) : Trace :=
  match o.complaint? with
  | some e => .failed o e
  | none =>
    match input.load with
    | .error e => .failed o e
    | .ok piece =>
      let more := runStages (.start o piece) [] o.stages
      { more with steps := ⟨readingName, [], piece.figures, []⟩ :: more.steps }

-- =========================================================== results

/-- The outcome of a run that did not fail. -/
structure Result where
  tune : String
  table : Table
  piece : Piece
  warnings : List Warning
  figures : List (String × Figures)
  stoppedAt : String

/-- The outcome of a trace. -/
def Trace.result (t : Trace) : Except Error Result :=
  match t.failure with
  | some f => .error f.error
  | none =>
    let c := t.context
    let last := t.steps.getLast?
    .ok ⟨c.tune, (last.map (·.table)).getD [], c.piece, c.warnings, c.figures,
      (last.map (·.name)).getD readingName⟩

/-- Run an input for its outcome. -/
def run (input : Input) (o : Options) : Except Error Result :=
  (trace input o).result

/-- The tune of a score text. -/
def convert (text : String) (title : Option String) : Except Error String :=
  (run (.text text) { title := title }).map (·.tune)

end LyricScore
