/-
The stages from a score to a tune. Each stage turns the table into the next one; it may warn,
and it keeps figures of what it did. The context carries what the stages share.
-/
import LyricScore.Score.Node
import LyricScore.Score.Reader
import LyricScore.Table.Dump
import LyricScore.Table.Keys
import LyricScore.Table.Layout
import LyricScore.Table.Meters
import LyricScore.Table.Ties
import LyricScore.Table.Underlay
import LyricScore.Table.Units
import LyricScore.Table.Voicing
import LyricScore.Tune.Assembly

namespace LyricScore

open Text

-- =========================================================== figures

/-- A figure that a stage keeps. -/
inductive Figure where
  | number (value : Int)
  | missing
  | text (value : String)
  | flag (value : Bool)
  | texts (values : List String)
  | named (values : List (String × String))

/-- A figure in messages. -/
def Figure.describe : Figure → String
  | .number value => decimal value
  | .missing => "None"
  | .text value => quote value
  | .flag value => if value then "True" else "False"
  | .texts values => "[" ++ ", ".intercalate (values.map quote) ++ "]"
  | .named values =>
    "\x7b" ++ ", ".intercalate (values.map fun v => quote v.1 ++ ": " ++ quote v.2) ++ "\x7d"

/-- The figures of a stage, by name. -/
abbrev Figures := List (String × Figure)

/-- The figures of a stage in messages. -/
def describeFigures (figures : Figures) : String :=
  "\x7b" ++ ", ".intercalate (figures.map fun f => quote f.1 ++ ": " ++ f.2.describe) ++ "\x7d"

/-- A number among the figures. -/
def Figure.count (n : Nat) : Figure := .number n

/-- A number that may be missing. -/
def Figure.ofInteger? : Option Int → Figure
  | some n => .number n
  | none => .missing

-- =========================================================== context

/-- What a caller can choose. -/
structure Options where
  /-- A title in place of the score's own. -/
  title : Option String := none
  /-- The stage to stop behind. -/
  stopAt : Option String := none
  /-- Whether ties are folded. -/
  fold : Bool := true

/-- A score on its way in: its title, its number of blocks, and the score, or the fault for which
it is none. What is no score at all may have no title either. -/
structure Piece where
  title : String
  size : Nat
  score : Except Error Score
  untitled : Option Error := none

/-- The piece of a score. -/
def Piece.ofScore (s : Score) : Piece :=
  { title := s.title, size := s.blocks.length, score := .ok s }

/-- No piece at all. -/
def Piece.absent : Piece :=
  { title := "", size := 0, score := .error (.notAScore "NoneType") }

/-- What the stages share. -/
structure Context where
  options : Options
  piece : Piece
  warnings : List Warning := []
  figures : List (String × Figures) := []
  tune : String := ""

/-- The title of the tune. The piece is asked for its own only if none is given. -/
def Context.title (c : Context) : Except Error String :=
  match c.options.title, c.piece.untitled with
  | some title, _ => .ok title
  | none, some e => .error e
  | none, none => .ok c.piece.title

/-- A context with the figures of a stage. -/
def Context.record (c : Context) (stage : String) (figures : Figures) : Context :=
  { c with figures := (c.figures.filter fun f => f.1 != stage) ++ [(stage, figures)] }

/-- A context with more warnings. -/
def Context.warn (c : Context) (warnings : List Warning) : Context :=
  { c with warnings := c.warnings ++ warnings }

-- ============================================================ stages

/-- A stage. -/
inductive Stage where
  | layout
  | voicing
  | underlay
  | heading
  | units
  | meters
  | keys
  | notes
  | ties
  | assembly
  deriving DecidableEq

namespace Stage

/-- The stages in order. -/
def all : List Stage :=
  [.layout, .voicing, .underlay, .heading, .units, .meters, .keys, .notes, .ties, .assembly]

/-- The name under which a stage is called. -/
def name : Stage → String
  | .layout => "flatten"
  | .voicing => "octaves"
  | .underlay => "map"
  | .heading => "prep"
  | .units => "beat"
  | .meters => "meter"
  | .keys => "keysig"
  | .notes => "notes"
  | .ties => "optimize"
  | .assembly => "generate"

/-- What a stage does, in a few words. -/
def description : Stage → String
  | .layout => "Expand the parsed score into lyric and pitch rows"
  | .voicing => "Resolve absolute octaves for pitch rows"
  | .underlay => "Map pitches onto attack and tie rows"
  | .heading => "Prepend the X/T/K/M/L header rows"
  | .units => "Resolve unit note lengths from beat-duration directives"
  | .meters => "Infer per-measure meters and emit meter changes"
  | .keys => "Set the header key, bar tokens and inline key changes"
  | .notes => "Encode beat groups as ABC notes and tuplets"
  | .ties => "Fold tied runs into dotted and longer notes"
  | .assembly => "Assemble the ABC text"

/-- The stage of a name. -/
def ofName? (name : String) : Option Stage :=
  all.find? (·.name == name)

-- ------------------------------------------------- figures by stage

/-- How many rows come from a source. -/
def rowsFrom (source : Source) (t : Table) : Nat :=
  (t.filter fun r => decide (r.source = source)).length

/-- The figures of the layout. -/
def layoutFigures (t : Table) : Figures :=
  [("rows", .count t.length), ("lyric_rows", .count (rowsFrom .lyric t)),
   ("pitch_rows", .count (rowsFrom .pitch t))]

/-- The figures of voicing: the range of the octaves. -/
def voicingFigures (t : Table) : Figures :=
  let octaves := t.filterMap (·.octave)
  [("pitches", .count octaves.length), ("lowest", .ofInteger? octaves.min?),
   ("highest", .ofInteger? octaves.max?)]

/-- How many rows met one of the given fates. -/
def fateCount (fates : List Fate) (rows : List (Row × Fate)) : Figure :=
  .count (rows.filter fun r => fates.contains r.2).length

/-- The figures of the underlay. -/
def underlayFigures (rows : List (Row × Fate)) : Figures :=
  [("attacks", fateCount [.sung, .silent] rows), ("ties", fateCount [.held, .unheld] rows),
   ("mapped", fateCount [.sung, .held] rows), ("unmapped", fateCount [.silent, .unheld] rows)]

/-- The units of a table. -/
def unitsUsed (t : Table) : List Rat :=
  t.filterMap (·.unit)

/-- The figures of the units. -/
def unitFigures (t : Table) : Figures :=
  [("declarations", .count (t.filter (·.declared.isSome)).length),
   ("units", .texts (sortTexts (distinct ((unitsUsed t).map unitText))))]

/-- The figures of the meters. -/
def meterFigures (measures : List Measure) : Figures :=
  [("measures", .count measures.length),
   ("meters", .named (measures.map fun m =>
      (decimal m.key.block ++ ":" ++ decimal m.key.measure, m.meter)))]

/-- The figures of the keys. -/
def keyFigures (marks : List KeyMark) : Figures :=
  [("header_key", .text (Keys.headingKey marks)),
   ("changes", .count (marks.filter fun m =>
      m.effect.changesKey && m.effect != .heading).length),
   ("suppressed", .count (marks.filter fun m => m.effect == .repeated).length)]

/-- The figures of the notes. -/
def noteFigures (counts : NoteCounts) : Figures :=
  [("beat_groups", .count counts.beats), ("tuplets", .count counts.tuplets),
   ("rests", .count counts.rests), ("ties", .count counts.ties)]

/-- The figures of folding ties. -/
def tieFigures (fold : Bool) (f : Folding) : Figures :=
  [("enabled", .flag fold), ("dotted", .count f.dotted), ("merged", .count f.merged)]

/-- The number of lines of a tune. -/
def lineCount (tune : String) : Nat :=
  if tune = "" then 0 else tune.toList.count '\n' + 1

-- -------------------------------------------------------- one stage

/-- Run one stage on a table. -/
def run (stage : Stage) (c : Context) (t : Table) : Except Error (Context × Table) :=
  match stage with
  | .layout => do
    let score ← c.piece.score
    return (c.record stage.name (layoutFigures score.layout), score.layout)
  | .voicing => do
    let voiced ← t.voiced
    return (c.record stage.name (voicingFigures voiced), voiced)
  | .underlay =>
    let rows := t.underlaid
    .ok ((c.warn t.underlayWarnings).record stage.name (underlayFigures rows), rows.map (·.1))
  | .heading => do
    let title ← c.title
    let figures := [("header_rows", .count (headingFields title).length), ("title", .text title)]
    return (c.record stage.name figures, t.withHeading title)
  | .units => do
    let ds ← t.declarations
    let out := t.withUnitsOf ds
    if (unitsUsed out).all ratFits then
      return ((c.warn (ds.flatMap Units.warnings)).record stage.name (unitFigures out), out)
    else throw .integerTooLong
  | .meters => do
    let out ← t.withMeters
    return (c.record stage.name (meterFigures t.measures), out)
  | .keys =>
    let marks := t.keyMarks
    .ok ((c.warn (marks.flatMap Keys.warnings)).record stage.name (keyFigures marks), t.withKeys)
  | .notes => do
    let out ← t.withNotes
    return (c.record stage.name (noteFigures t.noteCounts), out)
  | .ties => do
    let (out, folding) ← t.withTies c.options.fold
    return (c.record stage.name (tieFigures c.options.fold folding), out)
  | .assembly =>
    let tune := t.tune
    .ok (({ c with tune := tune } : Context).record stage.name
      [("lines", .count (lineCount tune))], t)

end Stage

end LyricScore
